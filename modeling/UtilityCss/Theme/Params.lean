import UtilityCss.Error
import UtilityCss.Text.Words

/-!
The options of a theme block: three flags and a prefix. Options that are not known are ignored.
-/
namespace UtilityCss

structure ThemeFlags where
  /-- utilities get the value itself and not a reference to the variable -/
  inlined : Bool := false
  /-- known to the compiler and never printed -/
  reference : Bool := false
  /-- gives way to an entry without this flag -/
  isDefault : Bool := false
  deriving DecidableEq, Repr

def ThemeFlags.union (a b : ThemeFlags) : ThemeFlags :=
  { inlined := a.inlined || b.inlined
    reference := a.reference || b.reference
    isDefault := a.isDefault || b.isDefault }

structure ThemeParams where
  flags : ThemeFlags := {}
  keyPrefix : Option String := none
  deriving DecidableEq, Repr

namespace ThemeParams

/-- All flags of both; the later prefix wins. -/
def merge (a b : ThemeParams) : ThemeParams :=
  { flags := a.flags.union b.flags, keyPrefix := b.keyPrefix.or a.keyPrefix }

def flag? : String → Option ThemeFlags
  | "reference" => some { reference := true }
  | "inline" => some { inlined := true }
  | "default" => some { isDefault := true }
  | _ => none

def isPrefixName (s : String) : Bool :=
  !s.isEmpty && s.toList.all Char.isLower

def commasToSpaces (s : String) : String :=
  String.ofList (s.toList.map fun c => if c = ',' then ' ' else c)

/-- Read the options of a theme block, such as `reference default prefix(tw)`. Forwarded options
stand inside `theme(…)`, separated by spaces or commas. -/
def parse (params : String) : Except Error ThemeParams := do
  let parts ← (Text.words params).attach.mapM fun ⟨word, _⟩ => do
    match flag? word with
    | some flags => return { flags }
    | none =>
      match Text.between? "prefix(" ")" word with
      | some inner =>
        if isPrefixName (Text.trim inner) then return { keyPrefix := some (Text.trim inner) }
        else throw (.invalidPrefix (Text.trim inner))
      | none =>
        match _ : Text.between? "theme(" ")" word with
        | some inner => parse (commasToSpaces inner)
        | none => return {}
  return parts.foldl merge {}
termination_by params.toList.length
decreasing_by
  have hle := Text.length_le_of_mem_words ‹word ∈ Text.words params›
  have heq := Text.between?_eq_some_iff.1 ‹Text.between? "theme(" ")" word = some inner›
  subst heq
  simp [commasToSpaces] at hle ⊢
  omega

end ThemeParams

end UtilityCss
