import UtilityCss.Node.Basic
import UtilityCss.Text.Ident
import UtilityCss.Theme.Params

/-!
Design tokens. A theme maps variable names to values and keeps each name where it was first set.
Names are held unescaped.
-/
namespace UtilityCss

structure ThemeEntry where
  value : String
  flags : ThemeFlags := {}
  deriving DecidableEq, Repr

structure Theme where
  entries : List (String × ThemeEntry) := []
  /-- the captured animations -/
  keyframes : List Node := []
  keyPrefix : Option String := none
  deriving Inhabited

namespace Theme

def entry? (t : Theme) (key : String) : Option ThemeEntry :=
  t.entries.lookup key

def get? (t : Theme) (key : String) : Option String :=
  (t.entry? key).map ThemeEntry.value

def flags? (t : Theme) (key : String) : Option ThemeFlags :=
  (t.entry? key).map ThemeEntry.flags

def contains (t : Theme) (key : String) : Bool :=
  (t.entry? key).isSome

def size (t : Theme) : Nat :=
  t.entries.length

def isEmpty (t : Theme) : Bool :=
  t.entries.isEmpty

def put (key : String) (entry : ThemeEntry) :
    List (String × ThemeEntry) → List (String × ThemeEntry)
  | [] => [(key, entry)]
  | (k, e) :: rest => if k = key then (key, entry) :: rest else (k, e) :: put key entry rest

def erase (t : Theme) (key : String) : Theme :=
  { t with entries := t.entries.filter fun (k, _) => k != key }

def isWithin (space key : String) : Bool :=
  key == space || Text.startsWith (space ++ "-") key

/-- Remove a namespace; the namespace `-` is the whole theme, animations included. -/
def clear (t : Theme) (space : String) : Theme :=
  if space = "-" then { t with entries := [], keyframes := [] }
  else { t with entries := t.entries.filter fun (k, _) => !isWithin space k }

/-- A default entry gives way to one that was set explicitly. -/
def yields (t : Theme) (key : String) (flags : ThemeFlags) : Bool :=
  flags.isDefault && (t.flags? key).any fun f => !f.isDefault

/-- Set a variable. The value `initial` removes it; a key that ends in `-*` stands for a namespace,
and `initial` is all that it takes. -/
def add (t : Theme) (key value : String) (flags : ThemeFlags := {}) : Except Error Theme :=
  let key := Text.unescape key
  match Text.stripEnd? "-*" key with
  | some space =>
    if value = "initial" then .ok (t.clear space) else .error (.invalidThemeValue key value)
  | none =>
    if t.yields key flags then .ok t
    else if value = "initial" then .ok (t.erase key)
    else .ok { t with entries := put key ⟨value, flags⟩ t.entries }

theorem add_cases {t t' : Theme} {key value : String} {flags : ThemeFlags}
    (h : t.add key value flags = .ok t') :
    (∃ space, Text.stripEnd? "-*" (Text.unescape key) = some space ∧ value = "initial" ∧
        t' = t.clear space) ∨
      Text.stripEnd? "-*" (Text.unescape key) = none ∧
        (t' = t ∨ t.yields (Text.unescape key) flags = false ∧
          (t' = t.erase (Text.unescape key) ∨
            t' = { t with entries := put (Text.unescape key) ⟨value, flags⟩ t.entries })) := by
  unfold add at h
  dsimp only at h
  split at h
  next space hspace =>
    split at h
    next hinitial =>
      cases h
      exact .inl ⟨space, hspace, hinitial, rfl⟩
    · cases h
  next hname =>
    refine .inr ⟨hname, ?_⟩
    split at h
    · cases h
      exact .inl rfl
    next hyields =>
      refine .inr ⟨by simpa using hyields, ?_⟩
      split at h <;> cases h
      · exact .inl rfl
      · exact .inr rfl

/-- The variables of a namespace by the rest of their names, names of nested variables left out. -/
def within (t : Theme) (space : String) : List (String × String) :=
  t.entries.filterMap fun (key, entry) =>
    (Text.strip? (space ++ "-") key).bind fun suffix =>
      if suffix.isEmpty || Text.contains "--" suffix then none else some (suffix, entry.value)

def suffixes (t : Theme) (space : String) : List String :=
  (t.within space).map Prod.fst

def prefixed (t : Theme) (key : String) : String :=
  match t.keyPrefix, Text.strip? "--" key with
  | some p, some rest => "--" ++ p ++ "-" ++ rest
  | _, _ => key

/-- The names under which a value may be found in a namespace; a point may be written `_`. -/
def namesFor (value : Option String) (space : String) : List String :=
  match value with
  | none => [space]
  | some v =>
    (space ++ "-" ++ v) ::
      if Text.hasChar '.' v then [space ++ "-" ++ Text.replaceChar '.' "_" v] else []

def keyFor? (t : Theme) (value : Option String) (spaces : List String) : Option String :=
  (spaces.flatMap (namesFor value)).find? t.contains

def referTo? (t : Theme) (key : String) : Option String :=
  (t.entry? key).map fun entry =>
    if entry.flags.inlined then entry.value
    else "var(" ++ Text.escape (t.prefixed key) ++ ")"

/-- Look a value up in several namespaces. Without a value the namespace's own variable counts. -/
def resolve? (t : Theme) (value : Option String) (spaces : List String) : Option String :=
  (t.keyFor? value spaces).bind t.referTo?

def resolveValue? (t : Theme) (value : Option String) (spaces : List String) : Option String :=
  (t.keyFor? value spaces).bind t.get?

def resolveWith? (t : Theme) (value : Option String) (spaces nested : List String) :
    Option (String × List (String × String)) := do
  let key ← t.keyFor? value spaces
  let resolved ← t.referTo? key
  return (resolved, nested.filterMap fun sub => (t.referTo? (key ++ sub)).map fun v => (sub, v))

def addKeyframes (t : Theme) (node : Node) : Theme :=
  { t with keyframes := t.keyframes ++ [node] }

def animationNames (value : String) : List String :=
  (value.toList.splitOnP fun c => Text.isBlank c || c == ',').map String.ofList

def referencedKeyframes (t : Theme) : List Node :=
  let names := t.entries.flatMap fun (key, entry) =>
    if isWithin "--animate" key && !entry.flags.reference then animationNames entry.value else []
  t.keyframes.filter fun
    | .atRule _ params _ => !params.isEmpty && names.contains params
    | _ => false

def declarations (t : Theme) : List Node :=
  (t.entries.filter fun (_, entry) => !entry.flags.reference).map fun (key, entry) =>
    .decl (Text.escape (t.prefixed key)) entry.value

end Theme

end UtilityCss
