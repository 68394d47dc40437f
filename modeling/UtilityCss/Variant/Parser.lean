import UtilityCss.Candidate.Roots
import UtilityCss.Text.Nesting
import UtilityCss.Value.Decode
import UtilityCss.Variant.Registry

/-!
Reading variants and modifiers.
-/
namespace UtilityCss

/-- Decode the text between brackets; blanks alone are no value. -/
def decodeBracketed? (s : String) : Option String :=
  let decoded := Value.decode s
  if Text.isAllBlank decoded then none else some decoded

def Modifier.parse? (s : String) : Option Modifier :=
  match Text.between? "[" "]" s with
  | some inner => (decodeBracketed? inner).map .arbitrary
  | none => if s.isEmpty then none else some (.named s)

def Modifier.parseOptional? : Option String → Option (Option Modifier)
  | none => some none
  | some s => (Modifier.parse? s).map some

/-- Split off what stands behind a slash; there may be one slash at most. -/
def splitModifier? (s : String) : Option (String × Option String) :=
  match Text.segment '/' s with
  | [name] => some (name, none)
  | [name, modifier] => some (name, some modifier)
  | _ => none

theorem length_le_of_splitModifier? {s name : String} {modifier : Option String}
    (h : splitModifier? s = some (name, modifier)) : name.toList.length ≤ s.toList.length := by
  refine @Text.length_le_of_mem_segment '/' name s ?_
  unfold splitModifier? at h
  split at h <;> simp_all

namespace Variant

/-- Read a selector or at-rule between brackets. A selector that does not say where the element
stands is a condition on the element itself. -/
def ofSelector? (inner : String) : Option Variant :=
  if Text.startsWith "@" inner && Text.hasChar '&' inner then none
  else
    (decodeBracketed? inner).map fun selector =>
      let relative := Text.startsWithAny ['>', '+', '~'] selector
      let placed := relative || Text.startsWith "@" selector || Text.hasChar '&' selector
      .arbitrary (if placed then selector else "&:is(" ++ selector ++ ")") relative

/-- Read the value of a variant. The outer `none` says that the text is no value at all, the inner
one that it cannot be used. -/
def parseValue? : Option String → Option (Option (Option VariantValue))
  | none => some (some none)
  | some s =>
    if Text.endsWith "]" s then
      (Text.between? "[" "]" s).map fun inner =>
        (decodeBracketed? inner).map fun decoded => some (.arbitrary decoded)
    else some (some (some (.named s)))

/-- Read a variant such as `hover`, `group-hover/item` or `[&>*]`. Of the registered names at its
start the first whose value can be read decides. -/
def parse? (r : VariantRegistry) (s : String) : Option Variant :=
  match Text.between? "[" "]" s with
  | some inner => ofSelector? inner
  | none =>
    match _ : splitModifier? s with
    | none => none
    | some (name, modifier) =>
      Option.join <| (findRoots r.has name).attach.findSome? fun ⟨(root, value), _⟩ =>
        match r.kind? root with
        | none => some none
        | some .static =>
          some (if value.isSome || modifier.isSome then none else some (.static root))
        | some .functional =>
          match Modifier.parseOptional? modifier with
          | none => some none
          | some modifier =>
            (parseValue? value).map fun value =>
              value.map fun value => .functional root value modifier
        | some .compound =>
          match _ : value with
          | none => some none
          | some inner =>
            some do
              let inner ← parse? r inner
              if !r.mayWrap root inner then none
              else
                let modifier ← Modifier.parseOptional? modifier
                return .compound root modifier inner
termination_by s.toList.length
decreasing_by
  have hle := length_le_of_splitModifier? ‹splitModifier? s = some (name, modifier)›
  have hlt := length_lt_of_mem_findRoots ‹(root, some inner) ∈ findRoots r.has name›
  omega

end Variant

end UtilityCss
