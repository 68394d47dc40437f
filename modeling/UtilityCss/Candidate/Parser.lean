import UtilityCss.Utility.Registry
import UtilityCss.Variant.Parser

/-!
Reading class names. A class name can have several readings, since the name of a utility may itself
hold hyphens.
-/
namespace UtilityCss

def splitType (decoded : String) : Option String × String :=
  match Text.splitOnce? ':' decoded with
  | some (name, rest) =>
    if !name.isEmpty && name.toList.all fun c => c.isLower || c == '-' then (some name, rest)
    else (none, decoded)
  | none => (none, decoded)

/-- Read the value of a utility with the modifier behind it: two numbers make a fraction. The outer
`none` makes the whole class name unreadable, the inner one this reading only. -/
def UtilityValue.parse? (s : String) (modifierText : Option String) (modifier : Option Modifier) :
    Option (Option (UtilityValue × Option Modifier)) :=
  match Text.splitOnce? '[' s with
  | some (_, rest) =>
    (Text.stripEnd? "]" rest).map fun inner =>
      let (type, value) := splitType (Value.decode inner)
      if Text.isAllBlank value then none else some (.arbitrary value type, modifier)
  | none =>
    match modifierText, modifier with
    | some denominator, some (.named _) =>
      if Value.isNumber s && Value.isNumber denominator then
        some (some (.fraction (s ++ "/" ++ denominator), none))
      else some (some (.named s, modifier))
    | _, _ => some (some (.named s, modifier))

namespace Candidate

def parseProperty? (inner : String) (modifier : Option Modifier) : Option Kind :=
  match Text.splitOnce? ':' inner with
  | none => none
  | some (property, value) =>
    if property.isEmpty || value.isEmpty then none
    else if property.toList.head?.any fun c => c.isLower || c == '-' then
      some (.arbitrary property (Value.decode value) modifier)
    else none

def parseFunctional (utilities : UtilityRegistry) (s : String) (modifierText : Option String)
    (modifier : Option Modifier) : List Kind :=
  let read : String × Option String → Option (Option Kind)
    | (root, none) => some (some (.functional root none modifier))
    | (root, some value) =>
      (UtilityValue.parse? value modifierText modifier).map fun read =>
        read.map fun (value, modifier) => .functional root (some value) modifier
  match (findRoots (utilities.has · .functional) s).mapM read with
  | none => []
  | some kinds => kinds.filterMap id

/-- All readings of the part behind the variants, each with whether it is negative. -/
def parseBase (utilities : UtilityRegistry) (base : String) : List (Kind × Bool) :=
  if utilities.has base .static && !Text.hasChar '[' base then [(.static base, false)]
  else
    match splitModifier? base with
    | none => []
    | some (name, modifierText) =>
      match Modifier.parseOptional? modifierText with
      | none => []
      | some modifier =>
        match Text.strip? "[" name with
        | some rest =>
          (((Text.stripEnd? "]" rest).bind (parseProperty? · modifier)).map (·, false)).toList
        | none =>
          match Text.strip? "-" name with
          | some name => (parseFunctional utilities name modifierText modifier).map (·, true)
          | none => (parseFunctional utilities name modifierText modifier).map (·, false)

def stripImportant (base : String) : String × Bool :=
  match (Text.stripEnd? "!" base).or (Text.strip? "!" base) with
  | some rest => (rest, true)
  | none => (base, false)

/-- Drop the prefix, which has to come first if there is one. -/
def dropPrefix? (keyPrefix : Option String) (segments : List String) : Option (List String) :=
  match keyPrefix, segments with
  | none, _ => some segments
  | some p, first :: second :: rest => if first = p then some (second :: rest) else none
  | some _, _ => none

def parse (utilities : UtilityRegistry) (variants : VariantRegistry) (keyPrefix : Option String)
    (raw : String) : List Candidate :=
  match (dropPrefix? keyPrefix (Text.segment ':' raw)).map List.reverse with
  | some (base :: rawVariants) =>
    match rawVariants.mapM (Variant.parse? variants) with
    | none => []
    | some parsed =>
      let (base, important) := stripImportant base
      if base.isEmpty then []
      else (parseBase utilities base).map fun (kind, negative) =>
        { kind, variants := parsed, negative, important, raw }
  | _ => []

end Candidate

end UtilityCss
