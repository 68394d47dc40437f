import UtilityCss.Text.Nesting
import UtilityCss.Utility.Color
import UtilityCss.Utility.Registry

/-!
The forms that built-in utilities have: fixed declarations, or declarations made from a value. A
value is looked up in the theme first; what is not found there may still be a fraction or a bare
value.
-/
namespace UtilityCss

def declareAll (properties : List String) (value : String) : List Node :=
  properties.map fun property => .decl property value

namespace Utility

def fixed (declarations : List (String × String)) : Utility :=
  { kind := .static
    resolve := fun _ _ => some (declarations.map fun (property, value) => .decl property value) }

def fixedTable (table : List (String × String × String)) : List (String × Utility) :=
  table.map fun (name, property, value) => (name, fixed [(property, value)])

end Utility

structure ValueRule where
  /-- the namespaces of the theme, tried in this order -/
  spaces : List String := []
  /-- what else a value without brackets can be -/
  bare : UtilityValue → Theme → Option String := fun _ _ => none
  /-- whether a minus sign before the class name is allowed -/
  negative : Bool := false
  /-- whether two whole numbers make a percentage -/
  fractions : Bool := false

def isWholeFraction (s : String) : Bool :=
  match Text.segment '/' s with
  | [a, b] => Value.isPositiveInteger a && Value.isPositiveInteger b
  | _ => false

namespace ValueRule

def resolve? (rule : ValueRule) (c : Candidate) (theme : Theme) : Option String :=
  if c.modifier?.isSome then none
  else match c.value? with
    | none => theme.resolve? none rule.spaces
    | some (.arbitrary s _) => some s
    | some (.named s) => (theme.resolve? (some s) rule.spaces).or (rule.bare (.named s) theme)
    | some (.fraction s) =>
      match theme.resolve? (some s) rule.spaces with
      | some value => some value
      | none =>
        if rule.fractions && isWholeFraction s then some ("calc(" ++ s ++ " * 100%)")
        else rule.bare (.fraction s) theme

def signed? (rule : ValueRule) (c : Candidate) (theme : Theme) : Option String :=
  if c.negative && !rule.negative then none
  else (rule.resolve? c theme).map fun value =>
    if c.negative then "calc(" ++ value ++ " * -1)" else value

end ValueRule

def Utility.valued (rule : ValueRule) (declare : String → List Node) : Utility :=
  { kind := .functional, resolve := fun c theme => (rule.signed? c theme).map declare }

def spacingValue : UtilityValue → Theme → Option String
  | .named s, theme =>
    (theme.resolve? none ["--spacing"]).bind fun unit =>
      if Value.isSpacing s then some ("calc(" ++ unit ++ " * " ++ s ++ ")") else none
  | _, _ => none

def wholeValue (text : String → String) : UtilityValue → Theme → Option String
  | .named s, _ => if Value.isPositiveInteger s then some (text s) else none
  | _, _ => none

/-- The type of a value in brackets: the one that was given, or else the first that fits. -/
def valueType? (s : String) (given : Option String) (types : List DataType) : Option DataType :=
  match given with
  | some name => DataType.ofName? name
  | none => Value.inferType s types

end UtilityCss
