import UtilityCss.Text.Nesting
import UtilityCss.Variant.Registry

/-!
The variant that turns a condition into its opposite.
-/
namespace UtilityCss

structure Conditions where
  selectors : List String := []
  atRules : List (String × String) := []

mutual

/-- The conditions of a tree without branches; `none` if it branches or holds anything else. -/
def Node.conditions? : Node → Option Conditions
  | .rule selector nodes =>
    (onlyConditions? nodes).map fun c => { c with selectors := selector :: c.selectors }
  | .atRule name params nodes =>
    (onlyConditions? nodes).map fun c => { c with atRules := (name, params) :: c.atRules }
  | _ => none

def onlyConditions? : List Node → Option Conditions
  | [] => some {}
  | [only] => only.conditions?
  | _ => none

end

/-- The opposite of a selector list. A pseudo-element has none. -/
def negateSelector? (selector : String) : Option String :=
  if Text.contains "::" selector then none
  else
    let parts := (Text.segment ',' selector).map fun part =>
      let part := Text.trim part
      Text.replaceChar '&' "*" ((Text.between? "&:is(" ")" part).getD part)
    some ("&:not(" ++ String.intercalate ", " parts ++ ")")

def negateQuery (query : String) : String :=
  let query := Text.trim query
  (Text.strip? "not " query).getD ("not " ++ query)

def negateAtRule? (name params : String) : Option Node :=
  match name with
  | "media" =>
    some (.atRule name (String.intercalate ", " ((Text.segment ',' params).map negateQuery)) [])
  | "supports" => some (.atRule name (negateQuery params) [])
  | _ => none

/-- Turn what the inner variant made into its opposite. At most one selector and one at-rule can be
negated. -/
def negate : VariantApply := fun node variant _ =>
  match variant with
  | .compound _ none inner =>
    if inner.isRelative then none
    else do
      let c ← node.conditions?
      if 1 < c.selectors.length || 1 < c.atRules.length then none
      else
        let rules ← c.selectors.mapM negateSelector?
        let atRules ← c.atRules.mapM fun (name, params) => negateAtRule? name params
        match rules.map (fun s => Node.rule s []) ++ atRules with
        | [only] => some only
        | several => some (.rule "&" several)
  | _ => none

end UtilityCss
