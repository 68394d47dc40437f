import UtilityCss.Generate
import UtilityCss.Text.Words
import UtilityCss.Traced

/-!
Putting the declarations of class names into rules. The rule of a class name is opened and its
content put where the directive stands. A class name that means nothing is an error.
-/
namespace UtilityCss

def Node.unwrapClass : Node → List Node
  | .rule selector nodes =>
    if Text.startsWith "." selector then nodes else [.rule selector nodes]
  | node => [node]

def splitApplyImportant (names : List String) : List String × Bool :=
  if names.getLast? = some "!important" then (names.dropLast, true) else (names, false)

def DesignSystem.expandApply (d : DesignSystem) (params : String) : Traced (List Node) := do
  let (names, important) := splitApplyImportant (Text.words params)
  let g := d.generate names
  Traced.report g.events
  match g.reported with
  | raw :: _ => Traced.fail (.unknownUtility raw)
  | [] =>
    let nodes := g.rules.flatMap Node.unwrapClass
    return if important then markAllImportant nodes else nodes

mutual

/-- Expand the directive everywhere in a tree except in the bodies of custom utilities. -/
def Node.substituteApply (d : DesignSystem) : Node → Traced (List Node)
  | .atRule name params nodes =>
    match Directive.ofName name with
    | .utility => pure [.atRule name params nodes]
    | .apply => d.expandApply params
    | _ => do
      let nodes ← substituteAllApply d nodes
      return [.atRule name params nodes]
  | .rule selector nodes => do
    let nodes ← substituteAllApply d nodes
    return [.rule selector nodes]
  | .context entries nodes => do
    let nodes ← substituteAllApply d nodes
    return [.context entries nodes]
  | .atRoot nodes => do
    let nodes ← substituteAllApply d nodes
    return [.atRoot nodes]
  | .declaration property value important => pure [.declaration property value important]
  | .comment text => pure [.comment text]

def substituteAllApply (d : DesignSystem) : List Node → Traced (List Node)
  | [] => pure []
  | n :: ns => do
    let first ← n.substituteApply d
    let rest ← substituteAllApply d ns
    return first ++ rest

end

end UtilityCss
