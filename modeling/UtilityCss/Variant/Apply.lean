import UtilityCss.Variant.Registry

/-!
Putting a variant on a rule. A compound is built around what its inner variant makes of an empty
rule, and the content is put in afterwards.
-/
namespace UtilityCss

mutual

def Node.fillLeaves (content : List Node) : Node → Node
  | .rule selector nodes =>
    .rule selector (if nodes.isEmpty then content else fillAllLeaves content nodes)
  | .atRule name params nodes =>
    .atRule name params (if nodes.isEmpty then content else fillAllLeaves content nodes)
  | .context entries nodes => .context entries (fillAllLeaves content nodes)
  | .atRoot nodes => .atRoot (fillAllLeaves content nodes)
  | .declaration property value important => .declaration property value important
  | .comment text => .comment text

def fillAllLeaves (content : List Node) : List Node → List Node
  | [] => []
  | n :: ns => n.fillLeaves content :: fillAllLeaves content ns

end

/-- Put a variant on a rule; `none` if it rejects the rule. A selector that begins with a combinator
is rejected outside of compounds, that is, at depth zero. -/
def applyVariant (r : VariantRegistry) (theme : Theme) (depth : Nat) :
    Variant → Node → Option Node
  | .arbitrary selector relative, node =>
    if relative && depth == 0 then none
    else node.mapChildren? fun content => [Node.ofSelector selector content]
  | .compound root modifier inner, node => do
    let d ← r.get? root
    let isolated ← applyVariant r theme (depth + 1) inner .slot
    let produced ← (isolated.children?.getD []).mapM fun child =>
      d.apply child (.compound root modifier inner) theme
    node.mapChildren? fun content => fillAllLeaves content produced
  | .static root, node => do
    let d ← r.get? root
    d.apply node (.static root) theme
  | .functional root value modifier, node => do
    let d ← r.get? root
    d.apply node (.functional root value modifier) theme

end UtilityCss
