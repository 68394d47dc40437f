import UtilityCss.Error
import UtilityCss.Node.Basic
import UtilityCss.Text.Words

/-!
Options on media queries. An import turns its options into a media query around what it imports; the
words `important`, `theme(…)` and `prefix(…)` are meant for the compiler, and the last two are
handed on to the theme blocks inside. A query of such words alone is taken away.
-/
namespace UtilityCss

structure MediaOptions where
  /-- words for the theme blocks inside -/
  theme : List String
  important : Bool
  /-- the words of the query itself -/
  query : List String

namespace MediaOptions

def isThemeWord (word : String) : Bool :=
  Text.startsWith "theme(" word || Text.startsWith "prefix(" word

def ofParams (params : String) : MediaOptions :=
  let words := Text.words params
  { theme := words.filter isThemeWord
    important := words.contains "important"
    query := words.filter fun word => !isThemeWord word && word != "important" }

def isPresent (o : MediaOptions) : Bool :=
  o.important || !o.theme.isEmpty

end MediaOptions

structure Forwarding where
  /-- whether the options of media queries are still looked at; inside a query that was taken away
  they are not -/
  reading : Bool := true
  /-- the options for the theme blocks, outermost query first -/
  inherited : List String := []

/-- With options for theme blocks at hand, nothing but theme blocks may follow. -/
def Forwarding.isStrict (f : Forwarding) : Bool :=
  !f.inherited.isEmpty

def appendParams (params more : String) : String :=
  if params.isEmpty then more else params ++ " " ++ more

structure Forwarded where
  nodes : List Node
  /-- whether the word `important` was met -/
  important : Bool

def Forwarded.wrap (out : Forwarded) (f : List Node → Node) : Forwarded :=
  { out with nodes := [f out.nodes] }

def foreignForwarding : Error :=
  .directive "import" .foreignForwarding

mutual

def Node.forwardOptions (f : Forwarding) : Node → Except Error Forwarded
  | .comment text => .ok ⟨[.comment text], false⟩
  | .context entries nodes => (forwardAllOptions f nodes).map (·.wrap (.context entries))
  | .declaration property value important =>
    if f.isStrict then .error foreignForwarding
    else .ok ⟨[.declaration property value important], false⟩
  | .rule selector nodes =>
    if f.isStrict then .error foreignForwarding
    else (forwardAllOptions f nodes).map (·.wrap (.rule selector))
  | .atRoot nodes =>
    if f.isStrict then .error foreignForwarding
    else (forwardAllOptions f nodes).map (·.wrap .atRoot)
  | .atRule name params nodes =>
    match Directive.ofName name with
    | .theme =>
      (forwardAllOptions { f with inherited := [] } nodes).map
        (·.wrap (.atRule name (f.inherited.foldl appendParams params)))
    | .media =>
      let o := MediaOptions.ofParams params
      if !f.reading || !o.isPresent then
        (forwardAllOptions f nodes).map (·.wrap (.atRule name params))
      else
        let inherited :=
          if o.theme.isEmpty then f.inherited
          else f.inherited ++ [String.intercalate " " o.theme]
        if o.query.isEmpty then
          (forwardAllOptions ⟨false, inherited⟩ nodes).map fun out =>
            { out with important := o.important || out.important }
        else
          (forwardAllOptions ⟨true, inherited⟩ nodes).map fun out =>
            { out.wrap (.atRule name (String.intercalate " " o.query)) with
              important := o.important || out.important }
    | _ => (forwardAllOptions f nodes).map (·.wrap (.atRule name params))

def forwardAllOptions (f : Forwarding) : List Node → Except Error Forwarded
  | [] => .ok ⟨[], false⟩
  | n :: ns => do
    let first ← n.forwardOptions f
    let rest ← forwardAllOptions f ns
    return ⟨first.nodes ++ rest.nodes, first.important || rest.important⟩

end

def forwardMediaOptions (nodes : List Node) : Except Error Forwarded :=
  forwardAllOptions {} nodes

end UtilityCss
