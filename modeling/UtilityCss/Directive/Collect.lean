import UtilityCss.Event
import UtilityCss.Node.Printer
import UtilityCss.Node.Walk
import UtilityCss.Text.Nesting
import UtilityCss.Theme.Basic

/-!
Collecting directives. One walk takes the theme, the custom utilities and variants, the sources and
the modules out of a document, and leaves placeholders where the theme and the utilities will be
printed.
-/
namespace UtilityCss

structure Glob where
  base : Path
  pattern : String
  deriving DecidableEq, Repr

inductive CustomVariant where
  | selectors (selectors : List String)
  | body (nodes : List Node)

structure ModuleRequest where
  id : String
  base : Path
  kind : ModuleKind
  deriving DecidableEq, Repr

def ModuleKind.directive : ModuleKind → String
  | .plugin => "plugin"
  | .config => "config"

structure Collected where
  theme : Theme := {}
  utilities : List (String × List Node) := []
  variants : List (String × CustomVariant) := []
  modules : List ModuleRequest := []
  globs : List Glob := []
  /-- the place of the theme is known -/
  themePlaced : Bool := false
  /-- the place of the utilities is known -/
  utilitiesPlaced : Bool := false

def themeKey : String := "theme"

def utilitiesKey : String := "utilities"

def placeholder (key : String) : Node :=
  .context [(key, "")] []

def Node.isPlaceholder (key : String) : Node → Bool
  | .context entries _ => (entries.lookup key).isSome
  | _ => false

def quotedArgument (directive params : String) (nodes : List Node) (scope : Scope) :
    Except Error String :=
  if !scope.isRoot then .error (.directive directive .nested)
  else if !nodes.isEmpty then .error (.directive directive .hasBody)
  else
    match Text.unquote? (Text.trim params) with
    | some path => .ok path
    | none => .error (.directive directive .unquotedPath)

def isUtilityName (s : String) : Bool :=
  s.toList.head?.any Char.isLower &&
    s.toList.all fun c => c.isAlphanum || ['/', '%', '.', '_', '-'].contains c

/-- Split the params of a variant into its name and its selectors, which may stand in parentheses.
-/
def variantParams (params : String) : String × String :=
  let params := Text.trim params
  let (name, rest) := (Text.cutAt? Text.isBlank params).getD (params, "")
  let rest := Text.trim rest
  (name, Text.trim ((Text.between? "(" ")" rest).getD rest))

def CustomVariant.parse (params : String) (nodes : List Node) :
    Except Error (String × CustomVariant) :=
  let (name, selector) := variantParams params
  if selector.isEmpty then
    if nodes.isEmpty then .error (.directive ("variant " ++ name) .neitherSelectorNorBody)
    else .ok (name, .body nodes)
  else if nodes.isEmpty then
    let selectors := (Text.segment ',' selector).map Text.trim
    .ok (name, .selectors (selectors.filter fun s => !s.isEmpty))
  else .error (.directive ("variant " ++ name) .selectorAndBody)

def Theme.addNode (flags : ThemeFlags) (t : Theme) (node : Node) : Except Error Theme :=
  let foreign : Except Error Theme :=
    .error (.directive "theme" (.foreignThemeContent (toCss [node])))
  match node with
  | .comment _ => .ok t
  | .declaration property value _ =>
    if Text.startsWith "--" property then t.add property (value.getD "") flags else foreign
  | .atRule name _ _ =>
    if Directive.ofName name = .keyframes then .ok (t.addKeyframes node) else foreign
  | _ => foreign

namespace Collected

def baseAt (base : Path) (scope : Scope) : Path :=
  ((scope.context? "base").map Path.mk).getD base

def addTheme (s : Collected) (params : String) (nodes : List Node) :
    Except Error (Action × Collected) := do
  let p ← ThemeParams.parse params
  let theme := { s.theme with keyPrefix := p.keyPrefix.or s.theme.keyPrefix }
  let theme ← nodes.foldlM (Theme.addNode p.flags) theme
  let s := { s with theme }
  if p.flags.reference || s.themePlaced then return (.replace [], s)
  else return (.replace [placeholder themeKey], { s with themePlaced := true })

def addUtility (s : Collected) (params : String) (nodes : List Node) (scope : Scope) :
    Except Error (Action × Collected) :=
  let name := Text.trim params
  if !scope.isRoot then .error (.directive "utility" .nested)
  else if !isUtilityName name then .error (.invalidUtilityName name)
  else if nodes.isEmpty then .error (.emptyUtility name)
  else .ok (.skip, { s with utilities := s.utilities ++ [(name, nodes)] })

def addVariant (s : Collected) (params : String) (nodes : List Node) (scope : Scope) :
    Except Error (Action × Collected) := do
  if !scope.isRoot then throw (.directive "variant" .nested)
  let variant ← CustomVariant.parse params nodes
  return (.replace [], { s with variants := s.variants ++ [variant] })

def addSource (base : Path) (s : Collected) (params : String) (nodes : List Node) (scope : Scope) :
    Except Error (Action × Collected) := do
  let pattern ← quotedArgument "source" params nodes scope
  return (.replace [], { s with globs := s.globs ++ [⟨baseAt base scope, pattern⟩] })

def addModule (base : Path) (s : Collected) (kind : ModuleKind) (params : String)
    (nodes : List Node) (scope : Scope) : Except Error (Action × Collected) := do
  let id ← quotedArgument kind.directive params nodes scope
  return (.replace [], { s with modules := s.modules ++ [⟨id, baseAt base scope, kind⟩] })

/-- The first place for the utilities counts, further ones go. -/
def placeUtilities (s : Collected) (params : String) : Action × Collected :=
  if Text.trim params ≠ "utilities" then (.descend, s)
  else if s.utilitiesPlaced then (.replace [], s)
  else (.replace [placeholder utilitiesKey], { s with utilitiesPlaced := true })

def visit (base : Path) (node : Node) (scope : Scope) (s : Collected) :
    Except Error (Action × Collected) :=
  match node with
  | .atRule name params nodes =>
    match Directive.ofName name with
    | .tailwind => .ok (s.placeUtilities params)
    | .utility => s.addUtility params nodes scope
    | .variant => s.addVariant params nodes scope
    | .source => s.addSource base params nodes scope
    | .plugin => s.addModule base .plugin params nodes scope
    | .config => s.addModule base .config params nodes scope
    | .theme => s.addTheme params nodes
    | .importSheet => .ok (.skip, s)
    | _ => .ok (.descend, s)
  | _ => .ok (.descend, s)

end Collected

/-- Walk with a visitor that may fail; the first failure ends the walk. -/
def walkExcept {σ : Type} (visit : Node → Scope → σ → Except Error (Action × σ)) (s : σ)
    (nodes : List Node) : Except Error (List Node × σ) :=
  let (nodes, state) := walk
    (fun node scope (state : Except Error σ) =>
      match state with
      | .error e => (.stop, .error e)
      | .ok s =>
        match visit node scope s with
        | .error e => (.stop, .error e)
        | .ok (action, s) => (action, .ok s))
    (.ok s) nodes
  state.map fun s => (nodes, s)

def collect (base : Path) (nodes : List Node) : Except Error (List Node × Collected) :=
  walkExcept (Collected.visit base) {} nodes

end UtilityCss
