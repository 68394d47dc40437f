import UtilityCss.Directive.Collect
import UtilityCss.Directive.CustomUtility
import UtilityCss.Directive.ThemeCall
import UtilityCss.StyleValue

/-!
Modules that extend a design system. A module looks at the design system and chooses a list of
actions; running it registers utilities and variants, adds base styles and reports what it asked
for.
-/
namespace UtilityCss

/-- A utility that has values by their keys, and whose styles are computed from a value. -/
structure ValueStyles where
  name : String
  values : List (String × String)
  /-- the styles of a value; `null` stands for none -/
  styles : String → StyleValue

namespace ValueStyles

/-- The value that a class name asks for. The key `DEFAULT` is for the bare name; a value in
brackets stands for itself. -/
def value? (v : ValueStyles) (c : Candidate) : Option String :=
  if c.negative || c.modifier?.isSome then none
  else match c.value? with
    | none => v.values.lookup "DEFAULT"
    | some (.arbitrary s _) => some s
    | some (.named key) => v.values.lookup key
    | some (.fraction key) => v.values.lookup key

def nodes? (v : ValueStyles) (value : String) : Option (List Node) :=
  match v.styles value with
  | .null => none
  | styles => some styles.nodes

def utility (v : ValueStyles) : Utility :=
  { kind := .functional
    resolve := fun c _ => (v.value? c).bind v.nodes?
    calls := fun c => ((v.value? c).map fun value => Event.call v.name value).toList }

end ValueStyles

structure ValueTable where
  name : String
  values : List (String × String)
  /-- values for which there are no styles -/
  rejected : List String
  styles : StyleValue

def ValueTable.valueStyles (t : ValueTable) : ValueStyles :=
  { name := t.name
    values := t.values
    styles := fun value =>
      if t.rejected.contains value then .null else t.styles.substitute "$value" value }

inductive ModuleAction where
  | addUtilities (styles : StyleValue)
  | addBase (styles : StyleValue)
  | addVariant (name : String) (selectors : List String)
  | matchValues (v : ValueStyles)
  | lookUpTheme (path : String)
  | prefixClass (className : String)
  | tellBase
  | askVariant (name : String)
  | fail (message : String)

def ModuleAction.matchUtilities (table : ValueTable) : ModuleAction :=
  .matchValues table.valueStyles

/-- Split at the first character that ends a class name, escaped ones passed over. -/
def splitClass (escaped : Bool) : List Char → List Char × List Char
  | [] => ([], [])
  | c :: cs =>
    if !escaped && [':', '.', '[', '#', '>', '+', '~', ',', ' '].contains c then ([], c :: cs)
    else
      let (name, rest) := splitClass (!escaped && c == '\\') cs
      (c :: name, rest)

def classSelector? (selector : String) : Option (String × String) :=
  (Text.strip? "." (Text.trim selector)).bind fun s =>
    let (name, rest) := splitClass false s.toList
    let name := Text.unescape (String.ofList name)
    if name.isEmpty then none else some (name, String.ofList rest)

/-- The class and the nodes of one member of an object of utilities. What follows the class becomes
a nested rule. -/
def utilityMember (member : String × StyleValue) : Except Error (String × List Node) :=
  match classSelector? member.1 with
  | none => .error (.moduleFailure ("invalid utility selector `" ++ member.1 ++ "`"))
  | some (name, rest) =>
    let nodes := member.2.nodes
    .ok (name, if rest.isEmpty then nodes else [.rule ("&" ++ rest) nodes])

def addToGroup (name : String) (nodes : List Node) :
    List (String × List Node) → List (String × List Node)
  | [] => [(name, nodes)]
  | (n, ns) :: rest =>
    if n = name then (n, ns ++ nodes) :: rest else (n, ns) :: addToGroup name nodes rest

def utilityGroups (styles : StyleValue) : Except Error (List (String × List Node)) :=
  match styles with
  | .object members => do
    let parts ← members.mapM utilityMember
    return parts.foldl (fun groups (name, nodes) => addToGroup name nodes groups) []
  | _ => .error (.moduleFailure "utilities must be an object keyed by class selectors")

structure ModuleState where
  system : DesignSystem
  nodes : List Node

def ModuleAction.run (base : Path) (s : ModuleState) : ModuleAction → Traced ModuleState
  | .addUtilities styles => do
    let groups ← Traced.ofExcept (utilityGroups styles)
    return { s with
      system := groups.foldl (fun d (name, body) => d.addUtility name (.ofBody body)) s.system }
  | .addBase styles => pure { s with nodes := s.nodes ++ [.atRule "layer" "base" styles.nodes] }
  | .addVariant name selectors =>
    pure { s with
      system := { s.system with variants := s.system.variants.ofSelectors name selectors } }
  | .matchValues v => pure { s with system := s.system.addUtility v.name v.utility }
  | .lookUpTheme path => do
    Traced.report [.themeLookup (s.system.theme.path? path)]
    return s
  | .prefixClass className => do
    let full := match s.system.theme.keyPrefix with
      | some p => p ++ ":" ++ className
      | none => className
    Traced.report [.prefixed full]
    return s
  | .tellBase => do
    Traced.report [.base base]
    return s
  | .askVariant name => do
    Traced.report [.hasVariant (s.system.variants.has name)]
    return s
  | .fail message => Traced.fail (.moduleFailure message)

structure StyleModule where
  base : Path
  /-- what it does, given the design system that it finds -/
  actions : DesignSystem → List ModuleAction

instance : Coe (List ModuleAction) (DesignSystem → List ModuleAction) :=
  ⟨fun actions _ => actions⟩

def StyleModule.run (m : StyleModule) (s : ModuleState) : Traced ModuleState :=
  (m.actions s.system).foldlM (ModuleAction.run m.base) s

abbrev ModuleLoader := String → Path → ModuleKind → Except Error StyleModule

structure ModuleCache where
  entries : List (ModuleRequest × StyleModule) := []

namespace ModuleCache

def isSame (a b : ModuleRequest) : Bool :=
  a.base.same b.base && a.id == b.id && a.kind == b.kind

def get? (c : ModuleCache) (request : ModuleRequest) : Option StyleModule :=
  (c.entries.find? fun entry => isSame entry.1 request).map Prod.snd

def size (c : ModuleCache) : Nat :=
  c.entries.length

/-- The module of the cache, or else of the loader. A failure is not remembered. -/
def getOrLoad (c : ModuleCache) (loader : ModuleLoader) (request : ModuleRequest) :
    Traced (StyleModule × ModuleCache) :=
  match c.get? request with
  | some m => pure (m, c)
  | none => do
    Traced.report [.load request.id request.base request.kind]
    let m ← Traced.ofExcept (loader request.id request.base request.kind)
    return (m, ⟨c.entries ++ [(request, m)]⟩)

end ModuleCache

def runModules (loader : Option ModuleLoader) :
    List ModuleRequest → ModuleCache → ModuleState → Traced ModuleState
  | [], _, s => pure s
  | request :: rest, cache, s =>
    match loader with
    | none => Traced.fail (.missingLoader request.kind.directive)
    | some load => do
      let (m, cache) ← cache.getOrLoad load request
      let s ← m.run s
      runModules loader rest cache s

end UtilityCss
