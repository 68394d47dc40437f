import UtilityCss.Directive.Media
import UtilityCss.Directive.Module
import UtilityCss.Directive.Import
import UtilityCss.Node.Address

/-!
The compiler. `compile` runs the directives of a stylesheet; `build` adds class names and prints the
stylesheet with their rules. The rules depend only on the class names seen so far.
-/
namespace UtilityCss

structure CompileOptions where
  /-- the directory of the entry stylesheet -/
  base : Path
  sheets : SheetLoader := .missing
  modules : Option ModuleLoader := none

structure Compiler where
  tree : List Node
  system : DesignSystem
  globs : List Glob
  /-- where the rules go, if anywhere -/
  site : Option Address
  /-- the text printed last -/
  css : String
  /-- the class names seen so far that are not known to be invalid, ascending -/
  candidates : List String := []
  /-- the number of rules printed last -/
  ruleCount : Nat := 0

def DesignSystem.addVariant (d : DesignSystem) (name : String) : CustomVariant → DesignSystem
  | .selectors selectors => { d with variants := d.variants.ofSelectors name selectors }
  | .body nodes => { d with variants := d.variants.ofBody name nodes }

def Theme.nodes (t : Theme) : List Node :=
  (if t.declarations.isEmpty then [] else [.rule ":root" t.declarations]) ++
    (if t.referencedKeyframes.isEmpty then [] else [.atRoot t.referencedKeyframes])

def placeTheme (t : Theme) (nodes : List Node) : List Node :=
  match Address.find? (Node.isPlaceholder themeKey) nodes with
  | none => nodes
  | some address =>
    address.modify (fun node => (node.mapChildren? fun inner => inner ++ t.nodes).getD node) nodes

def Collected.system (c : Collected) (important : Bool) : DesignSystem :=
  c.variants.foldl (fun d (name, variant) => d.addVariant name variant)
    { DesignSystem.ofTheme c.theme with important }

def compile (css : String) (options : CompileOptions) : Traced Compiler := do
  let nodes ← Traced.ofExcept (parse css)
  let nodes ← Traced.ofExcept (substituteImports options.sheets options.base nodes)
  let forwarded ← Traced.ofExcept (forwardMediaOptions nodes)
  let (nodes, collected) ← Traced.ofExcept (collect options.base forwarded.nodes)
  let s ← runModules options.modules collected.modules {}
    ⟨collected.system forwarded.important, nodes⟩
  let system ← s.system.defineUtilities collected.utilities
  let nodes ← substituteAllApply system s.nodes
  let nodes ← Traced.ofExcept (expandAllCalls system.theme (replaceDirective .utility [] nodes))
  let tree := placeTheme system.theme nodes
  return {
    tree, system
    globs := collected.globs
    site := Address.find? (Node.isPlaceholder utilitiesKey) tree
    css := toCss tree }

namespace Compiler

structure Built where
  compiler : Compiler
  /-- nothing was printed anew -/
  cached : Bool
  events : List Event

/-- Add class names and print the stylesheet. It is printed anew only if there are names that have
not been seen, a place for the rules, and another number of rules than before. -/
def build (c : Compiler) (batch : List String) : Built :=
  let fresh :=
    (batch.filter fun raw => !c.system.isInvalid raw && !c.candidates.contains raw).eraseDups
  if fresh.isEmpty then ⟨c, true, []⟩
  else
    let candidates := (c.candidates ++ fresh).mergeSort fun a b => (compare a b).isLE
    match c.site with
    | none => ⟨{ c with candidates }, true, []⟩
    | some address =>
      let g := c.system.generate candidates
      let c := { c with
        system := g.system
        candidates := candidates.filter fun raw => !g.reported.contains raw }
      if g.rules.length = c.ruleCount then ⟨c, true, g.events⟩
      else
        let tree := address.modify (Node.withChildren g.rules) c.tree
        ⟨{ c with tree, css := toCss tree, ruleCount := g.rules.length }, false, g.events⟩

end Compiler

end UtilityCss
