import UtilityCss.DesignSystem
import UtilityCss.PropertyOrder

/-!
Rules for class names, in the order of the output: by variants, then by properties, then by name.
-/
namespace UtilityCss

mutual

/-- The places of the properties that a tree declares. Hoisted nodes and contexts do not count. -/
def Node.propertyIndices : Node → List Nat
  | .declaration property (some _) _ => (propertyIndex? property).toList
  | .rule _ nodes => allPropertyIndices nodes
  | .atRule _ _ nodes => allPropertyIndices nodes
  | _ => []

def allPropertyIndices : List Node → List Nat
  | [] => []
  | n :: ns => n.propertyIndices ++ allPropertyIndices ns

end

def propertySort (nodes : List Node) : List Nat :=
  (allPropertyIndices nodes).eraseDups.mergeSort fun a b => a ≤ b

namespace DesignSystem

def declarations (d : DesignSystem) (c : Candidate) : List (List Node) :=
  match c.kind with
  | .arbitrary property value modifier =>
    ((asColor value modifier d.theme).map fun value => [Node.decl property value]).toList
  | .static root => (d.utilities.ofKind root .static).filterMap fun u => u.resolve c d.theme
  | .functional root _ _ =>
    (d.utilities.ofKind root .functional).filterMap fun u => u.resolve c d.theme

def calls (d : DesignSystem) (c : Candidate) : List Event :=
  match c.kind with
  | .arbitrary .. => []
  | .static root => (d.utilities.ofKind root .static).flatMap fun u => u.calls c
  | .functional root _ _ => (d.utilities.ofKind root .functional).flatMap fun u => u.calls c

def applyVariants (d : DesignSystem) (variants : List Variant) (node : Node) : Option Node :=
  variants.foldlM (fun node v => applyVariant d.variants d.theme 0 v node) node

def rulesOf (d : DesignSystem) (c : Candidate) : List (Node × List Nat) :=
  (d.declarations c).filterMap fun nodes =>
    let nodes := if c.important || d.important then markAllImportant nodes else nodes
    (d.applyVariants c.variants (.rule ("." ++ Text.escape c.raw) nodes)).map fun rule =>
      (rule, propertySort nodes)

end DesignSystem

structure GeneratedRule where
  node : Node
  /-- the ranks of the variants, highest first -/
  ranks : List Nat
  properties : List Nat
  raw : String

/-- By the ranks of the variants, the first property, the number of properties with the most first,
and the class name. -/
def GeneratedRule.compare (a b : GeneratedRule) : Ordering :=
  (List.compareLex Ord.compare a.ranks b.ranks).then <|
    (VariantRegistry.compareOrders a.properties.head? b.properties.head?).then <|
      (Ord.compare b.properties.length a.properties.length).then (Ord.compare a.raw b.raw)

structure ParsedName where
  raw : String
  readings : List Candidate

namespace DesignSystem

def rankedVariants (d : DesignSystem) (readings : List Candidate) : List Variant :=
  (readings.flatMap Candidate.variants).eraseDups.mergeSort fun a b =>
    ((d.variants.compare d.theme a b).then (a.order b)).isLE

def generatedRules (d : DesignSystem) (ranked : List Variant) (name : ParsedName) :
    List GeneratedRule :=
  name.readings.flatMap fun c =>
    let ranks := (c.variants.filterMap ranked.idxOf?).mergeSort fun a b => b ≤ a
    (d.rulesOf c).map fun (node, properties) => { node, ranks, properties, raw := name.raw }

structure Generated where
  rules : List Node
  /-- the class names that mean nothing: first those that cannot be read or are known to be invalid,
  then those that no utility or variant accepts -/
  reported : List String
  /-- the design system with these names remembered -/
  system : DesignSystem
  events : List Event

/-- The rules for some class names, each name taken once. -/
def generate (d : DesignSystem) (raws : List String) : Generated :=
  let names := raws.eraseDups.map fun raw =>
    ParsedName.mk raw (if d.isInvalid raw then [] else d.parse raw)
  let readable := names.filter fun name => !name.readings.isEmpty
  let ranked := d.rankedVariants (readable.flatMap ParsedName.readings)
  let outcomes := readable.map fun name => (name, d.generatedRules ranked name)
  let rules := outcomes.flatMap Prod.snd
  let unreadable := (names.filter fun name => name.readings.isEmpty).map ParsedName.raw
  let refused := (outcomes.filter fun (_, rules) => rules.isEmpty).map fun (name, _) => name.raw
  let reported := unreadable ++ refused
  { rules := (rules.mergeSort fun a b => (a.compare b).isLE).map GeneratedRule.node
    reported
    system := { d with invalid := d.invalid ++ reported.filter fun raw => !d.isInvalid raw }
    events := readable.flatMap fun name => name.readings.flatMap d.calls }

end DesignSystem

end UtilityCss
