import UtilityCss.Candidate.Basic
import UtilityCss.Node.Walk
import UtilityCss.Theme.Basic

/-!
The variants that class names may use. Each has a place in the order of the output; the variants of
a group share one place and may have a comparison of their own.
-/
namespace UtilityCss

/-- The kinds of rules that a variant produces, or that it may be put around. -/
structure Compounds where
  atRules : Bool := false
  styleRules : Bool := false
  deriving DecidableEq, Repr

namespace Compounds

def never : Compounds := {}

def both : Compounds := ⟨true, true⟩

def intersects (a b : Compounds) : Bool :=
  (a.atRules && b.atRules) || (a.styleRules && b.styleRules)

/-- What one selector produces: a conditional at-rule or a style rule. Other at-rules and selectors
of pseudo-elements cannot be part of a compound. -/
def ofSelector? (selector : String) : Option Compounds :=
  if Text.startsWith "@" selector then
    if ["@media", "@supports", "@container"].any fun start => Text.startsWith start selector then
      some { atRules := true }
    else none
  else if Text.contains "::" selector then none
  else some { styleRules := true }

/-- What several selectors produce; nothing if one of them cannot be part of a compound. -/
def ofSelectors (selectors : List String) : Compounds :=
  match selectors.mapM ofSelector? with
  | none => never
  | some parts => ⟨parts.any atRules, parts.any styleRules⟩

end Compounds

inductive VariantKind where
  | static
  | functional
  | compound
  deriving DecidableEq, Repr

/-- What a variant makes of the rule that it is put on; `none` rejects the rule. -/
abbrev VariantApply := Node → Variant → Theme → Option Node

abbrev VariantCompare := Variant → Variant → Theme → Ordering

structure VariantDefinition where
  kind : VariantKind
  order : Nat
  apply : VariantApply
  /-- what a compound variant may be put around -/
  wraps : Compounds
  /-- what the variant produces inside a compound -/
  compounds : Compounds

structure VariantRegistry where
  /-- one definition for each name -/
  definitions : List (String × VariantDefinition) := []
  /-- the comparisons of groups by their place, latest first -/
  comparisons : List (Nat × VariantCompare) := []
  lastOrder : Nat := 0
  /-- the place of the group that is being registered -/
  groupOrder : Option Nat := none

namespace VariantRegistry

def get? (r : VariantRegistry) (name : String) : Option VariantDefinition :=
  r.definitions.lookup name

def has (r : VariantRegistry) (name : String) : Bool :=
  (r.get? name).isSome

def kind? (r : VariantRegistry) (name : String) : Option VariantKind :=
  (r.get? name).map VariantDefinition.kind

def order? (r : VariantRegistry) (name : String) : Option Nat :=
  (r.get? name).map VariantDefinition.order

def nextOrder (r : VariantRegistry) : Nat :=
  r.groupOrder.getD (r.lastOrder + 1)

/-- Register a variant. A name that is known keeps its place. -/
def set (r : VariantRegistry) (name : String) (kind : VariantKind) (apply : VariantApply)
    (wraps compounds : Compounds) : VariantRegistry :=
  match r.order? name with
  | some order =>
    { r with
      definitions := r.definitions.map fun (k, d) =>
        (k, if k = name then ⟨kind, order, apply, wraps, compounds⟩ else d) }
  | none =>
    { r with
      definitions := r.definitions ++ [(name, ⟨kind, r.nextOrder, apply, wraps, compounds⟩)]
      lastOrder := max r.lastOrder r.nextOrder }

def static (r : VariantRegistry) (name : String) (apply : VariantApply) (compounds : Compounds) :
    VariantRegistry :=
  r.set name .static apply .never compounds

def functional (r : VariantRegistry) (name : String) (apply : VariantApply)
    (compounds : Compounds) : VariantRegistry :=
  r.set name .functional apply .never compounds

def compound (r : VariantRegistry) (name : String) (wraps : Compounds) (apply : VariantApply)
    (compounds : Compounds) : VariantRegistry :=
  r.set name .compound apply wraps compounds

def wrapIn (selectors : List String) : VariantApply :=
  fun node _ _ => node.mapChildren? fun content => selectors.map fun s => Node.ofSelector s content

def selectors (r : VariantRegistry) (name : String) (selectors : List String) : VariantRegistry :=
  r.static name (wrapIn selectors) (.ofSelectors selectors)

/-- A variant from a list of selectors: the style selectors share one rule, and each at-rule has a
block of its own. -/
def ofSelectors (r : VariantRegistry) (name : String) (selectors : List String) :
    VariantRegistry :=
  let atRules := selectors.filter (Text.startsWith "@")
  let styles := selectors.filter fun s => !Text.startsWith "@" s
  r.static name
    (fun node _ _ => node.mapChildren? fun content =>
      (if styles.isEmpty then [] else [.rule (String.intercalate ", " styles) content]) ++
        atRules.map fun s => Node.ofSelector s content)
    (.ofSelectors (styles ++ atRules))

def bodySelectors (body : List Node) : List String :=
  (outline body).filterMap fun
    | (.rule selector _, _) => some selector
    | (.atRule name params _, _) =>
      if name = "slot" then none else some ("@" ++ name ++ " " ++ params)
    | _ => none

def ofBody (r : VariantRegistry) (name : String) (body : List Node) : VariantRegistry :=
  r.static name
    (fun node _ _ =>
      some ((node.mapChildren? fun content => replaceDirective .slot content body).getD node))
    (.ofSelectors (bodySelectors body))

def group (r : VariantRegistry) (compare : Option VariantCompare)
    (register : VariantRegistry → VariantRegistry) : VariantRegistry :=
  let order := r.nextOrder
  let comparisons := match compare with
    | some f => (order, f) :: r.comparisons
    | none => r.comparisons
  let r := register { r with groupOrder := some order, comparisons }
  { r with groupOrder := none, lastOrder := max r.lastOrder order }

def names (r : VariantRegistry) : List String :=
  let le (a b : String × VariantDefinition) : Bool :=
    ((compare a.2.order b.2.order).then (compare a.1 b.1)).isLE
  (r.definitions.mergeSort le).map Prod.fst

def compoundsOf? (r : VariantRegistry) : Variant → Option Compounds
  | .arbitrary selector _ => some (.ofSelectors [selector])
  | v => (v.root?.bind r.get?).map VariantDefinition.compounds

def mayWrap (r : VariantRegistry) (parent : String) (child : Variant) : Bool :=
  match r.get? parent, r.compoundsOf? child with
  | some d, some compounds => d.kind == .compound && d.wraps.intersects compounds
  | _, _ => false

/-- Compare places; what is not registered comes last. -/
def compareOrders : Option Nat → Option Nat → Ordering
  | none, none => .eq
  | none, some _ => .gt
  | some _, none => .lt
  | some a, some b => Ord.compare a b

def compareWithin (r : VariantRegistry) (theme : Theme) (a b : Variant) : Ordering :=
  let root (v : Variant) : String := v.root?.getD ""
  match (r.order? (root a)).bind fun order => r.comparisons.lookup order with
  | some f => f a b theme
  | none =>
    (Ord.compare (root a) (root b)).then
      (compareOptions Ord.compare (a.value?.map VariantValue.text) (b.value?.map VariantValue.text))

/-- The order of variants in the output: arbitrary ones last, the others by place. Compounds go by
what they are put around, then by modifier. -/
def compare (r : VariantRegistry) (theme : Theme) (a b : Variant) : Ordering :=
  if a = b then .eq
  else match a, b with
    | .arbitrary s _, .arbitrary s' _ => Ord.compare s s'
    | .arbitrary .., _ => .gt
    | _, .arbitrary .. => .lt
    | .compound root modifier inner, .compound root' modifier' inner' =>
      (compareOrders (r.order? root) (r.order? root')).then
        ((r.compare theme inner inner').then
          (compareOptions Ord.compare (modifier.map Modifier.text) (modifier'.map Modifier.text)))
    | .compound root modifier inner, b =>
      (compareOrders (r.order? root) (b.root?.bind r.order?)).then
        (r.compareWithin theme (.compound root modifier inner) b)
    | .static root, b =>
      (compareOrders (r.order? root) (b.root?.bind r.order?)).then
        (r.compareWithin theme (.static root) b)
    | .functional root value modifier, b =>
      (compareOrders (r.order? root) (b.root?.bind r.order?)).then
        (r.compareWithin theme (.functional root value modifier) b)

end VariantRegistry

end UtilityCss
