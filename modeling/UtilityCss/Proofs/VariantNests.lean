import UtilityCss.Proofs.Registration

/-!
What the built-in variants do to a rule. Two pseudo-elements add a declaration, and the compounds
rebuild what another variant made. All others put the content of the rule into nests of blocks that
depend on the variant and the theme only, so one look at each of them is enough for whatever has to
be known of the rules that they make.
-/
namespace UtilityCss

/-! ### Nests of blocks -/

inductive Shell where
  | rule (selector : String)
  | atRule (name params : String)

namespace Shell

def around : Shell → List Node → Node
  | .rule selector, nodes => .rule selector nodes
  | .atRule name params, nodes => .atRule name params nodes

def Named (ok : String → Prop) : Shell → Prop
  | .rule _ => True
  | .atRule name _ => ok name

def ofSelector (selector : String) : Shell :=
  match Node.ofSelector selector [] with
  | .atRule name params _ => .atRule name params
  | _ => .rule selector

end Shell

theorem Node.ofSelector_eq_around (selector : String) (nodes : List Node) :
    Node.ofSelector selector nodes = (Shell.ofSelector selector).around nodes := by
  unfold Shell.ofSelector Node.ofSelector
  split
  · rfl
  · split <;> rfl

theorem Shell.named_ofSelector {ok : String → Prop} {selector : String}
    (h : ∀ name params, Node.ofSelector selector [] = .atRule name params [] → ok name) :
    (Shell.ofSelector selector).Named ok := by
  rw [Node.ofSelector_eq_around] at h
  cases hshell : Shell.ofSelector selector with
  | rule selector => trivial
  | atRule name params => exact h name params (by rw [hshell]; rfl)

structure Nest where
  outer : Shell
  inner : List Shell := []

def nestIn (shells : List Shell) (content : List Node) : List Node :=
  shells.foldr (fun shell nodes => [shell.around nodes]) content

def Nest.around (nest : Nest) (content : List Node) : Node :=
  nest.outer.around (nestIn nest.inner content)

def Nest.Named (ok : String → Prop) (nest : Nest) : Prop :=
  nest.outer.Named ok ∧ ∀ shell ∈ nest.inner, shell.Named ok

theorem Shell.Named.mono {ok ok' : String → Prop} {shell : Shell} (h : shell.Named ok)
    (hok : ∀ name, ok name → ok' name) : shell.Named ok' := by
  cases shell with
  | rule selector => trivial
  | atRule name params => exact hok name h

theorem Shell.named_true (shell : Shell) : shell.Named fun _ => True := by
  cases shell <;> trivial

theorem Nest.Named.mono {ok ok' : String → Prop} {nest : Nest} (h : nest.Named ok)
    (hok : ∀ name, ok name → ok' name) : nest.Named ok' :=
  ⟨h.1.mono hok, fun shell hshell => (h.2 shell hshell).mono hok⟩

def Nest.ofSelector (selector : String) : Nest :=
  { outer := .ofSelector selector }

theorem Nest.around_ofSelector (selector : String) (content : List Node) :
    (Nest.ofSelector selector).around content = Node.ofSelector selector content :=
  (Node.ofSelector_eq_around selector content).symm

/-! ### Applications -/

def FillsEach (nests : List Nest) (apply : Node → Option Node) : Prop :=
  ∀ node, apply node = node.mapChildren? fun content => nests.map fun nest => nest.around content

/-- Every rule is rejected, or the content of all of them goes into the same nests. -/
def NestsContent (ok : String → Prop) (apply : Node → Option Node) : Prop :=
  (∀ node, apply node = none) ∨
    ∃ nests, nests ≠ [] ∧ (∀ nest ∈ nests, nest.Named ok) ∧ FillsEach nests apply

section Applications

open VariantRegistry

variable {ok : String → Prop}

theorem NestsContent.one (nest : Nest) {apply : Node → Option Node} (hok : nest.Named ok)
    (happly : ∀ node, apply node = node.wrapContent nest.around) : NestsContent ok apply :=
  .inr ⟨[nest], List.cons_ne_nil _ _, List.forall_mem_singleton.2 hok, happly⟩

theorem NestsContent.bind {α : Type} {value : Option α} {apply : α → Node → Option Node}
    (h : ∀ x, NestsContent ok (apply x)) :
    NestsContent ok fun node => value.bind (apply · node) := by
  cases value with
  | none => exact .inl fun _ => rfl
  | some x => exact h x

theorem wrapIn_nests {selectors : List String} (hne : selectors ≠ [])
    (hok : ∀ selector ∈ selectors, (Shell.ofSelector selector).Named ok) (v : Variant)
    (theme : Theme) : NestsContent ok fun node => wrapIn selectors node v theme := by
  refine .inr ⟨selectors.map .ofSelector, by simpa using hne, ?_, fun node => ?_⟩
  · exact List.forall_mem_map.2 fun selector hs => ⟨hok selector hs, by simp [Nest.ofSelector]⟩
  · simp only [wrapIn, List.map_map, Function.comp_def, Nest.around_ofSelector]

theorem hover_nests (hok : ok "media") (v : Variant) (theme : Theme) :
    NestsContent ok fun node => hover node v theme :=
  .one ⟨.rule "&:hover", [.atRule "media" "(hover: hover)"]⟩
    ⟨trivial, List.forall_mem_singleton.2 hok⟩ fun _ => rfl

theorem attributeTest_nests (name : String) (named : String → String) (v : Variant)
    (theme : Theme) : NestsContent ok fun node => attributeTest name named node v theme :=
  .bind fun _ => .one ⟨.rule _, []⟩ ⟨trivial, by simp⟩ fun _ => rfl

theorem counting_nests (pseudo : String) (v : Variant) (theme : Theme) :
    NestsContent ok fun node => counting pseudo node v theme := by
  refine .bind fun value => ?_
  cases value with
  | arbitrary s => exact .one ⟨.rule _, []⟩ ⟨trivial, by simp⟩ fun _ => rfl
  | named s =>
    by_cases h : Value.isPositiveInteger s
    · simp only [h, if_true, Option.bind_eq_bind, Option.bind_some]
      exact .one ⟨.rule _, []⟩ ⟨trivial, by simp⟩ fun _ => rfl
    · exact .inl fun node => by simp [h]

theorem supports_nests (hok : ok "supports") (v : Variant) (theme : Theme) :
    NestsContent ok fun node => supports node v theme :=
  .bind fun _ => .one ⟨.atRule "supports" _, []⟩ ⟨hok, by simp⟩ fun _ => rfl

theorem widthQuery_nests (hok : ok "media") (relation : String) (v : Variant) (theme : Theme) :
    NestsContent ok fun node => widthQuery relation node v theme :=
  .bind fun _ => .one ⟨.atRule "media" _, []⟩ ⟨hok, by simp⟩ fun _ => rfl

/-- The nests of a variant that is given by selectors: one for the style selectors together, and one
for each at-rule. -/
def selectorNests (selectors : List String) : List Nest :=
  let atRules := selectors.filter (Text.startsWith "@")
  let styles := selectors.filter fun s => !Text.startsWith "@" s
  (if styles.isEmpty then [] else [{ outer := .rule (String.intercalate ", " styles) }]) ++
    atRules.map .ofSelector

theorem selectorNests_ne_nil {selectors : List String} (h : selectors ≠ []) :
    selectorNests selectors ≠ [] := by
  obtain ⟨first, rest, rfl⟩ := List.exists_cons_of_ne_nil h
  cases hat : Text.startsWith "@" first with
  | true => simp [selectorNests, hat]
  | false => simp [selectorNests, hat]

theorem selectorNests_named {selectors : List String}
    (hok : ∀ selector ∈ selectors, (Shell.ofSelector selector).Named ok) :
    ∀ nest ∈ selectorNests selectors, nest.Named ok := by
  refine List.forall_mem_append.2 ⟨?_, List.forall_mem_map.2 fun selector hs => ?_⟩
  · split
    · simp
    · exact List.forall_mem_singleton.2 ⟨trivial, by simp⟩
  · exact ⟨hok selector (List.mem_filter.1 hs).1, by simp [Nest.ofSelector]⟩

theorem ofSelectors_fillsEach (selectors : List String) :
    FillsEach (selectorNests selectors) fun node => node.mapChildren? fun content =>
      (if (selectors.filter fun s => !Text.startsWith "@" s).isEmpty then []
        else [.rule (String.intercalate ", " (selectors.filter fun s => !Text.startsWith "@" s))
          content]) ++
        (selectors.filter (Text.startsWith "@")).map fun s => Node.ofSelector s content := by
  intro node
  simp only [selectorNests, List.map_append, List.map_map, Function.comp_def,
    Nest.around_ofSelector]
  split <;> rfl

end Applications

/-! ### The built-in variants -/

def compoundApplications : List (String × VariantApply) :=
  [("not", negate), ("group", relational "group" " *"), ("peer", relational "peer" " ~ *"),
    ("has", hasInside)]

def builtinAtRules : List String :=
  ["media", "supports", "starting-style"]

inductive VariantDefinition.Stock (name : String) (d : VariantDefinition) : Prop
  | compound (hkind : d.kind = .compound) (happly : (name, d.apply) ∈ compoundApplications)
  | nests (hkind : d.kind ≠ .compound)
    (happly : ∀ v theme, NestsContent (· ∈ builtinAtRules) fun node => d.apply node v theme)
  | element (hkind : d.kind ≠ .compound) (selector : String)
    (happly : d.apply = VariantRegistry.contentElement selector) (hcompounds : d.compounds = .never)

def isStockSelector (selector : String) : Bool :=
  match Shell.ofSelector selector with
  | .rule _ => true
  | .atRule name _ => builtinAtRules.contains name

theorem named_of_isStockSelector {selector : String} (h : isStockSelector selector = true) :
    (Shell.ofSelector selector).Named (· ∈ builtinAtRules) := by
  unfold isStockSelector at h
  split at h
  next heq =>
    rw [heq]
    trivial
  next heq =>
    rw [heq]
    exact List.contains_iff_mem.1 h

namespace Registration

theorem nesting_stock {name : String} {selectors : List String} (hne : selectors ≠ [])
    (h : ∀ selector ∈ selectors, isStockSelector selector = true) :
    (nesting name selectors).Each VariantDefinition.Stock := fun _ =>
  .nests (by simp) (wrapIn_nests hne fun selector hs => named_of_isStockSelector (h selector hs))

theorem nestings_stock {table : List (String × String)}
    (h : ∀ entry ∈ table, isStockSelector entry.2 = true) :
    ∀ x ∈ table.map fun (name, selector) => nesting name [selector],
      x.Each VariantDefinition.Stock :=
  List.forall_mem_map.2 fun entry hentry =>
    nesting_stock (List.cons_ne_nil _ _) (List.forall_mem_singleton.2 (h entry hentry))

private theorem beforeBreakpoints_stock : EachOf VariantDefinition.Stock beforeBreakpoints := by
  have hmedia : "media" ∈ builtinAtRules := by decide
  have hsupports : "supports" ∈ builtinAtRules := by decide
  have hchildren : ∀ selector ∈ [":where(& > *)", ":where(& *)"],
      ∀ v theme, NestsContent (· ∈ builtinAtRules) fun node =>
        VariantRegistry.wrapIn [selector] node v theme := by
    have hstock : ∀ selector ∈ [":where(& > *)", ":where(& *)"],
        isStockSelector selector = true := by
      decide +kernel
    intro selector hs
    exact wrapIn_nests (List.cons_ne_nil _ _)
      (List.forall_mem_singleton.2 (named_of_isStockSelector (hstock selector hs)))
  have helements : ∀ entry ∈ pseudoElements,
      entry.2 ≠ [] ∧ ∀ selector ∈ entry.2, isStockSelector selector = true := by
    decide +kernel
  rw [eachOf_iff]
  simp only [beforeBreakpoints, List.flatten_cons, List.flatten_nil, List.append_nil,
    List.forall_mem_append, List.forall_mem_cons, List.not_mem_nil, false_implies, implies_true,
    and_true]
  refine ⟨⟨?_, ?_, ?_, ?_, ?_⟩, ?_, ⟨?_, ?_⟩, ?_, ?_, ?_, ⟨?_, ?_, ?_⟩, ?_, ?_, ?_⟩
  · exact fun _ => .nests (by simp) (hchildren _ (by simp))
  · exact fun _ => .nests (by simp) (hchildren _ (by simp))
  · exact fun _ => .compound rfl (by simp [compoundApplications])
  · exact fun _ => .compound rfl (by simp [compoundApplications])
  · exact fun _ => .compound rfl (by simp [compoundApplications])
  · exact List.forall_mem_map.2 fun entry hentry =>
      nesting_stock (helements entry hentry).1 (helements entry hentry).2
  · exact fun _ => .element (by simp) _ rfl rfl
  · exact fun _ => .element (by simp) _ rfl rfl
  · exact nestings_stock (by decide +kernel)
  · exact fun _ => .nests (by simp) (hover_nests hmedia)
  · exact nestings_stock (by decide +kernel)
  · exact fun _ => .compound rfl (by simp [compoundApplications])
  · exact fun _ => .nests (by simp) (attributeTest_nests _ _)
  · exact fun _ => .nests (by simp) (attributeTest_nests _ _)
  · exact List.forall_mem_map.2 fun entry _ _ => .nests (by simp) (counting_nests _)
  · exact fun _ => .nests (by simp) (supports_nests hsupports)
  · exact nestings_stock (by decide +kernel)

private theorem fromBreakpoints_stock (theme : Theme) :
    EachOf VariantDefinition.Stock (fromBreakpoints theme) := by
  have hmedia : "media" ∈ builtinAtRules := by decide
  simp only [eachOf_iff, fromBreakpoints, List.forall_mem_append, List.forall_mem_map,
    List.forall_mem_cons, Registration.Each, List.not_mem_nil, false_implies,
    implies_true, and_true]
  refine ⟨⟨fun _ => ?_, fun _ _ _ => ?_, fun _ => ?_⟩, List.forall_mem_map.1 ?_⟩
  · exact .nests (by simp) (widthQuery_nests hmedia _)
  · exact .nests (by simp) (widthQuery_nests hmedia _)
  · exact .nests (by simp) (widthQuery_nests hmedia _)
  · exact nestings_stock (by decide +kernel)

end Registration

theorem VariantRegistry.builtin_stock (theme : Theme) :
    (builtin theme).Each VariantDefinition.Stock := by
  rw [builtin_eq_registerAll, registerAll_append]
  have hempty : ({} : VariantRegistry).Each VariantDefinition.Stock := by
    intro name d h
    simp [get?] at h
  exact (hempty.registerAll Registration.beforeBreakpoints_stock).registerAll
    (Registration.fromBreakpoints_stock theme)

end UtilityCss
