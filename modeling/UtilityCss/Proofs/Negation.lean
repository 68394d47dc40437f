import UtilityCss.Proofs.CompoundContent
import UtilityCss.Proofs.ConditionText

/-!
When the content that a variant places is active, and when the content of its negation is. Blocks
inside of each other all have to hold, and of blocks next to each other one. A negation turns each
block of the variant into its opposite and puts these next to each other, so it is the complement if
there is one block; a list of queries is negated one by one, so there may be only one query, too.
-/
namespace UtilityCss

/-! ### Active content -/

/-- Whether the condition of a block holds. A context has none. -/
def Node.holds (t : Truth) : Node → Bool
  | .rule selector _ => selectorHolds t selector
  | .atRule name params _ => atRuleHolds t name params
  | .context _ _ => true
  | _ => false

/-- Content is active where it stands among some nodes, and in the blocks whose conditions hold. -/
inductive IsActive (t : Truth) (content : List Node) : List Node → Prop
  | here {nodes : List Node} (hrun : content <:+: nodes) : IsActive t content nodes
  | inside {nodes inner : List Node} {node : Node} (hnode : node ∈ nodes)
    (hholds : node.holds t = true)
    (hinner : node.children? = some inner) (h : IsActive t content inner) : IsActive t content nodes

def Node.Activates (t : Truth) (content : List Node) (node : Node) : Prop :=
  node.holds t = true ∧ ∃ inner, node.children? = some inner ∧ IsActive t content inner

theorem isActive_iff {t : Truth} {content nodes : List Node} :
    IsActive t content nodes ↔ content <:+: nodes ∨ ∃ node ∈ nodes, node.Activates t content := by
  constructor
  · rintro (hrun | ⟨hnode, hholds, hinner, h⟩)
    · exact .inl hrun
    · exact .inr ⟨_, hnode, hholds, _, hinner, h⟩
  · rintro (hrun | ⟨node, hnode, hholds, inner, hinner, h⟩)
    · exact .here hrun
    · exact .inside hnode hholds hinner h

mutual

def Node.isBlock : Node → Bool
  | .rule _ nodes => allBlocks nodes
  | .atRule _ _ nodes => allBlocks nodes
  | _ => false

def allBlocks : List Node → Bool
  | [] => true
  | n :: ns => n.isBlock && allBlocks ns

end

mutual

def Node.reaches (t : Truth) : Node → Bool
  | .rule selector nodes => selectorHolds t selector && (nodes.isEmpty || anyReaches t nodes)
  | .atRule name params nodes => atRuleHolds t name params && (nodes.isEmpty || anyReaches t nodes)
  | _ => false

def anyReaches (t : Truth) : List Node → Bool
  | [] => false
  | n :: ns => n.reaches t || anyReaches t ns

end

mutual

theorem Node.hasLeaf_of_isBlock : ∀ {node : Node}, node.isBlock = true → node.hasLeaf = true
  | .rule _ _, h => leaf_of_allBlocks h
  | .atRule _ _ _, h => leaf_of_allBlocks h

theorem leaf_of_allBlocks : ∀ {nodes : List Node}, allBlocks nodes = true →
    (nodes.isEmpty || anyLeaf nodes) = true
  | [], _ => rfl
  | n :: ns, h => by
    obtain ⟨hn, -⟩ := Bool.and_eq_true_iff.1 h
    simp [anyLeaf, n.hasLeaf_of_isBlock hn]

end

private theorem isBlock_of_mem {nodes : List Node} (h : allBlocks nodes = true) {node : Node}
    (hnode : node ∈ nodes) : node.isBlock = true := by
  induction nodes with
  | nil => cases hnode
  | cons n ns ih =>
    obtain ⟨hn, hns⟩ := Bool.and_eq_true_iff.1 h
    rcases List.mem_cons.1 hnode with rfl | hnode
    · exact hn
    · exact ih hns hnode

/-- Blocks that are filled are larger than what they are filled with. -/
theorem not_infix_fillAllLeaves {content nodes : List Node} (hne : content ≠ [])
    (h : allBlocks nodes = true) : ¬content <:+: fillAllLeaves content nodes := by
  intro hrun
  obtain ⟨node, hnode⟩ := List.exists_mem_of_ne_nil _ hne
  have hfilled := hrun.subset hnode
  rw [fillAllLeaves_eq_map] at hfilled
  obtain ⟨block, hblock, rfl⟩ := List.mem_map.1 hfilled
  have hlt := (Node.holds_fillLeaves content
    (Node.hasLeaf_of_isBlock (isBlock_of_mem h hblock))).size_lt
  have hle := size_le_sizeAll hnode
  omega

section

variable {t : Truth} {content : List Node}

mutual

theorem Node.activates_fillLeaves (hne : content ≠ []) : ∀ {node : Node}, node.isBlock = true →
    ((node.fillLeaves content).Activates t content ↔ node.reaches t = true)
  | .rule selector nodes, h => by
    rw [Node.fillLeaves, Node.reaches, Bool.and_eq_true, ← isActive_filled hne h]
    simp [Node.Activates, Node.holds, Node.children?]
  | .atRule name params nodes, h => by
    rw [Node.fillLeaves, Node.reaches, Bool.and_eq_true, ← isActive_filled hne h]
    simp [Node.Activates, Node.holds, Node.children?]

theorem isActive_filled (hne : content ≠ []) : ∀ {nodes : List Node}, allBlocks nodes = true →
    (IsActive t content (if nodes.isEmpty then content else fillAllLeaves content nodes) ↔
      (nodes.isEmpty || anyReaches t nodes) = true)
  | [], _ => by simpa using IsActive.here (List.infix_refl content)
  | n :: ns, h => by
    have hnot := not_infix_fillAllLeaves hne h
    simp only [List.isEmpty_cons, Bool.false_eq_true, if_false, Bool.false_or]
    rw [isActive_iff, or_iff_right hnot]
    exact exists_activates_fillAllLeaves hne h

theorem exists_activates_fillAllLeaves (hne : content ≠ []) :
    ∀ {nodes : List Node}, allBlocks nodes = true →
    ((∃ node ∈ fillAllLeaves content nodes, node.Activates t content) ↔ anyReaches t nodes = true)
  | [], _ => by simp [fillAllLeaves, anyReaches]
  | n :: ns, h => by
    obtain ⟨hn, hns⟩ := Bool.and_eq_true_iff.1 h
    simp only [fillAllLeaves, List.mem_cons, exists_eq_or_imp]
    rw [n.activates_fillLeaves hne hn, exists_activates_fillAllLeaves hne hns, anyReaches,
      Bool.or_eq_true]

end

/-- Content in blocks is active if the conditions hold on the way to one of the blocks that it is
in. -/
theorem isActive_fillAllLeaves (hne : content ≠ []) {nodes : List Node}
    (h : allBlocks nodes = true) :
    IsActive t content (fillAllLeaves content nodes) ↔ anyReaches t nodes = true := by
  rw [isActive_iff, or_iff_right (not_infix_fillAllLeaves hne h)]
  exact exists_activates_fillAllLeaves hne h

end

/-! ### Conditions and their opposites -/

namespace Conditions

def holds (t : Truth) (c : Conditions) : Bool :=
  c.selectors.all (selectorHolds t) && c.atRules.all fun entry => atRuleHolds t entry.1 entry.2

def fails (t : Truth) (c : Conditions) : Bool :=
  (c.selectors.any fun selector => !selectorHolds t selector) ||
    c.atRules.any fun entry => (queriesOf entry.1 entry.2).any fun query =>
      !queryHolds t entry.1 query

/-- The texts are such that their opposites can be read. -/
structure Readable (c : Conditions) : Prop where
  selectors : ∀ selector ∈ c.selectors, SelectorReadable selector
  atRules : ∀ entry ∈ c.atRules, QueriesReadable (queriesOf entry.1 entry.2)

instance (c : Conditions) : Decidable c.Readable :=
  decidable_of_iff ((∀ selector ∈ c.selectors, SelectorReadable selector) ∧
      ∀ entry ∈ c.atRules, QueriesReadable (queriesOf entry.1 entry.2))
    ⟨fun h => ⟨h.1, h.2⟩, fun h => ⟨h.selectors, h.atRules⟩⟩

/-- Every at-rule has one query. -/
def HasOneQuery (c : Conditions) : Prop :=
  ∀ entry ∈ c.atRules, (queriesOf entry.1 entry.2).length = 1

instance (c : Conditions) : Decidable c.HasOneQuery :=
  inferInstanceAs (Decidable (∀ _ ∈ _, _))

private theorem queriesOf_ne_nil (name params : String) : queriesOf name params ≠ [] := by
  unfold queriesOf
  split
  · simp [Text.segment, Text.segments]
  · simp

theorem fails_of_not_holds {t : Truth} {c : Conditions} (h : c.holds t = false) :
    c.fails t = true := by
  unfold fails
  rcases Bool.and_eq_false_iff.1 h with h | h
  · obtain ⟨selector, hselector, hfalse⟩ := List.all_eq_false.1 h
    exact Bool.or_eq_true_iff.2
      (.inl (List.any_eq_true.2 ⟨selector, hselector, by simpa using hfalse⟩))
  · obtain ⟨⟨name, params⟩, hentry, hfalse⟩ := List.all_eq_false.1 h
    refine Bool.or_eq_true_iff.2 (.inr (List.any_eq_true.2 ⟨⟨name, params⟩, hentry, ?_⟩))
    obtain ⟨query, hquery⟩ := List.exists_mem_of_ne_nil _ (queriesOf_ne_nil name params)
    have hnone : ∀ query ∈ queriesOf name params, queryHolds t name query = false := by
      simpa [atRuleHolds] using hfalse
    exact List.any_eq_true.2 ⟨query, hquery, by simp [hnone query hquery]⟩

theorem HasOneQuery.fails_eq {c : Conditions} (h : c.HasOneQuery) (t : Truth) :
    c.fails t = !c.holds t := by
  cases hholds : c.holds t with
  | false => exact fails_of_not_holds hholds
  | true =>
    obtain ⟨hselectors, hatRules⟩ := Bool.and_eq_true_iff.1 hholds
    rw [List.all_eq_true] at hselectors hatRules
    refine Bool.or_eq_false_iff.2 ⟨List.any_eq_false.2 fun selector hselector => ?_,
      List.any_eq_false.2 fun entry hentry => ?_⟩
    · simp [hselectors selector hselector]
    · obtain ⟨query, hquery⟩ := List.length_eq_one_iff.1 (h entry hentry)
      have hquery' : queryHolds t entry.1 query = true := by
        simpa [atRuleHolds, hquery] using hatRules entry hentry
      simp [hquery, hquery']

end Conditions

section

variable {t : Truth}

mutual

theorem Node.isBlock_of_conditions : ∀ {node : Node} {c : Conditions}, node.conditions? = some c →
    node.isBlock = true ∧ node.reaches t = c.holds t
  | .rule selector nodes, c, h => by
    rw [Node.conditions?] at h
    obtain ⟨c, hc, rfl⟩ := Option.map_eq_some_iff.1 h
    obtain ⟨hblocks, hreaches⟩ := allBlocks_of_onlyConditions hc
    refine ⟨hblocks, ?_⟩
    rw [Node.reaches, hreaches, Conditions.holds, Conditions.holds, List.all_cons, Bool.and_assoc]
  | .atRule name params nodes, c, h => by
    rw [Node.conditions?] at h
    obtain ⟨c, hc, rfl⟩ := Option.map_eq_some_iff.1 h
    obtain ⟨hblocks, hreaches⟩ := allBlocks_of_onlyConditions hc
    refine ⟨hblocks, ?_⟩
    rw [Node.reaches, hreaches, Conditions.holds, Conditions.holds, List.all_cons,
      Bool.and_left_comm]

theorem allBlocks_of_onlyConditions : ∀ {nodes : List Node} {c : Conditions},
    onlyConditions? nodes = some c →
      allBlocks nodes = true ∧ (nodes.isEmpty || anyReaches t nodes) = c.holds t
  | [], c, h => by
    rw [onlyConditions?] at h
    cases h
    exact ⟨rfl, rfl⟩
  | [only], c, h => by
    rw [onlyConditions?] at h
    obtain ⟨hblock, hreaches⟩ := only.isBlock_of_conditions h
    simp [allBlocks, hblock, anyReaches, hreaches]

end

theorem conditions_ne_nil {node : Node} {c : Conditions} (h : node.conditions? = some c) :
    c.selectors ≠ [] ∨ c.atRules ≠ [] := by
  cases node with
  | rule selector nodes =>
    rw [Node.conditions?] at h
    obtain ⟨c, -, rfl⟩ := Option.map_eq_some_iff.1 h
    exact .inl (List.cons_ne_nil _ _)
  | atRule name params nodes =>
    rw [Node.conditions?] at h
    obtain ⟨c, -, rfl⟩ := Option.map_eq_some_iff.1 h
    exact .inr (List.cons_ne_nil _ _)
  | _ => simp [Node.conditions?] at h

private theorem selectorHolds_self (t : Truth) : selectorHolds t "&" = true := by
  have hsegment : Text.segment ',' (Text.star "&") = ["*"] := by decide +kernel
  have hlist : selectorList? (Text.trim "*") = none := by decide +kernel
  have hself : (Text.trim "*" == "*") = true := by decide +kernel
  rw [selectorHolds, starHolds_eq, Text.anyPart, hsegment, List.any_cons, partHolds, hlist,
    Option.elim_none, hself]
  rfl

theorem anyReaches_append (xs ys : List Node) :
    anyReaches t (xs ++ ys) = (anyReaches t xs || anyReaches t ys) := by
  induction xs with
  | nil => rfl
  | cons x xs ih => rw [List.cons_append, anyReaches, ih, anyReaches, Bool.or_assoc]

theorem allBlocks_append (xs ys : List Node) :
    allBlocks (xs ++ ys) = (allBlocks xs && allBlocks ys) := by
  induction xs with
  | nil => rfl
  | cons x xs ih => rw [List.cons_append, allBlocks, ih, allBlocks, Bool.and_assoc]

private theorem reaches_gathered {blocks : List Node} (hne : blocks ≠ [])
    (h : allBlocks blocks = true) :
    (gathered blocks).isBlock = true ∧ (gathered blocks).reaches t = anyReaches t blocks := by
  unfold gathered
  split
  next only =>
    simp only [allBlocks, Bool.and_true] at h
    exact ⟨h, by rw [anyReaches, anyReaches, Bool.or_false]⟩
  next several _ =>
    refine ⟨h, ?_⟩
    rw [Node.reaches, selectorHolds_self, Bool.true_and, List.isEmpty_eq_false_iff.2 hne,
      Bool.false_or]

private theorem reaches_oppositeSelectors {selectors opposites : List String}
    (h : List.Forall₂ (fun selector opposite => negateSelector? selector = some opposite)
      selectors opposites)
    (hreadable : ∀ selector ∈ selectors, SelectorReadable selector) :
    allBlocks (opposites.map fun s => Node.rule s []) = true ∧
      anyReaches t (opposites.map fun s => Node.rule s []) =
        selectors.any fun selector => !selectorHolds t selector := by
  induction h with
  | nil => exact ⟨rfl, rfl⟩
  | @cons selector opposite selectors opposites hopposite _ ih =>
    rw [List.forall_mem_cons] at hreadable
    obtain ⟨hblocks, hreaches⟩ := ih hreadable.2
    refine ⟨hblocks, ?_⟩
    rw [List.map_cons, anyReaches, hreaches, List.any_cons,
      ← selectorHolds_negate t hreadable.1 hopposite]
    simp [Node.reaches]

private theorem reaches_oppositeAtRules {atRules : List (String × String)} {opposites : List Node}
    (h : List.Forall₂ (fun entry opposite => negateAtRule? entry.1 entry.2 = some opposite)
      atRules opposites)
    (hreadable : ∀ entry ∈ atRules, QueriesReadable (queriesOf entry.1 entry.2)) :
    allBlocks opposites = true ∧ anyReaches t opposites = atRules.any fun entry =>
      (queriesOf entry.1 entry.2).any fun query => !queryHolds t entry.1 query := by
  induction h with
  | nil => exact ⟨rfl, rfl⟩
  | @cons entry opposite atRules opposites hopposite _ ih =>
    rw [List.forall_mem_cons] at hreadable
    obtain ⟨hblocks, hreaches⟩ := ih hreadable.2
    obtain ⟨params', rfl, hholds⟩ := atRuleHolds_negate t hreadable.1 hopposite
    refine ⟨hblocks, ?_⟩
    rw [anyReaches, hreaches, List.any_cons, ← hholds]
    simp [Node.reaches]

theorem Negates.reaches {node : Node} {v : Variant} {c : Conditions} {selectors : List String}
    {atRules : List Node} (h : Negates node v c selectors atRules) (hreadable : c.Readable) :
    (gathered (selectors.map (fun s => Node.rule s []) ++ atRules)).isBlock = true ∧
      (gathered (selectors.map (fun s => Node.rule s []) ++ atRules)).reaches t = c.fails t := by
  have hselectors := forall₂_of_mapM h.selectors
  have hatRules := forall₂_of_mapM h.atRules
  obtain ⟨hblocks, hreaches⟩ := reaches_oppositeSelectors (t := t) hselectors hreadable.selectors
  obtain ⟨hblocks', hreaches'⟩ := reaches_oppositeAtRules (t := t) hatRules hreadable.atRules
  have hne : selectors.map (fun s => Node.rule s []) ++ atRules ≠ [] := by
    rw [← List.length_pos_iff, List.length_append, List.length_map, ← hselectors.length_eq,
      ← hatRules.length_eq]
    rcases conditions_ne_nil h.conditions with hne | hne
    · exact Nat.add_pos_left (List.length_pos_iff.2 hne) _
    · exact Nat.add_pos_right _ (List.length_pos_iff.2 hne)
  obtain ⟨hblock, hgathered⟩ :=
    reaches_gathered (t := t) hne (by rw [allBlocks_append, hblocks, hblocks']; rfl)
  refine ⟨hblock, ?_⟩
  rw [hgathered, anyReaches_append, hreaches, hreaches', Conditions.fails]

end

/-! ### Slots -/

def isSlotOnly : List Node → Bool
  | [n] => n.directive? == some .slot
  | _ => false

mutual

/-- Slots stand only alone in a block, and every other block has children. -/
def Node.slotsAlone : Node → Bool
  | .rule _ nodes => isSlotOnly nodes || (!nodes.isEmpty && allSlotsAlone nodes)
  | .atRule name _ nodes =>
    Directive.ofName name != .slot && (isSlotOnly nodes || (!nodes.isEmpty && allSlotsAlone nodes))
  | .context _ nodes => allSlotsAlone nodes
  | .atRoot nodes => allSlotsAlone nodes
  | .declaration .. => true
  | .comment _ => true

def allSlotsAlone : List Node → Bool
  | [] => true
  | n :: ns => n.slotsAlone && allSlotsAlone ns

end

theorem Node.directive_of_slotsAlone {node : Node} (h : node.slotsAlone = true) :
    node.directive? ≠ some .slot := by
  cases node with
  | atRule name params nodes =>
    have hname : Directive.ofName name ≠ .slot := by
      simpa using (Bool.and_eq_true_iff.1 h).1
    simpa [Node.directive?] using hname
  | _ => simp [Node.directive?]

private theorem allReplaced_ne_nil {nodes : List Node} (hne : nodes ≠ [])
    (h : allSlotsAlone nodes = true) : allReplaced .slot [] nodes ≠ [] := by
  obtain ⟨first, rest, rfl⟩ := List.exists_cons_of_ne_nil hne
  rw [ne_eq, allReplaced_slot_eq_nil_iff]
  intro hall
  exact Node.directive_of_slotsAlone (Bool.and_eq_true_iff.1 h).1 (hall first List.mem_cons_self)

private theorem fillAllLeaves_append (content xs ys : List Node) :
    fillAllLeaves content (xs ++ ys) = fillAllLeaves content xs ++ fillAllLeaves content ys := by
  simp [fillAllLeaves_eq_map]

theorem Node.replaced_of_directive {node : Node} (h : node.directive? = some .slot)
    (content : List Node) : node.replaced .slot content = content := by
  cases node with
  | atRule name params nodes =>
    rw [Node.replaced, if_pos (by simpa [Node.directive?] using h)]
  | _ => simp [Node.directive?] at h

theorem replaced_block {content nodes : List Node}
    (h : (isSlotOnly nodes || (!nodes.isEmpty && allSlotsAlone nodes)) = true)
    (hnodes : allSlotsAlone nodes = true →
      allReplaced .slot content nodes = fillAllLeaves content (allReplaced .slot [] nodes)) :
    allReplaced .slot content nodes = if (allReplaced .slot [] nodes).isEmpty then content
      else fillAllLeaves content (allReplaced .slot [] nodes) := by
  rcases Bool.or_eq_true_iff.1 h with hslot | hothers
  · unfold isSlotOnly at hslot
    split at hslot
    next n =>
      have hn := beq_iff_eq.1 hslot
      simp [allReplaced, Node.replaced_of_directive hn]
    · cases hslot
  · obtain ⟨hne, halone⟩ := Bool.and_eq_true_iff.1 hothers
    have hne : nodes ≠ [] := by simpa using hne
    rw [List.isEmpty_eq_false_iff.2 (allReplaced_ne_nil hne halone), hnodes halone]
    rfl

mutual

theorem Node.replaced_of_slotsAlone (content : List Node) :
    ∀ {node : Node}, node.slotsAlone = true →
    node.replaced .slot content = fillAllLeaves content (node.replaced .slot [])
  | .rule selector nodes, h => by
    rw [Node.replaced, Node.replaced, fillAllLeaves, Node.fillLeaves,
      replaced_block h fun h => allReplaced_of_slotsAlone content h, fillAllLeaves]
  | .atRule name params nodes, h => by
    obtain ⟨hname, hnodes⟩ := Bool.and_eq_true_iff.1 h
    have hname : Directive.ofName name ≠ .slot := by simpa using hname
    rw [Node.replaced, Node.replaced, if_neg hname, if_neg hname, fillAllLeaves, Node.fillLeaves,
      replaced_block hnodes fun h => allReplaced_of_slotsAlone content h, fillAllLeaves]
  | .context entries nodes, h => by
    rw [Node.replaced, Node.replaced, fillAllLeaves, Node.fillLeaves,
      allReplaced_of_slotsAlone content (show allSlotsAlone nodes = true from h), fillAllLeaves]
  | .atRoot nodes, h => by
    rw [Node.replaced, Node.replaced, fillAllLeaves, Node.fillLeaves,
      allReplaced_of_slotsAlone content (show allSlotsAlone nodes = true from h), fillAllLeaves]
  | .declaration .., _ => rfl
  | .comment _, _ => rfl

theorem allReplaced_of_slotsAlone (content : List Node) :
    ∀ {nodes : List Node}, allSlotsAlone nodes = true →
    allReplaced .slot content nodes = fillAllLeaves content (allReplaced .slot [] nodes)
  | [], _ => rfl
  | n :: ns, h => by
    obtain ⟨hn, hns⟩ := Bool.and_eq_true_iff.1 h
    rw [allReplaced, allReplaced, fillAllLeaves_append, n.replaced_of_slotsAlone content hn,
      allReplaced_of_slotsAlone content hns]

end

/-! ### Negations -/

/-- A variant that fills nests puts any content into the blocks that it makes of an empty rule. -/
theorem FillsNests.eq_fill {apply : Node → Option Node} (h : FillsNests apply) {blocks : List Node}
    (hblocks : (apply .slot).map (fun made => made.children?.getD []) = some blocks) {node : Node}
    {content : List Node} (hcontent : node.children? = some content) :
    apply node = some (node.withChildren (fillAllLeaves content blocks)) := by
  obtain ⟨nests?, -, happly⟩ := h
  rw [happly .slot [] rfl, Option.map_map] at hblocks
  obtain ⟨nests, rfl, hnests⟩ := Option.map_eq_some_iff.1 hblocks
  have hnests : fillAllLeaves [] nests = blocks := hnests
  rw [happly node content hcontent, ← hnests, fillAllLeaves_nil, Option.map_some]

namespace VariantRegistry

variable {r : VariantRegistry} {theme : Theme} {depth : Nat}

private theorem applyVariant_depth_succ (v : Variant) (depth depth' : Nat) (node : Node) :
    applyVariant r theme (depth + 1) v node = applyVariant r theme (depth' + 1) v node := by
  induction v generalizing depth depth' node with
  | arbitrary selector relative => simp [applyVariant]
  | static root => rfl
  | functional root value modifier => rfl
  | compound root modifier inner ih =>
    rw [applyVariant, applyVariant, ih (depth + 1) (depth' + 1)]

private theorem applyVariant_depth {v : Variant} (h : v.isRelative = false) (depth depth' : Nat)
    (node : Node) : applyVariant r theme depth v node = applyVariant r theme depth' v node := by
  cases v with
  | arbitrary selector relative =>
    have hrelative : relative = false := h
    simp [applyVariant, hrelative]
  | static root => rfl
  | functional root value modifier => rfl
  | compound root modifier inner =>
    rw [applyVariant, applyVariant, applyVariant_depth_succ inner depth depth']

/-- A variant with a body has one in which slots stand alone. -/
def SlotsAlone (r : VariantRegistry) : Variant → Prop
  | .static root => (∃ body, r.HasBody root body) → ∃ body, r.HasBody root body ∧
      allSlotsAlone body = true
  | _ => True

theorem Known.applyVariant_eq_fill (hr : r.Known) {v : Variant} (hadmits : r.Admits v)
    {parent : String}
    (hparent : r.mayWrap parent v = true) (hslots : r.SlotsAlone v) {blocks : List Node}
    (hblocks : r.blocks? theme depth v = some blocks) {node : Node} {content : List Node}
    (hcontent : node.children? = some content) :
    applyVariant r theme depth v node =
      some (node.withChildren (fillAllLeaves content blocks)) := by
  cases v with
  | arbitrary selector relative =>
    exact (arbitrary_nests r theme depth selector relative).fills.eq_fill hblocks hcontent
  | static root =>
    rcases hr.static_fills_or_body hadmits hparent theme depth with hfills | hbody
    · exact hfills.eq_fill hblocks hcontent
    · obtain ⟨body, hbody, halone⟩ := hslots hbody
      cases hblocks.symm.trans (hbody.blocks_eq theme depth)
      rw [hbody.apply_eq theme depth hcontent, allReplaced_of_slotsAlone content halone]
  | functional root value modifier =>
    exact (hr.functional_fills hadmits hparent theme depth).eq_fill hblocks hcontent
  | compound root modifier inner =>
    rw [applyVariant_compound_eq_fill _ _ _ _ _ _ hcontent, hblocks, Option.map_some]

/-- The conditions of the blocks that a variant makes. -/
def conditionsOf? (r : VariantRegistry) (theme : Theme) (v : Variant) : Option (List Conditions) :=
  (r.blocks? theme 0 v).bind fun blocks => blocks.mapM Node.conditions?

theorem blocks?_depth {v : Variant} (h : v.isRelative = false) (depth depth' : Nat) :
    r.blocks? theme depth v = r.blocks? theme depth' v := by
  rw [blocks?, applyVariant_depth h depth depth', blocks?]

theorem exists_conditions_of_negate {v : Variant} {blocks rebuilt : List Node}
    (h : List.Forall₂ (fun block made => negate block v theme = some made) blocks rebuilt) :
    ∃ cs, blocks.mapM Node.conditions? = some cs ∧ ∀ t,
      (allBlocks blocks = true ∧ anyReaches t blocks = cs.any (Conditions.holds t)) ∧
        ((∀ c ∈ cs, c.Readable) →
          allBlocks rebuilt = true ∧ anyReaches t rebuilt = cs.any (Conditions.fails t)) := by
  induction h with
  | nil => exact ⟨[], rfl, fun t => ⟨⟨rfl, rfl⟩, fun _ => ⟨rfl, rfl⟩⟩⟩
  | @cons block made blocks rebuilt hmade _ ih =>
    obtain ⟨cs, hcs, ih⟩ := ih
    obtain ⟨c, selectors, atRules, hnegates, rfl⟩ := negate_eq_some hmade
    refine ⟨c :: cs, ?_, fun t => ⟨?_, fun hreadable => ?_⟩⟩
    · rw [List.mapM_cons, hnegates.conditions, hcs]
      rfl
    · obtain ⟨hblock, hreaches⟩ := Node.isBlock_of_conditions (t := t) hnegates.conditions
      obtain ⟨hblocks, hanyReaches⟩ := (ih t).1
      rw [allBlocks, hblock, hblocks, anyReaches, hreaches, hanyReaches, List.any_cons]
      exact ⟨rfl, rfl⟩
    · rw [List.forall_mem_cons] at hreadable
      obtain ⟨hblock, hreaches⟩ := hnegates.reaches (t := t) hreadable.1
      obtain ⟨hblocks, hanyReaches⟩ := (ih t).2 hreadable.2
      rw [allBlocks, hblock, hblocks, anyReaches, hreaches, hanyReaches, List.any_cons]
      exact ⟨rfl, rfl⟩

theorem Known.exists_negated (hr : r.Known) (hkind : r.kind? "not" = some .compound)
    {modifier : Option Modifier} {inner : Variant} {rebuilt : List Node}
    (hrebuilt : r.blocks? theme depth (.compound "not" modifier inner) = some rebuilt) :
    inner.isRelative = false ∧ ∃ blocks, r.blocks? theme 0 inner = some blocks ∧
      List.Forall₂
        (fun block made => negate block (.compound "not" modifier inner) theme = some made)
        blocks rebuilt := by
  rw [blocks?_compound] at hrebuilt
  obtain ⟨blocks, hblocks, hrebuilt⟩ := Option.bind_eq_some_iff.1 hrebuilt
  obtain ⟨d, hd, hforall⟩ := exists_of_rebuilt? hrebuilt
  have hmem := (hr "not" d hd).mem_compoundApplications (by simpa [kind?, hd] using hkind)
  have happly : d.apply = negate := by simpa [compoundApplications] using hmem
  rw [happly] at hforall
  have hrelative : inner.isRelative = false := by
    cases inner with
    | arbitrary selector relative =>
      rw [blocks?_arbitrary] at hblocks
      split at hblocks
      · cases hblocks
      · cases hblocks
        obtain ⟨made, _, hmade, -⟩ := List.forall₂_cons_left_iff.1 hforall
        obtain ⟨c, selectors, atRules, hnegates, -⟩ := negate_eq_some hmade
        obtain ⟨root, inner, heq, hinner⟩ := hnegates.variant
        cases heq
        exact hinner
    | _ => rfl
  exact ⟨hrelative, blocks, (blocks?_depth hrelative 0 (depth + 1)).trans hblocks, hforall⟩

structure ActiveWhere (r : VariantRegistry) (theme : Theme) (inner : Variant)
    (content placed negated : List Node) (cs : List Conditions) : Prop where
  conditions : r.conditionsOf? theme inner = some cs
  placed : ∀ t, IsActive t content placed ↔ ∃ c ∈ cs, c.holds t = true
  negated : (∀ c ∈ cs, c.Readable) → ∀ t, IsActive t content negated ↔ ∃ c ∈ cs, c.fails t = true

theorem Extended.exists_activeWhere (hr : r.Extended) {s : String} {modifier : Option Modifier}
    {inner : Variant}
    (hs : Variant.parse? r s = some (.compound "not" modifier inner)) (hslots : r.SlotsAlone inner)
    {selector : String} {content : List Node} (hne : content ≠ [])
    (haccepts : (applyVariant r theme depth (.compound "not" modifier inner)
      (.rule selector content)).isSome = true) :
    ∃ placed negated cs,
      applyVariant r theme depth inner (.rule selector content) = some (.rule selector placed) ∧
      applyVariant r theme depth (.compound "not" modifier inner) (.rule selector content) =
        some (.rule selector negated) ∧
      r.ActiveWhere theme inner content placed negated cs := by
  have hchildren : Node.children? (.rule selector content) = some content := rfl
  obtain ⟨hkind, hadmits⟩ := Variant.parse?_admits hs
  obtain ⟨hwrap, -⟩ := Variant.parse?_wrapsRightly hs
  rw [applyVariant_compound_eq_fill _ _ _ _ _ _ hchildren, Option.isSome_map] at haccepts
  obtain ⟨rebuilt, hrebuilt⟩ := Option.isSome_iff_exists.1 haccepts
  obtain ⟨hrelative, blocks, hblocks, hforall⟩ := hr.known.exists_negated hkind hrebuilt
  obtain ⟨cs, hcs, hreading⟩ := exists_conditions_of_negate hforall
  refine ⟨fillAllLeaves content blocks, fillAllLeaves content rebuilt, cs, ?_, ?_, ?_, fun t => ?_,
    fun hreadable t => ?_⟩
  · exact hr.known.applyVariant_eq_fill hadmits hwrap hslots
      ((blocks?_depth hrelative depth 0).trans hblocks) hchildren
  · rw [applyVariant_compound_eq_fill _ _ _ _ _ _ hchildren, hrebuilt]
    rfl
  · rw [conditionsOf?, hblocks, Option.bind_some, hcs]
  · obtain ⟨hplaced, hreaches⟩ := (hreading t).1
    rw [isActive_fillAllLeaves hne hplaced, hreaches, List.any_eq_true]
  · obtain ⟨hnegated, hfails⟩ := (hreading t).2 hreadable
    rw [isActive_fillAllLeaves hne hnegated, hfails, List.any_eq_true]

/-- A negation that accepts a rule places the content where one of the variant's conditions fails:
it is active wherever that of the variant is not. If the variant makes one block with one query for
each at-rule, it is active only there. The slots of a variant with a body stand alone, and the texts
of the conditions are such that their opposites can be read. -/
theorem not_complements (hr : r.Extended) {s : String} {modifier : Option Modifier}
    {inner : Variant}
    (hs : Variant.parse? r s = some (.compound "not" modifier inner)) (hslots : r.SlotsAlone inner)
    {selector : String} {content : List Node} (hne : content ≠ [])
    (haccepts : (applyVariant r theme depth (.compound "not" modifier inner)
      (.rule selector content)).isSome = true) :
    ∃ placed negated cs,
      applyVariant r theme depth inner (.rule selector content) = some (.rule selector placed) ∧
      applyVariant r theme depth (.compound "not" modifier inner) (.rule selector content) =
        some (.rule selector negated) ∧
      r.conditionsOf? theme inner = some cs ∧
      ((∀ c ∈ cs, c.Readable) → ∀ t : Truth,
        (IsActive t content placed ↔ ∃ c ∈ cs, c.holds t = true) ∧
        (IsActive t content negated ↔ ∃ c ∈ cs, c.fails t = true) ∧
        (cs ≠ [] → ¬IsActive t content placed → IsActive t content negated) ∧
        (∀ c, cs = [c] → c.HasOneQuery →
          (IsActive t content negated ↔ ¬IsActive t content placed))) := by
  obtain ⟨placed, negated, cs, hplaced, hnegated, hwhere⟩ :=
    hr.exists_activeWhere hs hslots hne haccepts
  refine ⟨placed, negated, cs, hplaced, hnegated, hwhere.conditions, fun hreadable t => ?_⟩
  have hactive := hwhere.placed t
  have hactive' := hwhere.negated hreadable t
  refine ⟨hactive, hactive', fun hcs hnot => ?_, fun c hc hone => ?_⟩
  · obtain ⟨c, hc⟩ := List.exists_mem_of_ne_nil _ hcs
    refine hactive'.2 ⟨c, hc, Conditions.fails_of_not_holds ?_⟩
    exact Bool.eq_false_iff.2 fun hholds => hnot (hactive.2 ⟨c, hc, hholds⟩)
  · rw [hactive, hactive', hc]
    simp [hone.fails_eq t]

def withPointer : VariantRegistry :=
  (builtin {}).ofBody "pointer"
    [.rule "&:hover, &:is(.a, .b)" [.atRule "media" "not (hover: none)" [.slot]]]

theorem not_complements_pointer : ∃ placed negated,
    applyVariant withPointer {} 0 (.static "pointer") (.rule ".a" [.decl "color" "red"]) =
        some (.rule ".a" placed) ∧
      applyVariant withPointer {} 0 (.compound "not" none (.static "pointer"))
          (.rule ".a" [.decl "color" "red"]) = some (.rule ".a" negated) ∧
      ∀ t, IsActive t [.decl "color" "red"] negated ↔ ¬IsActive t [.decl "color" "red"] placed := by
  have hconditions : withPointer.conditionsOf? {} (.static "pointer") =
      some [⟨["&:hover, &:is(.a, .b)"], [("media", "not (hover: none)")]⟩] := by
    rw [conditionsOf?, withPointer, (hasBody_ofBody _ _ _).blocks_eq]
    rfl
  have hreadable :
      ∀ c ∈ [(⟨["&:hover, &:is(.a, .b)"], [("media", "not (hover: none)")]⟩ : Conditions)],
      c.Readable := by decide +kernel
  have hparse : Variant.parse? withPointer "not-pointer" =
      some (.compound "not" none (.static "pointer")) := by decide +kernel
  have hslots : withPointer.SlotsAlone (.static "pointer") :=
    fun _ => ⟨_, hasBody_ofBody _ _ _, rfl⟩
  have haccepts : (applyVariant withPointer {} 0 (.compound "not" none (.static "pointer"))
      (.rule ".a" [.decl "color" "red"])).isSome = true := by decide +kernel
  obtain ⟨placed, negated, cs, hplaced, hnegated, hcs, hreading⟩ :=
    not_complements (.ofBody _ _ (.builtin {})) hparse hslots (List.cons_ne_nil _ _) haccepts
  cases hconditions.symm.trans hcs
  exact ⟨placed, negated, hplaced, hnegated, fun t =>
    (hreading hreadable t).2.2.2 _ rfl (by decide +kernel)⟩

theorem Extended.exists_overlap (hr : r.Extended) {s : String} {modifier : Option Modifier}
    {inner : Variant}
    (hs : Variant.parse? r s = some (.compound "not" modifier inner)) (hslots : r.SlotsAlone inner)
    {selector : String} {content : List Node} (hne : content ≠ [])
    (haccepts : (applyVariant r theme depth (.compound "not" modifier inner)
      (.rule selector content)).isSome = true) {cs : List Conditions}
    (hcs : r.conditionsOf? theme inner = some cs) (hreadable : ∀ c ∈ cs, c.Readable) {t : Truth}
    (hholds : ∃ c ∈ cs, c.holds t = true) (hfails : ∃ c ∈ cs, c.fails t = true) :
    ∃ placed negated,
      applyVariant r theme depth inner (.rule selector content) = some (.rule selector placed) ∧
        applyVariant r theme depth (.compound "not" modifier inner) (.rule selector content) =
          some (.rule selector negated) ∧
        IsActive t content placed ∧ IsActive t content negated := by
  obtain ⟨placed, negated, cs', hplaced, hnegated, hwhere⟩ :=
    hr.exists_activeWhere hs hslots hne haccepts
  cases hcs.symm.trans hwhere.conditions
  exact ⟨placed, negated, hplaced, hnegated, (hwhere.placed t).2 hholds,
    (hwhere.negated hreadable t).2 hfails⟩

private theorem not_hasBody_ofSelectors (r : VariantRegistry) (name : String)
    (selectors : List String)
    (body : List Node) : ¬(r.ofSelectors name selectors).HasBody name body := by
  rintro ⟨d, hd, happly⟩
  rw [ofSelectors, static, get?_set, if_pos rfl] at hd
  cases hd
  have hcomment := congrFun (congrFun (congrFun happly (.comment "")) (.static "")) {}
  cases hcomment

def withEither : VariantRegistry :=
  (builtin {}).ofSelectors "either" ["&:hover", "@media print"]

def printOnly : Truth :=
  ⟨fun _ => false, fun _ text => text == "print"⟩

def hoverOnly : Truth :=
  ⟨fun _ => true, fun _ _ => false⟩

/-- With two queries or two blocks the content of a variant and of its negation can both be active.
-/
theorem not_overlaps :
    (Variant.parse? (builtin {}) "not-[@media_print,screen]" =
        some (.compound "not" none (.arbitrary "@media print,screen" false)) ∧
      ∃ placed negated,
        applyVariant (builtin {}) {} 0 (.arbitrary "@media print,screen" false)
            (.rule ".a" [.decl "color" "red"]) = some (.rule ".a" placed) ∧
          applyVariant (builtin {}) {} 0
            (.compound "not" none (.arbitrary "@media print,screen" false))
            (.rule ".a" [.decl "color" "red"]) = some (.rule ".a" negated) ∧
          IsActive printOnly [.decl "color" "red"] placed ∧
          IsActive printOnly [.decl "color" "red"] negated) ∧
    Variant.parse? withEither "not-either" = some (.compound "not" none (.static "either")) ∧
      ∃ placed negated,
        applyVariant withEither {} 0 (.static "either") (.rule ".a" [.decl "color" "red"]) =
            some (.rule ".a" placed) ∧
          applyVariant withEither {} 0 (.compound "not" none (.static "either"))
            (.rule ".a" [.decl "color" "red"]) = some (.rule ".a" negated) ∧
          IsActive hoverOnly [.decl "color" "red"] placed ∧
          IsActive hoverOnly [.decl "color" "red"] negated := by
  have hquery : Variant.parse? (builtin {}) "not-[@media_print,screen]" =
      some (.compound "not" none (.arbitrary "@media print,screen" false)) := by decide +kernel
  have heither : Variant.parse? withEither "not-either" =
      some (.compound "not" none (.static "either")) := by decide +kernel
  refine ⟨⟨hquery, ?_⟩, heither, ?_⟩
  · have hconditions : (builtin {}).conditionsOf? {} (.arbitrary "@media print,screen" false) =
        some [⟨[], [("media", "print,screen")]⟩] := by
      rw [conditionsOf?, blocks?_arbitrary]
      rfl
    exact (Extended.builtin {}).exists_overlap hquery trivial (List.cons_ne_nil _ _)
      (by decide +kernel) hconditions (by decide +kernel) (by decide +kernel) (by decide +kernel)
  · have hconditions : withEither.conditionsOf? {} (.static "either") =
        some [⟨["&:hover"], []⟩, ⟨[], [("media", "print")]⟩] := by
      rw [conditionsOf?, withEither, ofSelectors, VariantRegistry.static,
        blocks?_static (get?_set ..)]
      rfl
    have hslots : withEither.SlotsAlone (.static "either") := by
      rintro ⟨body, hbody⟩
      exact absurd hbody (not_hasBody_ofSelectors _ _ _ body)
    exact (Extended.ofSelectors _ _ (.builtin {})).exists_overlap heither hslots
      (List.cons_ne_nil _ _) (by decide +kernel) hconditions (by decide +kernel)
      (by decide +kernel) (by decide +kernel)

end VariantRegistry

end UtilityCss
