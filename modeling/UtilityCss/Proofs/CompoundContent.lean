import UtilityCss.Proofs.VariantContent

/-!
Where compounds put the content of a rule. A compound changes what its inner variant makes of an
empty rule and gives the content to the blocks that are still empty then. A variant with a body has
such a block only where slots stand alone; without one the content is lost.
-/
namespace UtilityCss

/-! ### Content in a tree -/

/-- Content stands as a whole among the children of a node of a tree. -/
inductive Node.Holds (content : List Node) : Node → Prop
  | here {node : Node} {nodes : List Node} (hnodes : node.children? = some nodes)
    (hrun : content <:+: nodes) : Holds content node
  | inside {node child : Node} {nodes : List Node} (hnodes : node.children? = some nodes)
    (hchild : child ∈ nodes) (h : Holds content child) : Holds content node

theorem Node.size_of_children {node : Node} {nodes : List Node} (h : node.children? = some nodes) :
    node.size = sizeAll nodes + 1 := by
  cases node <;> cases h <;> rfl

theorem size_le_sizeAll {node : Node} {nodes : List Node} (h : node ∈ nodes) :
    node.size ≤ sizeAll nodes := by
  obtain ⟨before, after, rfl⟩ := List.append_of_mem h
  rw [sizeAll_append, sizeAll]
  omega

theorem Node.Holds.size_lt {content : List Node} {node : Node} (h : node.Holds content) :
    sizeAll content < node.size := by
  induction h with
  | here hnodes hrun =>
    obtain ⟨before, after, rfl⟩ := hrun
    rw [Node.size_of_children hnodes, sizeAll_append, sizeAll_append]
    omega
  | inside hnodes hchild _ ih =>
    have hle := size_le_sizeAll hchild
    rw [Node.size_of_children hnodes]
    omega

mutual

def Node.hasLeaf : Node → Bool
  | .rule _ nodes => nodes.isEmpty || anyLeaf nodes
  | .atRule _ _ nodes => nodes.isEmpty || anyLeaf nodes
  | .context _ nodes => anyLeaf nodes
  | .atRoot nodes => anyLeaf nodes
  | .declaration .. => false
  | .comment _ => false

def anyLeaf : List Node → Bool
  | [] => false
  | n :: ns => n.hasLeaf || anyLeaf ns

end

mutual

theorem Node.holds_fillLeaves (content : List Node) :
    ∀ {node : Node}, node.hasLeaf = true → (node.fillLeaves content).Holds content
  | .rule selector nodes, h => by
    rw [Node.fillLeaves]
    cases nodes with
    | nil => exact .here rfl (List.infix_refl content)
    | cons n ns =>
      have h : anyLeaf (n :: ns) = true := h
      obtain ⟨child, hchild, hholds⟩ := exists_holds_fillAllLeaves content h
      exact .inside rfl hchild hholds
  | .atRule name params nodes, h => by
    rw [Node.fillLeaves]
    cases nodes with
    | nil => exact .here rfl (List.infix_refl content)
    | cons n ns =>
      have h : anyLeaf (n :: ns) = true := h
      obtain ⟨child, hchild, hholds⟩ := exists_holds_fillAllLeaves content h
      exact .inside rfl hchild hholds
  | .context entries nodes, h => by
    obtain ⟨child, hchild, hholds⟩ :=
      exists_holds_fillAllLeaves content (show anyLeaf nodes = true from h)
    exact .inside rfl hchild hholds
  | .atRoot nodes, h => by
    obtain ⟨child, hchild, hholds⟩ :=
      exists_holds_fillAllLeaves content (show anyLeaf nodes = true from h)
    exact .inside rfl hchild hholds

theorem exists_holds_fillAllLeaves (content : List Node) : ∀ {nodes : List Node},
    anyLeaf nodes = true → ∃ child ∈ fillAllLeaves content nodes, child.Holds content
  | n :: ns, h => by
    rw [fillAllLeaves]
    rcases Bool.or_eq_true_iff.1 h with h | h
    · exact ⟨_, List.mem_cons_self, n.holds_fillLeaves content h⟩
    · obtain ⟨child, hchild, hholds⟩ := exists_holds_fillAllLeaves content h
      exact ⟨child, List.mem_cons_of_mem _ hchild, hholds⟩

end

mutual

theorem Node.fillLeaves_of_not_hasLeaf (content : List Node) :
    ∀ {node : Node}, node.hasLeaf = false → node.fillLeaves content = node
  | .rule selector nodes, h => by
    obtain ⟨hne, hnodes⟩ := Bool.or_eq_false_iff.1 h
    rw [Node.fillLeaves, hne, fillAllLeaves_of_not_anyLeaf content hnodes]
    rfl
  | .atRule name params nodes, h => by
    obtain ⟨hne, hnodes⟩ := Bool.or_eq_false_iff.1 h
    rw [Node.fillLeaves, hne, fillAllLeaves_of_not_anyLeaf content hnodes]
    rfl
  | .context entries nodes, h => by
    rw [Node.fillLeaves, fillAllLeaves_of_not_anyLeaf content (show anyLeaf nodes = false from h)]
  | .atRoot nodes, h => by
    rw [Node.fillLeaves, fillAllLeaves_of_not_anyLeaf content (show anyLeaf nodes = false from h)]
  | .declaration .., _ => rfl
  | .comment _, _ => rfl

theorem fillAllLeaves_of_not_anyLeaf (content : List Node) :
    ∀ {nodes : List Node}, anyLeaf nodes = false → fillAllLeaves content nodes = nodes
  | [], _ => rfl
  | n :: ns, h => by
    obtain ⟨hn, hns⟩ := Bool.or_eq_false_iff.1 h
    rw [fillAllLeaves, n.fillLeaves_of_not_hasLeaf content hn,
      fillAllLeaves_of_not_anyLeaf content hns]

end

mutual

theorem Node.hasLeaf_of_conditions : ∀ {node : Node}, node.conditions?.isSome = true →
    node.hasLeaf = true
  | .rule selector nodes, h => by
    rw [Node.conditions?, Option.isSome_map] at h
    exact leaf_of_onlyConditions h
  | .atRule name params nodes, h => by
    rw [Node.conditions?, Option.isSome_map] at h
    exact leaf_of_onlyConditions h

theorem leaf_of_onlyConditions : ∀ {nodes : List Node}, (onlyConditions? nodes).isSome = true →
    (nodes.isEmpty || anyLeaf nodes) = true
  | [], _ => rfl
  | [only], h => by
    rw [onlyConditions?] at h
    simp [anyLeaf, only.hasLeaf_of_conditions h]

end

theorem FillsNests.anyLeaf {apply : Node → Option Node} (h : FillsNests apply) {blocks : List Node}
    (hblocks : (apply .slot).map (fun made => made.children?.getD []) = some blocks) :
    blocks ≠ [] ∧ UtilityCss.anyLeaf blocks = true := by
  obtain ⟨made, hmade, rfl⟩ := Option.map_eq_some_iff.1 hblocks
  obtain ⟨hne, hnests⟩ := h.blocks hmade
  obtain ⟨first, rest, hmade⟩ := List.exists_cons_of_ne_nil hne
  rw [hmade] at hnests ⊢
  simp [UtilityCss.anyLeaf, first.hasLeaf_of_conditions (hnests first List.mem_cons_self)]

/-! ### Bodies -/

mutual

def Node.hasRoom : Node → Bool
  | .rule _ nodes => nodes.all (·.directive? == some .slot) || anyRoom nodes
  | .atRule name _ nodes =>
    Directive.ofName name != .slot && (nodes.all (·.directive? == some .slot) || anyRoom nodes)
  | .context _ nodes => anyRoom nodes
  | .atRoot nodes => anyRoom nodes
  | .declaration .. => false
  | .comment _ => false

def anyRoom : List Node → Bool
  | [] => false
  | n :: ns => n.hasRoom || anyRoom ns

end

private theorem anyLeaf_append (xs ys : List Node) :
    anyLeaf (xs ++ ys) = (anyLeaf xs || anyLeaf ys) := by
  induction xs with
  | nil => rfl
  | cons x xs ih => rw [List.cons_append, anyLeaf, ih, anyLeaf, Bool.or_assoc]

private theorem replaced_slot_eq_nil_iff (node : Node) :
    node.replaced .slot [] = [] ↔ node.directive? = some .slot := by
  cases node with
  | atRule name params nodes =>
    rw [Node.replaced, Node.directive?]
    split
    next h => simp [h]
    next h => simp [h]
  | _ => simp [Node.replaced, Node.directive?]

theorem allReplaced_slot_eq_nil_iff (nodes : List Node) :
    allReplaced .slot [] nodes = [] ↔ ∀ n ∈ nodes, n.directive? = some .slot := by
  induction nodes with
  | nil => simp [allReplaced]
  | cons n ns ih =>
    rw [allReplaced, List.append_eq_nil_iff, replaced_slot_eq_nil_iff, ih, List.forall_mem_cons]

theorem isEmpty_allReplaced_slot (nodes : List Node) :
    (allReplaced .slot [] nodes).isEmpty = nodes.all (·.directive? == some .slot) := by
  rw [Bool.eq_iff_iff, List.isEmpty_iff, allReplaced_slot_eq_nil_iff]
  simp

mutual

theorem Node.anyLeaf_replaced : ∀ node : Node, anyLeaf (node.replaced .slot []) = node.hasRoom
  | .rule selector nodes => by
    rw [Node.replaced, anyLeaf, Node.hasLeaf, isEmpty_allReplaced_slot, anyLeaf_allReplaced nodes,
      Node.hasRoom, anyLeaf, Bool.or_false]
  | .atRule name params nodes => by
    rw [Node.replaced, Node.hasRoom]
    split
    next h => simp [h, anyLeaf]
    next h =>
      rw [anyLeaf, Node.hasLeaf, isEmpty_allReplaced_slot, anyLeaf_allReplaced nodes, anyLeaf,
        Bool.or_false]
      simp [h]
  | .context entries nodes => by
    rw [Node.replaced, anyLeaf, Node.hasLeaf, anyLeaf_allReplaced nodes, Node.hasRoom, anyLeaf,
      Bool.or_false]
  | .atRoot nodes => by
    rw [Node.replaced, anyLeaf, Node.hasLeaf, anyLeaf_allReplaced nodes, Node.hasRoom, anyLeaf,
      Bool.or_false]
  | .declaration .. => rfl
  | .comment _ => rfl

theorem anyLeaf_allReplaced :
    ∀ nodes : List Node, anyLeaf (allReplaced .slot [] nodes) = anyRoom nodes
  | [] => rfl
  | n :: ns => by
    rw [allReplaced, anyLeaf_append, n.anyLeaf_replaced, anyLeaf_allReplaced ns, anyRoom]

end

/-! ### Compounds -/

mutual

theorem Node.hasLeaf_mapSelectors {f : String → String} : ∀ {node node' : Node} {inRule : Bool},
    node.mapSelectors? f inRule = some node' → node'.hasLeaf = node.hasLeaf
  | .rule selector nodes, node', inRule, h => by
    rw [Node.mapSelectors?] at h
    split at h
    · cases h
    · obtain ⟨nodes', hnodes', rfl⟩ := Option.map_eq_some_iff.1 h
      obtain ⟨hempty, hleaf⟩ := anyLeaf_mapAllSelectors hnodes'
      rw [Node.hasLeaf, Node.hasLeaf, hempty, hleaf]
  | .atRule name params nodes, node', inRule, h => by
    rw [Node.mapSelectors?] at h
    obtain ⟨nodes', hnodes', rfl⟩ := Option.map_eq_some_iff.1 h
    obtain ⟨hempty, hleaf⟩ := anyLeaf_mapAllSelectors hnodes'
    rw [Node.hasLeaf, Node.hasLeaf, hempty, hleaf]
  | .context entries nodes, node', inRule, h => by
    rw [Node.mapSelectors?] at h
    cases h
    rfl
  | .atRoot nodes, node', inRule, h => by
    rw [Node.mapSelectors?] at h
    cases h
    rfl
  | .declaration .., node', inRule, h => by
    rw [Node.mapSelectors?] at h
    cases h
    rfl
  | .comment _, node', inRule, h => by
    rw [Node.mapSelectors?] at h
    cases h
    rfl

theorem anyLeaf_mapAllSelectors {f : String → String} : ∀ {nodes nodes' : List Node}
    {inRule : Bool},
    mapAllSelectors? f inRule nodes = some nodes' →
      nodes'.isEmpty = nodes.isEmpty ∧ anyLeaf nodes' = anyLeaf nodes
  | [], nodes', inRule, h => by
    rw [mapAllSelectors?] at h
    cases h
    exact ⟨rfl, rfl⟩
  | n :: ns, nodes', inRule, h => by
    rw [mapAllSelectors?] at h
    obtain ⟨n', hn', h⟩ := Option.bind_eq_some_iff.1 h
    obtain ⟨ns', hns', h⟩ := Option.bind_eq_some_iff.1 h
    cases h
    exact ⟨rfl, by rw [anyLeaf, anyLeaf, n.hasLeaf_mapSelectors hn',
      (anyLeaf_mapAllSelectors hns').2]⟩

end

theorem hasLeaf_of_compoundApplications {root : String} {apply : VariantApply}
    (happly : (root, apply) ∈ compoundApplications) (hroot : root ≠ "not") {node node' : Node}
    {v : Variant} {theme : Theme} (h : apply node v theme = some node') :
    node'.hasLeaf = node.hasLeaf := by
  have hmade : ∀ {f : String → String}, mapMadeSelectors? f node = some node' →
      node'.hasLeaf = node.hasLeaf := by
    intro f hf
    unfold mapMadeSelectors? at hf
    split at hf
    · exact Node.hasLeaf_mapSelectors hf
    · cases hf
  have hrelational :
      ∀ {mark relation : String}, relational mark relation node v theme = some node' →
      node'.hasLeaf = node.hasLeaf := by
    intro mark relation hf
    unfold relational at hf
    split at hf
    · split at hf
      · cases hf
      · exact hmade hf
    · cases hf
  simp only [compoundApplications, List.mem_cons, Prod.mk.injEq, List.not_mem_nil, or_false]
    at happly
  rcases happly with ⟨hnot, -⟩ | ⟨-, rfl⟩ | ⟨-, rfl⟩ | ⟨-, rfl⟩
  · exact absurd hnot hroot
  · exact hrelational h
  · exact hrelational h
  · unfold hasInside at h
    split at h
    · cases h
    · exact hmade h

private theorem hasLeaf_gathered {nodes : List Node} (h : ∀ n ∈ nodes, n.hasLeaf = true) :
    (gathered nodes).hasLeaf = true := by
  unfold gathered
  split
  next only => exact h only (List.mem_singleton_self only)
  next several _ =>
    cases nodes with
    | nil => rfl
    | cons first rest => simp [Node.hasLeaf, anyLeaf, h first List.mem_cons_self]

theorem hasLeaf_negate {node node' : Node} {v : Variant} {theme : Theme}
    (h : negate node v theme = some node') : node'.hasLeaf = true := by
  obtain ⟨c, selectors, atRules, hnegates, rfl⟩ := negate_eq_some h
  refine hasLeaf_gathered (List.forall_mem_append.2 ⟨List.forall_mem_map.2 fun _ _ => rfl, ?_⟩)
  intro block hblock
  obtain ⟨⟨name, params⟩, -, hnegate⟩ := exists_of_mem_mapM hnegates.atRules hblock
  obtain ⟨params', rfl⟩ := exists_of_negateAtRule? hnegate
  rfl

namespace VariantRegistry

def MakesBlocks (r : VariantRegistry) : Variant → Prop
  | .static root => ∀ body, r.HasBody root body → ∃ n ∈ body, n.directive? ≠ some .slot
  | .compound _ _ inner => r.MakesBlocks inner
  | _ => True

/-- There is an empty block in what the variant makes of an empty rule. A negation makes new blocks,
the other compounds keep those of the variant inside. -/
def HasRoom (r : VariantRegistry) : Variant → Prop
  | .static root => ∀ body, r.HasBody root body → anyRoom body = true
  | .compound root _ inner => if root = "not" then r.MakesBlocks inner else r.HasRoom inner
  | _ => True

structure MakesAsDefined (r : VariantRegistry) (v : Variant) (blocks : List Node) : Prop where
  ne_nil_iff : blocks ≠ [] ↔ r.MakesBlocks v
  anyLeaf_iff : anyLeaf blocks = true ↔ r.HasRoom v

variable {r : VariantRegistry} {theme : Theme} {depth : Nat}

theorem MakesAsDefined.of_body {root : String} {body : List Node} (h : r.HasBody root body) :
    r.MakesAsDefined (.static root) (allReplaced .slot [] body) := by
  have hsame :
      ∀ body', r.HasBody root body' → allReplaced .slot [] body' = allReplaced .slot [] body :=
    fun body' h' => Option.some.inj ((h'.blocks_eq {} 0).symm.trans (h.blocks_eq {} 0))
  have hmakes : ∀ body', (∃ n ∈ body', n.directive? ≠ some .slot) ↔
      allReplaced .slot [] body' ≠ [] := by
    intro body'
    simp [allReplaced_slot_eq_nil_iff]
  refine ⟨⟨fun hne body' h' => (hmakes body').2 (hsame body' h' ▸ hne),
    fun hall => (hmakes body).1 (hall body h)⟩, fun hleaf body' h' => ?_,
    fun hall => (anyLeaf_allReplaced body).trans (hall body h)⟩
  rw [← anyLeaf_allReplaced, hsame body' h', hleaf]

theorem MakesAsDefined.of_fills {v : Variant} (h : FillsNests (applyVariant r theme depth v))
    (hmakes : r.MakesBlocks v) (hroom : r.HasRoom v) {blocks : List Node}
    (hblocks : r.blocks? theme depth v = some blocks) : r.MakesAsDefined v blocks := by
  obtain ⟨hne, hleaf⟩ := FillsNests.anyLeaf h hblocks
  exact ⟨iff_of_true hne hmakes, iff_of_true hleaf hroom⟩

private theorem anyLeaf_eq_of_forall₂ {R : Node → Node → Prop} {nodes nodes' : List Node}
    (h : List.Forall₂ R nodes nodes')
    (hR : ∀ node node', R node node' → node'.hasLeaf = node.hasLeaf) :
    anyLeaf nodes' = anyLeaf nodes := by
  induction h with
  | nil => rfl
  | cons hfirst _ ih => rw [anyLeaf, anyLeaf, hR _ _ hfirst, ih]

theorem Known.makesAsDefined_compound (hr : r.Known) {root : String}
    (hkind : r.kind? root = some .compound)
    {modifier : Option Modifier} {inner : Variant} {blocks rebuilt : List Node}
    (hblocks : r.MakesAsDefined inner blocks)
    (hrebuilt : r.rebuilt? theme (.compound root modifier inner) root blocks = some rebuilt) :
    r.MakesAsDefined (.compound root modifier inner) rebuilt := by
  obtain ⟨d, hd, hforall⟩ := exists_of_rebuilt? hrebuilt
  have happly := (hr root d hd).mem_compoundApplications (by simpa [kind?, hd] using hkind)
  have hne : rebuilt ≠ [] ↔ blocks ≠ [] := by
    rw [← List.length_pos_iff, ← List.length_pos_iff, hforall.length_eq]
  refine ⟨hne.trans hblocks.ne_nil_iff, ?_⟩
  by_cases hnot : root = "not"
  · have hnegate : d.apply = negate := by simpa [compoundApplications, hnot] using happly
    rw [HasRoom, if_pos hnot, ← hblocks.ne_nil_iff, ← hne]
    cases hforall with
    | nil => simp [anyLeaf]
    | cons hfirst _ => simp [anyLeaf, hasLeaf_negate (hnegate ▸ hfirst)]
  · rw [HasRoom, if_neg hnot, ← hblocks.anyLeaf_iff, anyLeaf_eq_of_forall₂ hforall fun _ _ =>
      hasLeaf_of_compoundApplications happly hnot]

theorem Known.makesAsDefined (hr : r.Known) {v : Variant} (hadmits : r.Admits v)
    (hwraps : r.WrapsRightly v) {parent : String} (hparent : r.mayWrap parent v = true)
    {blocks : List Node} (hblocks : r.blocks? theme depth v = some blocks) :
    r.MakesAsDefined v blocks := by
  induction v generalizing depth parent blocks with
  | arbitrary selector relative =>
    exact .of_fills (arbitrary_nests r theme depth selector relative).fills trivial trivial hblocks
  | static root =>
    by_cases hbody : ∃ body, r.HasBody root body
    · obtain ⟨body, hbody⟩ := hbody
      cases hblocks.symm.trans (hbody.blocks_eq theme depth)
      exact .of_body hbody
    · have hfills := (hr.static_fills_or_body hadmits hparent theme depth).resolve_right hbody
      exact .of_fills hfills (fun body h => absurd ⟨body, h⟩ hbody)
        (fun body h => absurd ⟨body, h⟩ hbody)
        hblocks
  | functional root value modifier =>
    exact .of_fills (hr.functional_fills hadmits hparent theme depth) trivial trivial hblocks
  | compound root modifier inner ih =>
    rw [blocks?_compound] at hblocks
    obtain ⟨blocks', hblocks', hrebuilt⟩ := Option.bind_eq_some_iff.1 hblocks
    exact hr.makesAsDefined_compound hadmits.1 (ih hadmits.2 hwraps.2 hwraps.1 hblocks') hrebuilt

theorem hasBody_ofBody (r : VariantRegistry) (name : String) (body : List Node) :
    (r.ofBody name body).HasBody name body :=
  ⟨_, by rw [ofBody, static, get?_set, if_pos rfl], rfl⟩

/-- A compound that accepts a rule keeps its content if there is room for it in what the variant
inside makes, that is, unless that is a variant with a body in which no block holds slots alone.
Then the content is lost: the outcome is the same whatever it was. -/
theorem compound_keeps_content (hr : r.Extended) {s root : String} {modifier : Option Modifier}
    {inner : Variant} (hs : Variant.parse? r s = some (.compound root modifier inner))
    {node node' : Node} {content : List Node} (hcontent : node.children? = some content)
    (haccepts : applyVariant r theme depth (.compound root modifier inner) node = some node') :
    (r.HasRoom (.compound root modifier inner) → node'.Holds content) ∧
      (¬r.HasRoom (.compound root modifier inner) → ∀ content',
        applyVariant r theme depth (.compound root modifier inner) (node.withChildren content') =
          some node') := by
  obtain ⟨hkind, hadmits⟩ := Variant.parse?_admits hs
  obtain ⟨hwrap, hwraps⟩ := Variant.parse?_wrapsRightly hs
  rw [applyVariant_compound_eq_fill _ _ _ _ _ _ hcontent] at haccepts
  obtain ⟨blocks, hblocks, rfl⟩ := Option.map_eq_some_iff.1 haccepts
  have hmakes : r.MakesAsDefined (.compound root modifier inner) blocks := by
    have hrebuilt := hblocks
    rw [blocks?_compound] at hrebuilt
    obtain ⟨blocks', hblocks', hrebuilt⟩ := Option.bind_eq_some_iff.1 hrebuilt
    exact hr.known.makesAsDefined_compound hkind
      (hr.known.makesAsDefined hadmits hwraps hwrap hblocks') hrebuilt
  rw [← hmakes.anyLeaf_iff]
  refine ⟨fun hleaf => ?_, fun hnone content' => ?_⟩
  · obtain ⟨child, hchild, hholds⟩ := exists_holds_fillAllLeaves content hleaf
    exact .inside (Node.children?_withChildren hcontent _) hchild hholds
  · have hnone : anyLeaf blocks = false := by simpa using hnone
    rw [applyVariant_compound_eq_fill _ _ _ _ _ _ (Node.children?_withChildren hcontent content'),
      hblocks, Option.map_some, Node.withChildren_withChildren,
      fillAllLeaves_of_not_anyLeaf _ hnone,
      fillAllLeaves_of_not_anyLeaf _ hnone]

def withRoom : VariantRegistry :=
  (builtin {}).ofBody "foo" [.rule "&:focus" [.decl "color" "red"], .rule "&:hover" [.slot]]

theorem compound_keeps_content_group : Variant.parse? withRoom "group-foo" =
      some (.compound "group" none (.static "foo")) ∧
    ∃ node', applyVariant withRoom {} 0 (.compound "group" none (.static "foo"))
        (.rule ".a" [.decl "display" "flex"]) = some node' ∧
          node'.Holds [.decl "display" "flex"] := by
  have hparse : Variant.parse? withRoom "group-foo" =
      some (.compound "group" none (.static "foo")) := by
    decide +kernel
  have haccepts : (applyVariant withRoom {} 0 (.compound "group" none (.static "foo"))
      (.rule ".a" [.decl "display" "flex"])).isSome = true := by decide +kernel
  have hroom : withRoom.HasRoom (.static "foo") :=
    (MakesAsDefined.of_body (hasBody_ofBody _ _ _)).anyLeaf_iff.1 rfl
  obtain ⟨node', hnode'⟩ := Option.isSome_iff_exists.1 haccepts
  exact ⟨hparse, node', hnode',
    (compound_keeps_content (.ofBody _ _ (.builtin {})) hparse rfl hnode').1 hroom⟩

def withoutRoom : VariantRegistry :=
  (builtin {}).ofBody "foo" [.rule "&:hover" [.decl "color" "red", .slot]]

def threeDeclarations : List Node :=
  [.decl "display" "flex", .decl "margin" "0", .decl "padding" "0"]

/-- The variant keeps the content and the compound around it does not. -/
theorem compound_loses_content : Variant.parse? withoutRoom "group-foo" =
      some (.compound "group" none (.static "foo")) ∧
    (∃ node', applyVariant withoutRoom {} 0 (.static "foo") (.rule ".a" threeDeclarations) =
      some node' ∧
      node'.Holds threeDeclarations) ∧
    ∃ node', applyVariant withoutRoom {} 0 (.compound "group" none (.static "foo"))
      (.rule ".a" threeDeclarations) = some node' ∧ ¬node'.Holds threeDeclarations := by
  refine ⟨by decide +kernel, ⟨_, (hasBody_ofBody _ _ _).apply_eq _ _ rfl, ?_⟩, ?_⟩
  · exact .inside rfl List.mem_cons_self (.here rfl ⟨[.decl "color" "red"], [], rfl⟩)
  · have haccepts : (applyVariant withoutRoom {} 0 (.compound "group" none (.static "foo"))
        (.rule ".a" threeDeclarations)).any (fun node' => node'.size == 3) = true := by
          decide +kernel
    obtain ⟨node', hnode', hsize⟩ := (Option.any_eq_true _ _).1 haccepts
    refine ⟨node', hnode', fun hholds => ?_⟩
    have hlt := hholds.size_lt
    rw [beq_iff_eq.1 hsize] at hlt
    exact absurd hlt (by decide)

end VariantRegistry

end UtilityCss
