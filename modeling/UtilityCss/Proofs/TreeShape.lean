import UtilityCss.Directive.Collect
import UtilityCss.Proofs.Occurrences
import UtilityCss.Variant.Apply

/-!
Which contexts and at-root nodes a tree may hold. Whatever shape a tree has is kept by everything
that walks over it, as long as what is put into it has that shape too.
-/
namespace UtilityCss

/-- The contexts and at-root nodes that are allowed. A context around nothing may be allowed where
one around some nodes is not. -/
structure Shape where
  full : List (String × String) → Prop
  bare : List (String × String) → Prop
  hoist : Prop
  bare_of_full : ∀ {entries : List (String × String)}, full entries → bare entries

namespace Shape

def Allows (s : Shape) (entries : List (String × String)) (nodes : List Node) : Prop :=
  if nodes = [] then s.bare entries else s.full entries

def Uniform (s : Shape) : Prop :=
  ∀ entries, s.bare entries → s.full entries

variable {s : Shape} {entries : List (String × String)} {nodes nodes' : List Node}

theorem Allows.bare (h : s.Allows entries nodes) : s.bare entries := by
  unfold Allows at h
  split at h
  · exact h
  · exact s.bare_of_full h

/-- A context that was around nothing must stay so. -/
theorem Allows.replace (h : s.Allows entries nodes) (hnil : nodes = [] → nodes' = []) :
    s.Allows entries nodes' := by
  by_cases hnodes : nodes' = []
  · simpa [Allows, hnodes] using h.bare
  · have hfull : nodes ≠ [] := fun hn => hnodes (hnil hn)
    simpa [Allows, hnodes, hfull] using h

theorem Uniform.allows (hs : s.Uniform) (h : s.bare entries) : s.Allows entries nodes := by
  unfold Allows
  split
  · exact h
  · exact hs entries h

structure Le (s t : Shape) : Prop where
  full : ∀ entries, s.full entries → t.full entries
  bare : ∀ entries, s.bare entries → t.bare entries
  hoist : s.hoist → t.hoist

theorem Le.refl (s : Shape) : s.Le s :=
  ⟨fun _ h => h, fun _ h => h, fun h => h⟩

theorem Le.allows {t : Shape} (hst : s.Le t) (h : s.Allows entries nodes) :
    t.Allows entries nodes := by
  unfold Allows at h ⊢
  split
  next hnil => exact hst.bare _ (by simpa [hnil] using h)
  next hnil => exact hst.full _ (by simpa [hnil] using h)

end Shape

mutual

def Node.Has (s : Shape) : Node → Prop
  | .declaration .. => True
  | .comment _ => True
  | .rule _ nodes => AllHave s nodes
  | .atRule _ _ nodes => AllHave s nodes
  | .context entries nodes => s.Allows entries nodes ∧ AllHave s nodes
  | .atRoot nodes => s.hoist ∧ AllHave s nodes

def AllHave (s : Shape) : List Node → Prop
  | [] => True
  | n :: ns => n.Has s ∧ AllHave s ns

end

variable {s : Shape} {node : Node} {nodes nodes' : List Node}

theorem allHave_iff : AllHave s nodes ↔ ∀ n ∈ nodes, n.Has s := by
  induction nodes with
  | nil => simp [AllHave]
  | cons n ns ih => simp [AllHave, ih]

@[simp] theorem allHave_append : AllHave s (nodes ++ nodes') ↔
    AllHave s nodes ∧ AllHave s nodes' := by
  induction nodes with
  | nil => simp [AllHave]
  | cons n ns ih => simp [AllHave, ih, and_assoc]

@[simp] theorem allHave_singleton : AllHave s [node] ↔ node.Has s := by
  simp [AllHave]

theorem allHave_flatMap {α : Type} {f : α → List Node} {xs : List α}
    (h : ∀ x ∈ xs, AllHave s (f x)) : AllHave s (xs.flatMap f) := by
  rw [allHave_iff]
  intro n hn
  obtain ⟨x, hx, hn⟩ := List.mem_flatMap.1 hn
  exact allHave_iff.1 (h x hx) n hn

namespace Node

theorem Has.children (h : node.Has s) (hnodes : node.children? = some nodes) : AllHave s nodes := by
  cases node <;> simp only [children?, Option.some.injEq, reduceCtorEq] at hnodes <;> subst hnodes
  · exact h
  · exact h
  · exact h.2
  · exact h.2

theorem Has.withChildren (h : node.Has s) (hnodes : AllHave s nodes)
    (hnil : node.children? = some [] → nodes = []) : (node.withChildren nodes).Has s := by
  cases node with
  | declaration | comment => exact h
  | rule | atRule => exact hnodes
  | context entries old =>
    exact ⟨h.1.replace fun hold => hnil (by rw [hold]; rfl), hnodes⟩
  | atRoot old => exact ⟨h.1, hnodes⟩

theorem Has.setChildren (hs : s.Uniform) (h : node.Has s) (hnodes : AllHave s nodes) :
    (node.withChildren nodes).Has s := by
  cases node with
  | declaration | comment => exact h
  | rule | atRule => exact hnodes
  | context entries old => exact ⟨hs.allows h.1.bare, hnodes⟩
  | atRoot old => exact ⟨h.1, hnodes⟩

theorem has_ofAtName (name params : String) (h : AllHave s nodes) :
    (ofAtName name params nodes).Has s := h

theorem has_ofSelector (selector : String) (h : AllHave s nodes) :
    (ofSelector selector nodes).Has s := by
  unfold ofSelector
  split
  · exact h
  · split
    · exact has_ofAtName _ _ h
    · exact has_ofAtName _ _ h

end Node

mutual

theorem Node.Has.mono {t : Shape} (hst : s.Le t) : ∀ {node : Node}, node.Has s → node.Has t
  | .declaration .., _ => trivial
  | .comment _, _ => trivial
  | .rule _ _, h => AllHave.mono hst h
  | .atRule _ _ _, h => AllHave.mono hst h
  | .context _ _, h => ⟨hst.allows h.1, AllHave.mono hst h.2⟩
  | .atRoot _, h => ⟨hst.hoist h.1, AllHave.mono hst h.2⟩

theorem AllHave.mono {t : Shape} (hst : s.Le t) :
    ∀ {nodes : List Node}, AllHave s nodes → AllHave t nodes
  | [], _ => trivial
  | _ :: _, h => ⟨Node.Has.mono hst h.1, AllHave.mono hst h.2⟩

end

mutual

theorem Node.Has.markImportant : ∀ {node : Node}, node.Has s → node.markImportant.Has s
  | .declaration .., _ => trivial
  | .comment _, _ => trivial
  | .rule _ _, h => AllHave.markAllImportant h
  | .atRule _ _ _, h => AllHave.markAllImportant h
  | .context _ _, h => ⟨h.1.replace fun hnil => by rw [hnil]; rfl, AllHave.markAllImportant h.2⟩
  | .atRoot _, h => h

theorem AllHave.markAllImportant :
    ∀ {nodes : List Node}, AllHave s nodes → AllHave s (markAllImportant nodes)
  | [], _ => trivial
  | _ :: _, h => ⟨Node.Has.markImportant h.1, AllHave.markAllImportant h.2⟩

end

/-! ### Walks -/

section Walks

variable {σ : Type} {visit : Visitor σ} {t : Shape} {inv : σ → Prop}

/-- A visitor of trees of shape `s` that puts only trees of shape `t` in their place, and that keeps
an invariant of its state. -/
def Visitor.Keeps (s t : Shape) (inv : σ → Prop) (visit : Visitor σ) : Prop :=
  ∀ node scope state, node.Has s → inv state →
    inv (visit node scope state).2 ∧
      ∀ nodes, (visit node scope state).1 = .replace nodes ∨
        (visit node scope state).1 = .replaceAndStop nodes → AllHave t nodes

structure Walked.Keeps (t : Shape) (inv : σ → Prop) (walked : Walked σ) : Prop where
  nodes : AllHave t walked.nodes
  state : inv walked.state

theorem Walked.ofAnswer_keeps {inside : σ → Option (Walked σ)} {answer : Action × σ}
    (hnode : node.Has t) (hstate : inv answer.2)
    (hreplace : ∀ nodes, answer.1 = .replace nodes ∨ answer.1 = .replaceAndStop nodes →
      AllHave t nodes)
    (hinside : ∀ state walked, inv state → inside state = some walked →
      (node.withChildren walked.nodes).Has t ∧ inv walked.state) :
    (Walked.ofAnswer node inside answer).Keeps t inv := by
  obtain ⟨action, state⟩ := answer
  cases action with
  | skip | stop => exact ⟨allHave_singleton.2 hnode, hstate⟩
  | replace nodes => exact ⟨hreplace nodes (.inl rfl), hstate⟩
  | replaceAndStop nodes => exact ⟨hreplace nodes (.inr rfl), hstate⟩
  | descend =>
    simp only [Walked.ofAnswer]
    split
    · exact ⟨allHave_singleton.2 hnode, hstate⟩
    next walked hwalked =>
      obtain ⟨hnodes, hstate⟩ := hinside state walked hstate hwalked
      exact ⟨allHave_singleton.2 hnodes, hstate⟩

mutual

private theorem walkNode_keeps (hst : s.Le t) (hvisit : visit.Keeps s t inv) (scope : Scope) :
    ∀ {node : Node} {state : σ}, node.Has s → inv state →
      (walkNode visit scope state node).Keeps t inv
  | .context entries nodes, state, h, hstate => by
    have hwalked := walkFrom_keeps hst hvisit (scope.enter entries) h.2 hstate
    rw [walkNode]
    refine ⟨allHave_singleton.2 ⟨(hst.allows h.1).replace ?_, hwalked.nodes⟩, hwalked.state⟩
    rintro rfl
    rfl
  | .rule selector nodes, state, h, hstate => by
    obtain ⟨hnext, hreplace⟩ := hvisit (.rule selector nodes) scope state h hstate
    rw [walkNode]
    refine Walked.ofAnswer_keeps (h.mono hst) hnext hreplace fun state walked hstate heq => ?_
    cases heq
    have hwalked := walkFrom_keeps hst hvisit (scope.below (.rule selector nodes)) h hstate
    exact ⟨hwalked.nodes, hwalked.state⟩
  | .atRule name params nodes, state, h, hstate => by
    obtain ⟨hnext, hreplace⟩ := hvisit (.atRule name params nodes) scope state h hstate
    rw [walkNode]
    refine Walked.ofAnswer_keeps (h.mono hst) hnext hreplace fun state walked hstate heq => ?_
    cases heq
    have hwalked := walkFrom_keeps hst hvisit (scope.below (.atRule name params nodes)) h hstate
    exact ⟨hwalked.nodes, hwalked.state⟩
  | .atRoot nodes, state, h, hstate => by
    obtain ⟨hnext, hreplace⟩ := hvisit (.atRoot nodes) scope state h hstate
    rw [walkNode]
    refine Walked.ofAnswer_keeps (h.mono hst) hnext hreplace fun state walked hstate heq => ?_
    cases heq
    have hwalked := walkFrom_keeps hst hvisit (scope.below (.atRoot nodes)) h.2 hstate
    exact ⟨⟨hst.hoist h.1, hwalked.nodes⟩, hwalked.state⟩
  | .declaration property value important, state, h, hstate => by
    obtain ⟨hnext, hreplace⟩ := hvisit (.declaration property value important) scope state h hstate
    rw [walkNode]
    exact Walked.ofAnswer_keeps (h.mono hst) hnext hreplace fun state walked _ heq => nomatch heq
  | .comment text, state, h, hstate => by
    obtain ⟨hnext, hreplace⟩ := hvisit (.comment text) scope state h hstate
    rw [walkNode]
    exact Walked.ofAnswer_keeps (h.mono hst) hnext hreplace fun state walked _ heq => nomatch heq

theorem walkFrom_keeps (hst : s.Le t) (hvisit : visit.Keeps s t inv) (scope : Scope) :
    ∀ {nodes : List Node} {state : σ}, AllHave s nodes → inv state →
      (walkFrom visit scope state nodes).Keeps t inv
  | [], _, _, hstate => ⟨trivial, hstate⟩
  | n :: ns, state, h, hstate => by
    have hfirst := walkNode_keeps hst hvisit scope h.1 hstate
    rw [walkFrom]
    dsimp only
    split
    · exact ⟨allHave_append.2 ⟨hfirst.nodes, h.2.mono hst⟩, hfirst.state⟩
    · have hlater := walkFrom_keeps hst hvisit scope h.2 hfirst.state
      exact ⟨allHave_append.2 ⟨hfirst.nodes, hlater.nodes⟩, hlater.state⟩

end

private theorem walk_keeps (inv : σ → Prop) (hst : s.Le t)
    (hvisit : visit.Keeps s t inv) {state : σ} (h : AllHave s nodes) (hstate : inv state) :
    AllHave t (walk visit state nodes).1 ∧ inv (walk visit state nodes).2 := by
  have hwalked := walkFrom_keeps hst hvisit {} h hstate
  exact ⟨hwalked.nodes, hwalked.state⟩

theorem AllHave.replaceDirective {directive : Directive} {content : List Node}
    (h : AllHave s nodes) (hcontent : AllHave s content) :
    AllHave s (replaceDirective directive content nodes) := by
  refine (walk_keeps (fun _ => True) (Shape.Le.refl s) ?_ h trivial).1
  intro node scope state _ _
  refine ⟨trivial, fun nodes hnodes => ?_⟩
  dsimp only at hnodes
  split at hnodes
  · rcases hnodes with heq | heq
    · cases heq
      exact hcontent
    · cases heq
  · rcases hnodes with heq | heq <;> cases heq

end Walks

/-! ### Addresses -/

def Node.inside (f : List Node → List Node) (node : Node) : Node :=
  match node.children? with
  | some nodes => node.withChildren (f nodes)
  | none => node

theorem Node.inside_inside (f g : List Node → List Node) (node : Node) :
    (node.inside g).inside f = node.inside (f ∘ g) := by
  cases node <;> rfl

theorem Node.Has.inside {f : List Node → List Node} (h : node.Has s)
    (hf : ∀ nodes, node.children? = some nodes → AllHave s (f nodes))
    (hnil : f [] = []) : (node.inside f).Has s := by
  unfold Node.inside
  split
  next nodes hnodes =>
    refine h.withChildren (hf nodes hnodes) fun hempty => ?_
    rw [hnodes] at hempty
    cases hempty
    exact hnil
  next => exact h

theorem forall_mem_modify {P : Node → Prop} {f : Node → Node} {i : Nat} (h : ∀ n ∈ nodes, P n)
    (hf : ∀ node, nodes[i]? = some node → P (f node)) : ∀ n ∈ nodes.modify i f, P n := by
  intro node hnode
  obtain ⟨j, hj⟩ := List.mem_iff_getElem?.1 hnode
  rw [List.getElem?_modify] at hj
  obtain ⟨old, hold, rfl⟩ := Option.map_eq_some_iff.1 hj
  split
  next hij => exact hf old (hij ▸ hold)
  next => exact h old (List.mem_of_getElem? hold)

theorem AllHave.modifyAt {f : Node → Node} {i : Nat} (h : AllHave s nodes)
    (hf : ∀ node, nodes[i]? = some node → (f node).Has s) : AllHave s (nodes.modify i f) :=
  allHave_iff.2 (forall_mem_modify (allHave_iff.1 h) hf)

namespace Address

variable {address : Address}

theorem modify_cons_cons (f : Node → Node) (i j : Nat) (rest : Address) (nodes : List Node) :
    modify f (i :: j :: rest) nodes = nodes.modify i (Node.inside (modify f (j :: rest))) := rfl

theorem modify_nil (f : Node → Node) (address : Address) : address.modify f [] = [] := by
  match address with
  | [] => rfl
  | [_] | _ :: _ :: _ => simp [modify]

theorem has_of_get? (h : AllHave s nodes) (hget : address.get? nodes = some node) : node.Has s := by
  fun_induction get? address nodes with
  | case1 => cases hget
  | case2 nodes i => exact allHave_iff.1 h _ (List.mem_of_getElem? hget)
  | case3 nodes i j rest ih =>
    obtain ⟨parent, hparent, hget⟩ := Option.bind_eq_some_iff.1 hget
    obtain ⟨children, hchildren, hget⟩ := Option.bind_eq_some_iff.1 hget
    have hhas := allHave_iff.1 h _ (List.mem_of_getElem? hparent)
    exact ih children (hhas.children hchildren) hget

theorem modify_modify (f g : Node → Node) (address : Address) (nodes : List Node) :
    address.modify f (address.modify g nodes) = address.modify (f ∘ g) nodes := by
  match address with
  | [] => rfl
  | [i] => exact List.modify_modify_eq ..
  | i :: j :: rest =>
    simp only [modify_cons_cons, List.modify_modify_eq]
    congr 1
    funext node
    rw [Function.comp_apply, Node.inside_inside]
    congr 1
    funext children
    exact modify_modify f g (j :: rest) children

theorem modify_eq_self {f : Node → Node} {address : Address} {nodes : List Node}
    (hf : ∀ node, address.get? nodes = some node → f node = node) :
    address.modify f nodes = nodes := by
  have hlist : ∀ {i : Nat} {g : Node → Node} {nodes : List Node},
      (∀ node, nodes[i]? = some node → g node = node) → nodes.modify i g = nodes := by
    intro i g nodes hg
    refine List.ext_getElem? fun j => ?_
    rw [List.getElem?_modify]
    cases hj : nodes[j]? with
    | none => rfl
    | some node =>
      by_cases hij : i = j
      · subst j
        simp [hg node hj]
      · simp [hij]
  match address with
  | [] => rfl
  | [i] => exact hlist hf
  | i :: j :: rest =>
    rw [modify_cons_cons]
    refine hlist fun node hnode => ?_
    unfold Node.inside
    split
    next children hchildren =>
      have hinside : modify f (j :: rest) children = children := by
        refine modify_eq_self fun target htarget => hf target ?_
        simp [get?, hnode, hchildren, htarget]
      rw [hinside]
      cases node <;> simp [Node.children?] at hchildren <;> simp [Node.withChildren, hchildren]
    next => rfl

theorem has_modify {f : Node → Node} {address : Address} {nodes : List Node} (h : AllHave s nodes)
    (hf : ∀ node, address.get? nodes = some node → (f node).Has s) :
    AllHave s (address.modify f nodes) := by
  match address with
  | [] => exact h
  | [i] => exact h.modifyAt hf
  | i :: j :: rest =>
    rw [modify_cons_cons]
    refine h.modifyAt fun node hnode => ?_
    have hhas := allHave_iff.1 h _ (List.mem_of_getElem? hnode)
    refine hhas.inside (fun children hchildren => ?_) (modify_nil ..)
    refine has_modify (hhas.children hchildren) fun target htarget => hf target ?_
    simp [get?, hnode, hchildren, htarget]

end Address

theorem Address.get?_of_find? {p : Node → Bool} {address : Address}
    (h : Address.find? p nodes = some address) :
    ∃ target, address.get? nodes = some target ∧ p target = true := by
  rw [Address.find?, findAll?_eq p 0] at h
  obtain ⟨o, ho, rfl⟩ := Option.map_eq_some_iff.1 h
  have hget := get?_of_mem_occurrencesFrom [] (List.mem_of_find?_eq_some ho)
  exact ⟨o.node, hget, by simpa using List.find?_some ho⟩

end UtilityCss
