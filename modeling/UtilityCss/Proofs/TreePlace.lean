import UtilityCss.Proofs.MediaOptions

/-!
Places in a tree. A place is what stands around some nodes of a document: the frames around them
from the root down, and at each level what stands before and behind. Filling it gives the document.
A pass over a tree that keeps frames leads from one place to another.
-/
namespace UtilityCss

mutual

def Node.heads : Node → List AtHead
  | .atRule name params nodes => ⟨name, params⟩ :: allHeads nodes
  | .rule _ nodes => allHeads nodes
  | .context _ nodes => allHeads nodes
  | .atRoot nodes => allHeads nodes
  | .declaration .. => []
  | .comment _ => []

def allHeads : List Node → List AtHead
  | [] => []
  | n :: ns => n.heads ++ allHeads ns

end

theorem allHeads_append (ns ms : List Node) : allHeads (ns ++ ms) = allHeads ns ++ allHeads ms := by
  induction ns with
  | nil => rfl
  | cons n ns ih => rw [List.cons_append, allHeads, allHeads, ih, List.append_assoc]

theorem mem_allHeads {h : AtHead} {nodes : List Node} :
    h ∈ allHeads nodes ↔ ∃ n ∈ nodes, h ∈ n.heads := by
  induction nodes with
  | nil => simp [allHeads]
  | cons n ns ih => simp [allHeads, ih]

mutual

theorem Node.exists_spot {h : AtHead} : ∀ {node : Node} (outer : List AtHead), h ∈ node.heads →
    ∃ s ∈ node.spots outer, s.head = h ∧ ∀ o ∈ outer, o ∈ s.outer
  | .atRule name params nodes, outer, hmem => by
    rcases List.mem_cons.1 hmem with rfl | hmem
    · exact ⟨⟨⟨name, params⟩, outer⟩, List.mem_cons_self, rfl, fun _ ho => ho⟩
    · obtain ⟨s, hs, hhead, houter⟩ := exists_spot (⟨name, params⟩ :: outer) hmem
      exact ⟨s, List.mem_cons_of_mem _ hs, hhead, fun o ho => houter o (List.mem_cons_of_mem _ ho)⟩
  | .rule _ _, outer, hmem => exists_spot outer hmem
  | .context _ _, outer, hmem => exists_spot outer hmem
  | .atRoot _, outer, hmem => exists_spot outer hmem
  | .declaration .., _, hmem => by simp [Node.heads] at hmem
  | .comment _, _, hmem => by simp [Node.heads] at hmem

theorem exists_spot {h : AtHead} : ∀ {nodes : List Node} (outer : List AtHead), h ∈ allHeads nodes →
    ∃ s ∈ allSpots outer nodes, s.head = h ∧ ∀ o ∈ outer, o ∈ s.outer
  | [], _, hmem => by simp [allHeads] at hmem
  | n :: ns, outer, hmem => by
    rcases List.mem_append.1 hmem with hmem | hmem
    · obtain ⟨s, hs, h⟩ := Node.exists_spot outer hmem
      exact ⟨s, List.mem_append_left _ hs, h⟩
    · obtain ⟨s, hs, h⟩ := exists_spot outer hmem
      exact ⟨s, List.mem_append_right _ hs, h⟩

end

inductive Frame where
  | rule (selector : String)
  | atRule (name params : String)
  | context (entries : List (String × String))
  | atRoot

namespace Frame

def around (nodes : List Node) : Frame → Node
  | rule selector => .rule selector nodes
  | atRule name params => .atRule name params nodes
  | context entries => .context entries nodes
  | atRoot => .atRoot nodes

def heads : Frame → List AtHead
  | atRule name params => [⟨name, params⟩]
  | _ => []

def Has (s : Shape) : Frame → Prop
  | context entries => s.full entries
  | atRoot => s.hoist
  | _ => True

variable (f : Frame) (nodes : List Node)

@[simp] theorem children?_around : (f.around nodes).children? = some nodes := by
  cases f <;> rfl

@[simp] theorem withChildren_around (inner : List Node) :
    (f.around nodes).withChildren inner = f.around inner := by
  cases f <;> rfl

theorem spots_around (outer : List AtHead) :
    (f.around nodes).spots outer =
      f.heads.map (⟨·, outer⟩) ++ allSpots (f.heads ++ outer) nodes := by
  cases f <;> rfl

end Frame

inductive Place where
  | here (before after : List Node)
  | inside (before : List Node) (frame : Frame) (inner : Place) (after : List Node)

namespace Place

def fill (content : List Node) : Place → List Node
  | here before after => before ++ (content ++ after)
  | inside before frame inner after => before ++ frame.around (inner.fill content) :: after

def frames : Place → List Frame
  | here _ _ => []
  | inside _ frame inner _ => frame :: inner.frames

def headsBefore : Place → List AtHead
  | here before _ => allHeads before
  | inside before frame inner _ => allHeads before ++ (frame.heads ++ inner.headsBefore)

def outer (around : List AtHead) : Place → List AtHead
  | here _ _ => around
  | inside _ frame inner _ => inner.outer (frame.heads ++ around)

def address : Place → Address
  | here before _ => [before.length]
  | inside before _ inner _ => before.length :: inner.address

def Has (s : Shape) : Place → Prop
  | here before after => AllHave s before ∧ AllHave s after
  | inside before frame inner after =>
    AllHave s before ∧ frame.Has s ∧ inner.Has s ∧ AllHave s after

def widen (before after : List Node) : Place → Place
  | here first last => here (before ++ first) (last ++ after)
  | inside first frame inner last => inside (before ++ first) frame inner (last ++ after)

theorem fill_widen (before after content : List Node) (p : Place) :
    (p.widen before after).fill content = before ++ p.fill content ++ after := by
  cases p <;> simp [widen, fill]

theorem headsBefore_widen (before after : List Node) (p : Place) :
    (p.widen before after).headsBefore = allHeads before ++ p.headsBefore := by
  cases p <;> simp [widen, headsBefore, allHeads_append]

theorem Has.of_fill {s : Shape} {content : List Node} {p : Place} (h : AllHave s (p.fill content))
    (hs : s.Uniform) : p.Has s := by
  induction p with
  | here before after =>
    rw [fill, allHave_append, allHave_append] at h
    exact ⟨h.1, h.2.2⟩
  | inside before frame inner after ih =>
    rw [fill, allHave_append] at h
    obtain ⟨hbefore, hframe, hafter⟩ := h
    have hinner := ih (hframe.children (frame.children?_around _))
    refine ⟨hbefore, ?_, hinner, hafter⟩
    cases frame with
    | rule | atRule => trivial
    | context entries => exact hs entries hframe.1.bare
    | atRoot => exact hframe.1

/-! ### The at-rules around a place -/

theorem mem_allSpots_fill (head : AtHead) (body : List Node) (p : Place) (around : List AtHead) :
    ⟨head, p.outer around⟩ ∈ allSpots around (p.fill [.atRule head.name head.params body]) := by
  induction p generalizing around with
  | here before after =>
    rw [fill, allSpots_append, allSpots_append, allSpots_singleton]
    exact List.mem_append_right _ (List.mem_append_left _ List.mem_cons_self)
  | inside before frame inner after ih =>
    rw [fill, allSpots_append, allSpots, Frame.spots_around]
    have hinner := ih (frame.heads ++ around)
    exact List.mem_append_right _ (List.mem_append_left _ (List.mem_append_right _ hinner))

private theorem subset_outer (p : Place) (around : List AtHead) :
    ∀ h ∈ around, h ∈ p.outer around := by
  induction p generalizing around with
  | here before after => exact fun _ h => h
  | inside before frame inner after ih =>
    exact fun h hh => ih _ h (List.mem_append_right _ hh)

theorem heads_subset_outer {frame : Frame} {p : Place} (hframe : frame ∈ p.frames)
    (around : List AtHead) : ∀ h ∈ frame.heads, h ∈ p.outer around := by
  induction p generalizing around with
  | here before after => cases hframe
  | inside before first inner after ih =>
    rcases List.mem_cons.1 hframe with rfl | hframe
    · exact fun h hh => inner.subset_outer _ h (List.mem_append_left _ hh)
    · exact ih hframe _

/-! ### The first at-rule of a kind -/

/-- An at-rule of a kind stands at the place, and none of that kind begins before it. -/
structure HasFirst (kind : AtHead → Bool) (nodes : List Node) (p : Place) (head : AtHead)
    (body : List Node) : Prop where
  nodes_eq : nodes = p.fill [.atRule head.name head.params body]
  isKind : kind head = true
  first : ∀ h ∈ p.headsBefore, kind h = false

variable {kind : AtHead → Bool} {nodes : List Node} {p : Place} {head : AtHead} {body : List Node}

theorem HasFirst.widen (h : HasFirst kind nodes p head body) (before : List Node)
    (hbefore : ∀ h ∈ allHeads before, kind h = false) (after : List Node) :
    HasFirst kind (before ++ nodes ++ after) (p.widen before after) head body where
  nodes_eq := by rw [fill_widen, ← h.nodes_eq]
  isKind := h.isKind
  first := by
    rw [headsBefore_widen]
    exact List.forall_mem_append.2 ⟨hbefore, h.first⟩

theorem HasFirst.around (h : HasFirst kind nodes p head body) (frame : Frame)
    (hframe : ∀ h ∈ frame.heads, kind h = false) :
    HasFirst kind [frame.around nodes] (inside [] frame p []) head body where
  nodes_eq := by rw [fill, List.nil_append, ← h.nodes_eq]
  isKind := h.isKind
  first := by
    rw [headsBefore, allHeads, List.nil_append]
    exact List.forall_mem_append.2 ⟨hframe, h.first⟩

end Place

section First

variable {kind : AtHead → Bool}

mutual

theorem Node.exists_first : ∀ {node : Node}, (∃ h ∈ node.heads, kind h = true) →
    ∃ p head body, Place.HasFirst kind [node] p head body
  | .atRule name params nodes, h => by
    by_cases hkind : kind ⟨name, params⟩ = true
    · exact ⟨.here [] [], ⟨name, params⟩, nodes, rfl, hkind, by simp [Place.headsBefore, allHeads]⟩
    · obtain ⟨h, hmem, hh⟩ := h
      have hmem : h ∈ allHeads nodes := by
        rcases List.mem_cons.1 hmem with rfl | hmem
        · exact absurd hh hkind
        · exact hmem
      obtain ⟨p, head, body, hfirst⟩ := exists_first ⟨h, hmem, hh⟩
      exact ⟨_, head, body,
        hfirst.around (.atRule name params) (by simpa [Frame.heads] using hkind)⟩
  | .rule selector nodes, h => by
    obtain ⟨p, head, body, hfirst⟩ := exists_first h
    exact ⟨_, head, body, hfirst.around (.rule selector) (by simp [Frame.heads])⟩
  | .context entries nodes, h => by
    obtain ⟨p, head, body, hfirst⟩ := exists_first h
    exact ⟨_, head, body, hfirst.around (.context entries) (by simp [Frame.heads])⟩
  | .atRoot nodes, h => by
    obtain ⟨p, head, body, hfirst⟩ := exists_first h
    exact ⟨_, head, body, hfirst.around .atRoot (by simp [Frame.heads])⟩
  | .declaration .., h => by simp [Node.heads] at h
  | .comment _, h => by simp [Node.heads] at h

theorem exists_first : ∀ {nodes : List Node}, (∃ h ∈ allHeads nodes, kind h = true) →
    ∃ p head body, Place.HasFirst kind nodes p head body
  | [], h => by simp [allHeads] at h
  | n :: ns, h => by
    by_cases hn : ∃ h ∈ n.heads, kind h = true
    · obtain ⟨p, head, body, hfirst⟩ := Node.exists_first hn
      exact ⟨_, head, body, hfirst.widen [] (by simp [allHeads]) ns⟩
    · have hbefore : ∀ h ∈ allHeads [n], kind h = false := by
        simpa [allHeads] using hn
      obtain ⟨h, hmem, hh⟩ := h
      have hmem : h ∈ allHeads ns := by
        rcases List.mem_append.1 hmem with hmem | hmem
        · exact absurd ⟨h, hmem, hh⟩ hn
        · exact hmem
      obtain ⟨p, head, body, hfirst⟩ := exists_first ⟨h, hmem, hh⟩
      have hwiden := hfirst.widen [n] hbefore []
      rw [List.append_nil] at hwiden
      exact ⟨_, head, body, hwiden⟩

end

end First

/-! ### From place to place -/

namespace Place

/-- The second place is what a pass makes of the first: level by level, the nodes before and behind
become those before and behind, and the frames become frames. -/
inductive Follows (rel : List Node → List Node → Prop) (frames : Frame → Frame → Prop) :
    Place → Place → Prop
  | here {before before' after after' : List Node} : rel before before' → rel after after' →
      Follows rel frames (here before after) (here before' after')
  | inside {before before' after after' : List Node} {frame frame' : Frame} {inner inner' : Place} :
      rel before before' → frames frame frame' → Follows rel frames inner inner' →
        rel after after' →
      Follows rel frames (inside before frame inner after) (inside before' frame' inner' after')

theorem Follows.comp {rel rel' : List Node → List Node → Prop}
    {frames frames' : Frame → Frame → Prop}
    {p q : Place} (h : p.Follows rel frames q) {s : Place} (h' : q.Follows rel' frames' s) :
    p.Follows (Relation.Comp rel rel') (Relation.Comp frames frames') s := by
  induction h generalizing s with
  | here hbefore hafter =>
    cases h' with
    | here hbefore' hafter' => exact .here ⟨_, hbefore, hbefore'⟩ ⟨_, hafter, hafter'⟩
  | inside hbefore hframe _ hafter ih =>
    cases h' with
    | inside hbefore' hframe' hinner' hafter' =>
      exact .inside ⟨_, hbefore, hbefore'⟩ ⟨_, hframe, hframe'⟩ (ih hinner') ⟨_, hafter, hafter'⟩

end Place

/-! ### Placeholders -/

mutual

def Node.sites (key : String) : Node → List (List Node)
  | .context entries nodes =>
    (if (entries.lookup key).isSome then [nodes] else []) ++ allSites key nodes
  | .rule _ nodes => allSites key nodes
  | .atRule _ _ nodes => allSites key nodes
  | .atRoot nodes => allSites key nodes
  | .declaration .. => []
  | .comment _ => []

def allSites (key : String) : List Node → List (List Node)
  | [] => []
  | n :: ns => n.sites key ++ allSites key ns

end

def Shape.without (key : String) : Shape where
  full entries := entries.lookup key = none
  bare entries := entries.lookup key = none
  hoist := True
  bare_of_full h := h

section Sites

variable {key : String} {nodes : List Node} {p : Place}

theorem Shape.without_uniform : (Shape.without key).Uniform :=
  fun _ h => h

theorem allSites_append (ns ms : List Node) :
    allSites key (ns ++ ms) = allSites key ns ++ allSites key ms := by
  induction ns with
  | nil => rfl
  | cons n ns ih => rw [List.cons_append, allSites, allSites, ih, List.append_assoc]

mutual

theorem Node.Has.sites : ∀ {node : Node}, node.Has (.without key) → node.sites key = []
  | .context entries nodes, h => by
    have hentries : entries.lookup key = none := h.1.bare
    rw [Node.sites, hentries, AllHave.allSites h.2]
    rfl
  | .rule _ _, h => AllHave.allSites h
  | .atRule _ _ _, h => AllHave.allSites h
  | .atRoot _, h => AllHave.allSites h.2
  | .declaration .., _ => rfl
  | .comment _, _ => rfl

theorem AllHave.allSites : ∀ {nodes : List Node}, AllHave (.without key) nodes →
    allSites key nodes = []
  | [], _ => rfl
  | n :: ns, h => by
    rw [UtilityCss.allSites, Node.Has.sites h.1, AllHave.allSites h.2, List.append_nil]

end

theorem Frame.Has.sites_around {frame : Frame} (h : frame.Has (.without key)) (nodes : List Node) :
    (frame.around nodes).sites key = allSites key nodes := by
  cases frame with
  | context entries =>
    have hentries : entries.lookup key = none := h
    rw [Frame.around, Node.sites, hentries]
    rfl
  | rule | atRule | atRoot => rfl

theorem Place.Has.allSites_fill (h : p.Has (.without key)) (content : List Node) :
    allSites key (p.fill content) = allSites key content := by
  induction p with
  | here before after =>
    rw [Place.fill, allSites_append, allSites_append, h.1.allSites, h.2.allSites, List.nil_append,
      List.append_nil]
  | inside before frame inner after ih =>
    obtain ⟨hbefore, hframe, hinner, hafter⟩ := h
    rw [Place.fill, allSites_append, allSites, hbefore.allSites, hframe.sites_around, ih hinner,
      hafter.allSites, List.nil_append, List.append_nil]

/-! ### Finding a placeholder -/

theorem AllHave.find?_eq_none (h : AllHave (.without key) nodes) :
    Address.find? (Node.isPlaceholder key) nodes = none := by
  by_contra hfound
  obtain ⟨address, haddress⟩ := Option.ne_none_iff_exists'.1 hfound
  obtain ⟨target, hget, hplaceholder⟩ := Address.get?_of_find? haddress
  have htarget := Address.has_of_get? h hget
  cases target with
  | context entries inner =>
    have hentries : entries.lookup key = none := htarget.1.bare
    simp [Node.isPlaceholder, hentries] at hplaceholder
  | _ => simp [Node.isPlaceholder] at hplaceholder

theorem findAll?_append {p : Node → Bool} {ns : List Node}
    (h : ∀ n ∈ ns, n.find? p = none) (i : Nat)
    (ms : List Node) : findAll? p i (ns ++ ms) = findAll? p (i + ns.length) ms := by
  induction ns generalizing i with
  | nil => rfl
  | cons n ns ih =>
    rw [List.forall_mem_cons] at h
    rw [List.cons_append, findAll?, h.1]
    dsimp only
    rw [ih h.2, List.length_cons, Nat.add_assoc, Nat.add_comm 1]

theorem Node.Has.find?_eq_none {node : Node} (h : node.Has (.without key)) :
    node.find? (Node.isPlaceholder key) = none := by
  have hfind := (allHave_singleton.2 h).find?_eq_none
  rw [Address.find?, findAll?] at hfind
  cases hnode : node.find? (Node.isPlaceholder key) with
  | none => rfl
  | some address => simp [hnode] at hfind

theorem Frame.Has.find?_around {frame : Frame} (h : frame.Has (.without key)) (nodes : List Node) :
    (frame.around nodes).find? (Node.isPlaceholder key) =
      findAll? (Node.isPlaceholder key) 0 nodes := by
  have hplain : (frame.around nodes).isPlaceholder key = false := by
    cases frame with
    | context entries =>
      have hentries : entries.lookup key = none := h
      simp [Frame.around, Node.isPlaceholder, hentries]
    | rule | atRule | atRoot => rfl
  rw [Node.find?.eq_def, hplain]
  cases frame <;> rfl

theorem Place.Has.find?_fill (h : p.Has (.without key)) {node : Node}
    (hnode : node.isPlaceholder key = true) :
    Address.find? (Node.isPlaceholder key) (p.fill [node]) = some p.address := by
  rw [Address.find?]
  induction p with
  | here before after =>
    have hbefore := fun n hn => (allHave_iff.1 h.1 n hn).find?_eq_none
    rw [Place.fill, findAll?_append hbefore, List.singleton_append, findAll?, Node.find?.eq_def,
      if_pos hnode]
    simp [Place.address]
  | inside before frame inner after ih =>
    obtain ⟨hbefore, hframe, hinner, hafter⟩ := h
    have hbefore := fun n hn => (allHave_iff.1 hbefore n hn).find?_eq_none
    rw [Place.fill, findAll?_append hbefore, findAll?, hframe.find?_around, ih hinner]
    simp [Place.address]

end Sites

namespace Place

private theorem address_ne_nil (p : Place) : p.address ≠ [] := by
  cases p <;> simp [address]

theorem modify_behind (f : Node → Node) (before after : List Node) (node : Node) :
    (before ++ node :: after).modify before.length f = before ++ f node :: after :=
  List.modifyTailIdx_add (List.modifyHead f) 0 before (node :: after)

theorem modify_fill (f : Node → Node) (node : Node) (p : Place) :
    p.address.modify f (p.fill [node]) = p.fill [f node] := by
  induction p with
  | here before after =>
    exact modify_behind f before after node
  | inside before frame inner after ih =>
    obtain ⟨j, rest, hrest⟩ := List.exists_cons_of_ne_nil inner.address_ne_nil
    rw [hrest] at ih
    rw [address, hrest, fill, fill, Address.modify_cons_cons]
    have hinside : Node.inside (Address.modify f (j :: rest)) (frame.around (inner.fill [node])) =
        frame.around (inner.fill [f node]) := by
      rw [Node.inside, Frame.children?_around, ← ih]
      exact frame.withChildren_around _ _
    rw [modify_behind, hinside]

end Place

end UtilityCss
