import UtilityCss.Proofs.HoistLevels

/-!
The visits of a walk, each with the place of the node and the answer. A walk goes on inside of a
node, or the answer tells all that becomes of it, and it has ended if one of the answers ends it.
-/
namespace UtilityCss

namespace Action

def ends : Action → Bool
  | .stop | .replaceAndStop _ => true
  | .descend | .skip | .replace _ => false

def hides : Action → Bool
  | .skip | .replace _ | .replaceAndStop _ => true
  | .descend | .stop => false

def content? : Action → Option (List Node)
  | .replace nodes | .replaceAndStop nodes => some nodes
  | .descend | .skip | .stop => none

end Action

structure Visit extends Occurrence where
  action : Action

namespace Visit

def under (i : Nat) (v : Visit) : Visit :=
  { v with address := i :: v.address }

def record (v : Visit) : Node × Nat × Action :=
  (v.node, v.depth, v.action)

def hides (v : Visit) (a : Address) : Bool :=
  v.action.hides && decide (v.address <+: a ∧ v.address ≠ a)

end Visit

/-- Whether a node is to be visited: it is no context, and not inside of a skipped or replaced node.
-/
def Occurrence.isOpen (visits : List Visit) (o : Occurrence) : Bool :=
  !o.node.isContext && visits.all fun v => !v.hides o.address

def replacement? (visits : List Visit) (a : Address) : Option (List Node) :=
  visits.findSome? fun v => if v.address = a then v.action.content? else none

def AllFrom (i : Nat) (visits : List Visit) : Prop :=
  ∀ v ∈ visits, ∃ j rest, v.address = j :: rest ∧ i ≤ j

theorem allFrom_nil (i : Nat) : AllFrom i [] := by
  simp [AllFrom]

section Places

variable {i : Nat} {first later : List Visit}

theorem isOpen_under (h : AllFrom (i + 1) later) (o : Occurrence) :
    (o.under i).isOpen (first.map (Visit.under i) ++ later) = o.isOpen first := by
  have hlater : later.all (fun v => !v.hides (i :: o.address)) = true := by
    rw [List.all_eq_true]
    intro v hv
    obtain ⟨j, rest, haddress, hj⟩ := h v hv
    have hne : j ≠ i := by omega
    simp [Visit.hides, haddress, hne]
  have hfirst : first.all ((fun v => !v.hides (i :: o.address)) ∘ Visit.under i) =
      first.all fun v => !v.hides o.address := by
    congr 1
    funext v
    simp [Visit.hides, Visit.under]
  simp only [Occurrence.isOpen, Occurrence.under, List.all_append, List.all_map, hlater, hfirst,
    Bool.and_true]

theorem isOpen_behind {o : Occurrence} {j : Nat} {rest : Address} (haddress : o.address = j :: rest)
    (hj : i + 1 ≤ j) : o.isOpen (first.map (Visit.under i) ++ later) = o.isOpen later := by
  have hfirst : (first.map (Visit.under i)).all (fun v => !v.hides o.address) = true := by
    rw [List.all_map, List.all_eq_true]
    intro v _
    have hne : i ≠ j := by omega
    simp [Visit.hides, Visit.under, haddress, hne]
  rw [Occurrence.isOpen, List.all_append, hfirst, Bool.true_and, Occurrence.isOpen]

theorem replacement?_under (h : AllFrom (i + 1) later) (a : Address) :
    replacement? (first.map (Visit.under i) ++ later) (i :: a) = replacement? first a := by
  have hlater : replacement? later (i :: a) = none := by
    rw [replacement?, List.findSome?_eq_none_iff]
    intro v hv
    obtain ⟨j, rest, haddress, hj⟩ := h v hv
    have hne : j ≠ i := by omega
    simp [haddress, hne]
  have hfirst : replacement? (first.map (Visit.under i)) (i :: a) = replacement? first a := by
    rw [replacement?, List.findSome?_map, replacement?]
    congr 1
    funext v
    simp [Visit.under]
  unfold replacement? at hlater hfirst ⊢
  rw [List.findSome?_append, hlater, hfirst, Option.or_none]

theorem replacement?_behind {j : Nat} {rest : Address} (hj : i + 1 ≤ j) :
    replacement? (first.map (Visit.under i) ++ later) (j :: rest) =
      replacement? later (j :: rest) := by
  have hfirst : replacement? (first.map (Visit.under i)) (j :: rest) = none := by
    rw [replacement?, List.findSome?_eq_none_iff]
    intro v hv
    obtain ⟨v, -, rfl⟩ := List.mem_map.1 hv
    have hne : i ≠ j := by omega
    simp [Visit.under, hne]
  unfold replacement? at hfirst ⊢
  rw [List.findSome?_append, hfirst, Option.none_or]

end Places

/-! ### The visits of a walk -/

section Walks

variable {σ : Type}

def Visit.ofAnswer (node : Node) (depth : Nat) (inside : σ → List Visit) : Action × σ → List Visit
  | (.descend, s) => ⟨⟨[], node, depth⟩, .descend⟩ :: inside s
  | (action, _) => [⟨⟨[], node, depth⟩, action⟩]

mutual

def Node.visits (visit : Visitor σ) (scope : Scope) (s : σ) (node : Node) : List Visit :=
  match node with
  | .context entries nodes => visitsFrom visit (scope.enter entries) 0 s nodes
  | .rule selector nodes =>
    Visit.ofAnswer (.rule selector nodes) scope.depth
      (fun s => visitsFrom visit (scope.below (.rule selector nodes)) 0 s nodes)
      (visit (.rule selector nodes) scope s)
  | .atRule name params nodes =>
    Visit.ofAnswer (.atRule name params nodes) scope.depth
      (fun s => visitsFrom visit (scope.below (.atRule name params nodes)) 0 s nodes)
      (visit (.atRule name params nodes) scope s)
  | .atRoot nodes =>
    Visit.ofAnswer (.atRoot nodes) scope.depth
      (fun s => visitsFrom visit (scope.below (.atRoot nodes)) 0 s nodes)
      (visit (.atRoot nodes) scope s)
  | .declaration property value important =>
    Visit.ofAnswer (.declaration property value important) scope.depth (fun _ => [])
      (visit (.declaration property value important) scope s)
  | .comment text =>
    Visit.ofAnswer (.comment text) scope.depth (fun _ => []) (visit (.comment text) scope s)

def visitsFrom (visit : Visitor σ) (scope : Scope) (i : Nat) (s : σ)
    (nodes : List Node) : List Visit :=
  match nodes with
  | [] => []
  | n :: ns =>
    let first := walkNode visit scope s n
    (n.visits visit scope s).map (Visit.under i) ++
      if first.stopped then [] else visitsFrom visit scope (i + 1) first.state ns

end

def Scope.inside (scope : Scope) (node : Node) : Scope :=
  match node with
  | .context entries _ => scope.enter entries
  | node => scope.below node

theorem Scope.depth_inside (scope : Scope) (node : Node) :
    (scope.inside node).depth = node.depthInside scope.depth := by
  cases node <;> rfl

variable {visit : Visitor σ} {scope : Scope} {s t : σ} {node : Node} {action : Action}

def walkInside (visit : Visitor σ) (scope : Scope) (s : σ) (node : Node) : Walked σ :=
  let inner := walkFrom visit (scope.inside node) s node.children
  ⟨[node.withChildren inner.nodes], inner.state, inner.stopped⟩

theorem walkNode_context (visit : Visitor σ) (scope : Scope) (s : σ) (h : node.isContext = true) :
    walkNode visit scope s node = walkInside visit scope s node ∧
      node.visits visit scope s = visitsFrom visit (scope.inside node) 0 s node.children := by
  cases node with
  | context => exact ⟨rfl, rfl⟩
  | _ => cases h

theorem walkNode_descend (h : node.isContext = false)
    (hvisit : visit node scope s = (.descend, t)) :
    walkNode visit scope s node = walkInside visit scope t node ∧
      node.visits visit scope s =
        ⟨⟨[], node, scope.depth⟩, .descend⟩ ::
          visitsFrom visit (scope.inside node) 0 t node.children := by
  cases node with
  | context => cases h
  | _ =>
    rw [walkNode, Node.visits, hvisit]
    exact ⟨rfl, rfl⟩

theorem walkNode_answer (h : node.isContext = false) (hvisit : visit node scope s = (action, t))
    (hne : action ≠ .descend) :
    walkNode visit scope s node = ⟨action.content?.getD [node], t, action.ends⟩ ∧
      node.visits visit scope s = [⟨⟨[], node, scope.depth⟩, action⟩] := by
  cases node with
  | context => cases h
  | _ =>
    rw [walkNode, Node.visits, hvisit]
    cases action <;> first | exact ⟨rfl, rfl⟩ | contradiction

def Node.entry (depth : Nat) (node : Node) : List Visit :=
  if node.isContext then [] else [⟨⟨[], node, depth⟩, .descend⟩]

theorem Node.action_of_mem_entry {depth : Nat} {node : Node} {v : Visit}
    (h : v ∈ node.entry depth) : v.action = .descend := by
  unfold Node.entry at h
  split at h
  · simp at h
  · rw [List.mem_singleton.1 h]

theorem walkNode_cases (visit : Visitor σ) (scope : Scope) (s : σ) (node : Node) :
    (∃ t, walkNode visit scope s node = walkInside visit scope t node ∧
      node.visits visit scope s =
        node.entry scope.depth ++ visitsFrom visit (scope.inside node) 0 t node.children) ∨
    node.isContext = false ∧ ∃ action t, action ≠ .descend ∧
      walkNode visit scope s node = ⟨action.content?.getD [node], t, action.ends⟩ ∧
      node.visits visit scope s = [⟨⟨[], node, scope.depth⟩, action⟩] := by
  cases hcontext : node.isContext with
  | true =>
    refine .inl ⟨s, ?_⟩
    rw [Node.entry, if_pos hcontext]
    exact walkNode_context visit scope s hcontext
  | false =>
    obtain ⟨⟨action, t⟩, hvisit⟩ : ∃ answer, visit node scope s = answer := ⟨_, rfl⟩
    by_cases hdescend : action = .descend
    · subst hdescend
      refine .inl ⟨t, ?_⟩
      rw [Node.entry, if_neg (by simp [hcontext])]
      exact walkNode_descend hcontext hvisit
    · exact .inr ⟨rfl, action, t, hdescend, walkNode_answer hcontext hvisit hdescend⟩

theorem visitsFrom_cons (visit : Visitor σ) (scope : Scope) (i : Nat) (s : σ) (n : Node)
    (ns : List Node) :
    visitsFrom visit scope i s (n :: ns) = (n.visits visit scope s).map (Visit.under i) ++
      if (walkNode visit scope s n).stopped then []
      else visitsFrom visit scope (i + 1) (walkNode visit scope s n).state ns := rfl

theorem allFrom_visitsFrom (visit : Visitor σ) (scope : Scope) (i : Nat) (s : σ)
    (nodes : List Node) : AllFrom i (visitsFrom visit scope i s nodes) := by
  induction nodes generalizing i s with
  | nil => exact allFrom_nil i
  | cons n ns ih =>
    intro v hv
    rw [visitsFrom_cons, List.mem_append] at hv
    rcases hv with hv | hv
    · obtain ⟨v, -, rfl⟩ := List.mem_map.1 hv
      exact ⟨i, v.address, rfl, Nat.le_refl i⟩
    · split at hv
      · simp at hv
      · obtain ⟨j, rest, haddress, hj⟩ := ih (i + 1) _ v hv
        exact ⟨j, rest, haddress, Nat.le_of_succ_le hj⟩

/-! ### The end of a walk -/

theorem stopped_walkNode_of {n : Node}
    (hchildren : ∀ scope s, (walkFrom visit scope s n.children).stopped =
      (visitsFrom visit scope 0 s n.children).any (·.action.ends)) (scope : Scope) (s : σ) :
    (walkNode visit scope s n).stopped = (n.visits visit scope s).any (·.action.ends) := by
  rcases walkNode_cases visit scope s n with ⟨t, hwalk, hvisits⟩ | ⟨-, action, t, -, hwalk, hvisits⟩
  · have hentry : (n.entry scope.depth).any (·.action.ends) = false := by
      rw [List.any_eq_false]
      intro v hv
      simp [Node.action_of_mem_entry hv, Action.ends]
    rw [hwalk, hvisits, List.any_append, hentry, Bool.false_or, ← hchildren]
    rfl
  · rw [hwalk, hvisits]
    simp

theorem stopped_walkFrom (visit : Visitor σ) (scope : Scope) (i : Nat) (s : σ) (nodes : List Node) :
    (walkFrom visit scope s nodes).stopped =
      (visitsFrom visit scope i s nodes).any (·.action.ends) := by
  induction nodes using nodes_induction generalizing scope i s with
  | nil => rfl
  | cons n ns hchildren hns =>
    have hn := stopped_walkNode_of (fun scope s => hchildren scope 0 s) scope s
    have hunder : (fun v : Visit => v.action.ends) ∘ Visit.under i = fun v => v.action.ends := rfl
    rw [visitsFrom_cons, List.any_append, List.any_map, hunder, ← hn, walkFrom]
    dsimp only
    split
    next hstopped => simp [hstopped]
    next hstopped => simp [hstopped, ← hns]

theorem stopped_walkNode (visit : Visitor σ) (scope : Scope) (s : σ) (node : Node) :
    (walkNode visit scope s node).stopped = (node.visits visit scope s).any (·.action.ends) :=
  stopped_walkNode_of (fun scope s => stopped_walkFrom visit scope 0 s node.children) scope s

end Walks

end UtilityCss
