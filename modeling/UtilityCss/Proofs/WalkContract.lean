import UtilityCss.Proofs.Visits

/-!
A walk follows the answers of its visitor. The nodes it comes to stand in document order, and it
leaves out only what lies inside of a skipped or replaced node or behind the end of the walk; the
tree afterwards is the old one with the replacements in their places.
-/
namespace UtilityCss

/-! ### Replacing nodes at addresses -/

mutual

def Node.spliced (content : Address → Option (List Node)) : Node → List Node
  | .rule selector nodes => (content []).getD [.rule selector (splicedFrom content 0 nodes)]
  | .atRule name params nodes =>
    (content []).getD [.atRule name params (splicedFrom content 0 nodes)]
  | .context entries nodes => (content []).getD [.context entries (splicedFrom content 0 nodes)]
  | .atRoot nodes => (content []).getD [.atRoot (splicedFrom content 0 nodes)]
  | .declaration property value important =>
    (content []).getD [.declaration property value important]
  | .comment text => (content []).getD [.comment text]

def splicedFrom (content : Address → Option (List Node)) (i : Nat) : List Node → List Node
  | [] => []
  | n :: ns => n.spliced (fun a => content (i :: a)) ++ splicedFrom content (i + 1) ns

end

theorem Node.spliced_eq (content : Address → Option (List Node)) (node : Node) :
    node.spliced content =
      (content []).getD [node.withChildren (splicedFrom content 0 node.children)] := by
  cases node <;> rfl

theorem splicedFrom_congr {content content' : Address → Option (List Node)} {i : Nat}
    (h : ∀ j rest, i ≤ j → content (j :: rest) = content' (j :: rest)) (nodes : List Node) :
    splicedFrom content i nodes = splicedFrom content' i nodes := by
  induction nodes generalizing i with
  | nil => rfl
  | cons n ns ih =>
    have hn : (fun a => content (i :: a)) = fun a => content' (i :: a) :=
      funext fun a => h i a (Nat.le_refl i)
    rw [splicedFrom, splicedFrom, hn, ih fun j rest hj => h j rest (Nat.le_of_succ_le hj)]

theorem Node.withChildren_children (node : Node) : node.withChildren node.children = node := by
  cases node <;> rfl

theorem Node.children_withChildren {node : Node} (h : node.children ≠ []) (nodes : List Node) :
    (node.withChildren nodes).children = nodes := by
  cases node with
  | declaration | comment => exact absurd rfl h
  | _ => rfl

theorem Node.depthInside_withChildren (depth : Nat) (node : Node) (nodes : List Node) :
    (node.withChildren nodes).depthInside depth = node.depthInside depth := by
  cases node <;> rfl

theorem splicedFrom_eq_self {content : Address → Option (List Node)} {i : Nat}
    (h : ∀ j rest, i ≤ j → content (j :: rest) = none) (nodes : List Node) :
    splicedFrom content i nodes = nodes := by
  induction nodes using nodes_induction generalizing content i with
  | nil => rfl
  | cons n ns hchildren hns =>
    rw [splicedFrom, hns fun j rest hj => h j rest (Nat.le_of_succ_le hj), Node.spliced_eq,
      h i [] (Nat.le_refl i), hchildren fun j rest _ => h i (j :: rest) (Nat.le_refl i),
      Node.withChildren_children]
    rfl

section Walks

variable {σ : Type} {visit : Visitor σ}

/-! ### The order of the visits -/

structure InOrder (visits : List Visit) (occurrences : List Occurrence) (ended : Bool) : Prop where
  order : visits.map Visit.toOccurrence <+: occurrences.filter (Occurrence.isOpen visits)
  whole : ended = false →
    visits.map Visit.toOccurrence = occurrences.filter (Occurrence.isOpen visits)

theorem filter_isOpen_cons {first later : List Visit} {depth i : Nat} (n : Node) (ns : List Node)
    (h : AllFrom (i + 1) later) :
    (occurrencesFrom depth i (n :: ns)).filter
      (Occurrence.isOpen (first.map (Visit.under i) ++ later)) =
      ((n.occurrences depth).filter (Occurrence.isOpen first)).map (Occurrence.under i) ++
        (occurrencesFrom depth (i + 1) ns).filter (Occurrence.isOpen later) := by
  rw [occurrencesFrom_cons, List.filter_append, List.filter_map]
  congr 1
  · congr 2
    exact funext fun o => isOpen_under h o
  · refine List.filter_congr fun o ho => ?_
    obtain ⟨j, rest, haddress, hj⟩ := exists_index ho
    exact isOpen_behind haddress hj

private theorem isOpen_entry (depth : Nat) (node : Node) (visits : List Visit) (o : Occurrence) :
    o.isOpen (node.entry depth ++ visits) = o.isOpen visits := by
  have hentry : (node.entry depth).all (fun v => !v.hides o.address) = true := by
    rw [List.all_eq_true]
    intro v hv
    simp [Visit.hides, Node.action_of_mem_entry hv, Action.hides]
  rw [Occurrence.isOpen, List.all_append, hentry, Bool.true_and, Occurrence.isOpen]

theorem isOpen_top (visits : List Visit) (node : Node) (depth : Nat) :
    Occurrence.isOpen visits ⟨[], node, depth⟩ = !node.isContext := by
  have htop : visits.all (fun v => !v.hides []) = true := by
    rw [List.all_eq_true]
    intro v _
    simp [Visit.hides]
  rw [Occurrence.isOpen, htop, Bool.and_true]

theorem filter_isOpen_entry (depth : Nat) (node : Node) (visits : List Visit) :
    (node.occurrences depth).filter (Occurrence.isOpen (node.entry depth ++ visits)) =
      (node.entry depth).map Visit.toOccurrence ++
        (occurrencesFrom (node.depthInside depth) 0 node.children).filter
          (Occurrence.isOpen visits) := by
  rw [Node.occurrences, List.filter_cons, isOpen_top,
    funext (isOpen_entry depth node visits), Node.entry]
  cases node.isContext <;> rfl

theorem filter_isOpen_answer {depth : Nat} {node : Node} {action : Action}
    (h : node.isContext = false) :
    (node.occurrences depth).filter (Occurrence.isOpen [⟨⟨[], node, depth⟩, action⟩]) =
      ⟨[], node, depth⟩ :: (occurrencesFrom (node.depthInside depth) 0 node.children).filter
        fun o => !o.node.isContext && !action.hides := by
  rw [Node.occurrences, List.filter_cons, isOpen_top, h, Bool.not_false, if_pos rfl]
  congr 1
  refine List.filter_congr fun o ho => ?_
  obtain ⟨j, rest, haddress, -⟩ := exists_index ho
  simp [Occurrence.isOpen, Visit.hides, haddress]

private theorem inOrder_visits {n : Node}
    (hchildren : ∀ scope s, InOrder (visitsFrom visit scope 0 s n.children)
      (occurrencesFrom scope.depth 0 n.children) (walkFrom visit scope s n.children).stopped)
    (scope : Scope) (s : σ) :
    InOrder (n.visits visit scope s) (n.occurrences scope.depth)
      (walkNode visit scope s n).stopped := by
  rcases walkNode_cases visit scope s n with
    ⟨t, hwalk, hvisits⟩ | ⟨hcontext, action, t, hne, hwalk, hvisits⟩
  · have hinside := hchildren (scope.inside n) t
    rw [Scope.depth_inside] at hinside
    rw [hwalk, hvisits]
    constructor
    · rw [filter_isOpen_entry, List.map_append]
      exact (List.prefix_append_right_inj _).2 hinside.order
    · intro hended
      rw [filter_isOpen_entry, List.map_append, hinside.whole hended]
  · rw [hwalk, hvisits]
    constructor
    · rw [filter_isOpen_answer hcontext]
      exact ⟨_, rfl⟩
    · intro hended
      have hhides : action.hides = true := by
        cases action <;> first | rfl | contradiction
      rw [filter_isOpen_answer hcontext, hhides]
      simp

theorem inOrder_visitsFrom (visit : Visitor σ) (scope : Scope) (i : Nat) (s : σ)
    (nodes : List Node) :
    InOrder (visitsFrom visit scope i s nodes) (occurrencesFrom scope.depth i nodes)
      (walkFrom visit scope s nodes).stopped := by
  induction nodes using nodes_induction generalizing scope i s with
  | nil => exact ⟨List.prefix_rfl, fun _ => rfl⟩
  | cons n ns hchildren hns =>
    have hn := inOrder_visits (fun scope s => hchildren scope 0 s) scope s
    have hunder : ((n.visits visit scope s).map (Visit.under i)).map Visit.toOccurrence =
        ((n.visits visit scope s).map Visit.toOccurrence).map (Occurrence.under i) := by
      rw [List.map_map, List.map_map]
      rfl
    rw [visitsFrom_cons, walkFrom]
    dsimp only
    split
    next hstopped =>
      refine ⟨?_, (nomatch ·)⟩
      rw [filter_isOpen_cons n ns (allFrom_nil _), List.map_append, hunder, List.map_nil,
        List.append_nil]
      exact (hn.order.map _).trans (List.prefix_append _ _)
    next hstopped =>
      have hlater := hns scope (i + 1) (walkNode visit scope s n).state
      have hfrom := allFrom_visitsFrom visit scope (i + 1) (walkNode visit scope s n).state ns
      have hwhole := hn.whole (by simpa using hstopped)
      constructor
      · rw [filter_isOpen_cons n ns hfrom, List.map_append, hunder, hwhole]
        exact (List.prefix_append_right_inj _).2 hlater.order
      · intro hended
        rw [filter_isOpen_cons n ns hfrom, List.map_append, hunder, hwhole, hlater.whole hended]

/-! ### The tree afterwards -/

theorem replacement?_entry {depth : Nat} {node : Node} {visits : List Visit} (a : Address) :
    replacement? (node.entry depth ++ visits) a = replacement? visits a := by
  have hentry : replacement? (node.entry depth) a = none := by
    rw [replacement?, List.findSome?_eq_none_iff]
    intro v hv
    simp [Node.action_of_mem_entry hv, Action.content?]
  unfold replacement? at hentry ⊢
  rw [List.findSome?_append, hentry, Option.none_or]

private theorem replacement?_nil {i : Nat} {visits : List Visit} (h : AllFrom i visits) :
    replacement? visits [] = none := by
  rw [replacement?, List.findSome?_eq_none_iff]
  intro v hv
  obtain ⟨j, rest, haddress, -⟩ := h v hv
  simp [haddress]

private theorem nodes_walkNode {n : Node}
    (hchildren : ∀ scope s, (walkFrom visit scope s n.children).nodes =
      splicedFrom (replacement? (visitsFrom visit scope 0 s n.children)) 0 n.children)
    (scope : Scope) (s : σ) :
    (walkNode visit scope s n).nodes = n.spliced (replacement? (n.visits visit scope s)) := by
  rcases walkNode_cases visit scope s n with ⟨t, hwalk, hvisits⟩ | ⟨-, action, t, -, hwalk, hvisits⟩
  · have htop := replacement?_nil (allFrom_visitsFrom visit (scope.inside n) 0 t n.children)
    rw [hwalk, hvisits, Node.spliced_eq, replacement?_entry, htop,
      funext replacement?_entry, ← hchildren]
    rfl
  · have hinside : splicedFrom (replacement? [⟨⟨[], n, scope.depth⟩, action⟩]) 0 n.children =
        n.children := by
      refine splicedFrom_eq_self (fun j rest _ => ?_) _
      simp [replacement?]
    rw [hwalk, hvisits, Node.spliced_eq, hinside, Node.withChildren_children]
    simp [replacement?]

theorem nodes_walkFrom (visit : Visitor σ) (scope : Scope) (i : Nat) (s : σ) (nodes : List Node) :
    (walkFrom visit scope s nodes).nodes =
      splicedFrom (replacement? (visitsFrom visit scope i s nodes)) i nodes := by
  induction nodes using nodes_induction generalizing scope i s with
  | nil => rfl
  | cons n ns hchildren hns =>
    have hn := nodes_walkNode (fun scope s => hchildren scope 0 s) scope s
    rw [visitsFrom_cons, walkFrom, splicedFrom]
    dsimp only
    split
    next hstopped =>
      rw [funext (replacement?_under (allFrom_nil _)), ← hn,
        splicedFrom_eq_self fun j rest hj => replacement?_behind hj]
    next hstopped =>
      have hfrom := allFrom_visitsFrom visit scope (i + 1) (walkNode visit scope s n).state ns
      rw [funext (replacement?_under hfrom), ← hn,
        splicedFrom_congr fun j rest hj => replacement?_behind hj, ← hns]

/-! ### Behind the end of a walk -/

/-- The last of the visits ended the walk, and what stands behind it in document order is the end of
the tree afterwards. What stood inside of the node is gone if it was replaced. -/
def LeavesRest (visits : List Visit) (occurrences after : List Occurrence) : Prop :=
  ∃ earlier v before behind, visits = earlier ++ [v] ∧ (∀ u ∈ earlier, u.action.ends = false) ∧
    v.action.ends = true ∧ occurrences = before ++ v.toOccurrence :: behind ∧
    ((behind.filter fun o => !v.hides o.address).map Occurrence.seen) <:+ after.map Occurrence.seen

theorem LeavesRest.under {visits : List Visit} {n : Node} {depth i : Nat} {nodes ns : List Node}
    (h : LeavesRest visits (n.occurrences depth) (occurrencesFrom depth 0 nodes)) :
    LeavesRest (visits.map (Visit.under i)) (occurrencesFrom depth i (n :: ns))
      (occurrencesFrom depth 0 (nodes ++ ns)) := by
  obtain ⟨earlier, v, before, behind, rfl, hearlier, hends, hsplit, hrest⟩ := h
  refine ⟨earlier.map (Visit.under i), v.under i, before.map (Occurrence.under i),
    behind.map (Occurrence.under i) ++ occurrencesFrom depth (i + 1) ns, by simp, ?_, hends, ?_, ?_⟩
  · exact List.forall_mem_map.2 hearlier
  · rw [occurrencesFrom_cons, hsplit, List.map_append, List.map_cons, List.append_assoc]
    rfl
  · have hinside : (fun o : Occurrence => !(v.under i).hides o.address) ∘ Occurrence.under i =
        fun o => !v.hides o.address := by
      funext o
      simp [Visit.hides, Visit.under, Occurrence.under]
    have hbehind :
        (occurrencesFrom depth (i + 1) ns).filter (fun o => !(v.under i).hides o.address) =
        occurrencesFrom depth (i + 1) ns := by
      refine List.filter_eq_self.2 fun o ho => ?_
      obtain ⟨j, rest, haddress, hj⟩ := exists_index ho
      have hne : i ≠ j := by omega
      simp [Visit.hides, Visit.under, haddress, hne]
    rw [List.filter_append, List.filter_map, hinside, hbehind, List.map_append, List.map_map,
      Occurrence.seen_comp_under, seen_append, seen_occurrencesFrom depth (i + 1) 0 ns]
    obtain ⟨front, hfront⟩ := hrest
    exact ⟨front, by rw [← hfront, List.append_assoc]⟩

theorem LeavesRest.behind {first visits : List Visit} {n : Node} {depth i : Nat}
    {nodes nodes' ns : List Node} (hfirst : ∀ v ∈ first, v.action.ends = false)
    (h : LeavesRest visits (occurrencesFrom depth (i + 1) ns) (occurrencesFrom depth 0 nodes')) :
    LeavesRest (first.map (Visit.under i) ++ visits) (occurrencesFrom depth i (n :: ns))
      (occurrencesFrom depth 0 (nodes ++ nodes')) := by
  obtain ⟨earlier, v, before, behind, rfl, hearlier, hends, hsplit, hrest⟩ := h
  refine ⟨first.map (Visit.under i) ++ earlier, v,
    (n.occurrences depth).map (Occurrence.under i) ++ before, behind, by simp, ?_, hends, ?_, ?_⟩
  · intro u hu
    rcases List.mem_append.1 hu with hu | hu
    · obtain ⟨u, hmem, rfl⟩ := List.mem_map.1 hu
      exact hfirst u hmem
    · exact hearlier u hu
  · rw [occurrencesFrom_cons, hsplit, List.append_assoc]
  · rw [seen_append]
    exact hrest.trans (List.suffix_append _ _)

theorem LeavesRest.inside {visits : List Visit} {n : Node} {depth : Nat} {nodes : List Node}
    (h : LeavesRest visits (occurrencesFrom (n.depthInside depth) 0 n.children)
      (occurrencesFrom (n.depthInside depth) 0 nodes)) :
    LeavesRest (n.entry depth ++ visits) (n.occurrences depth)
      (occurrencesFrom depth 0 [n.withChildren nodes]) := by
  obtain ⟨earlier, v, before, behind, rfl, hearlier, hends, hsplit, hrest⟩ := h
  refine ⟨n.entry depth ++ earlier, v, ⟨[], n, depth⟩ :: before, behind, by simp, ?_, hends, ?_, ?_⟩
  · intro u hu
    rcases List.mem_append.1 hu with hu | hu
    · rw [Node.action_of_mem_entry hu]
      rfl
    · exact hearlier u hu
  · rw [Node.occurrences, hsplit, List.cons_append]
  · have hne : n.children ≠ [] := by
      intro hnil
      rw [hnil, occurrencesFrom] at hsplit
      simp at hsplit
    rw [seen_singleton, Node.occurrences, Node.children_withChildren hne,
      Node.depthInside_withChildren]
    exact hrest.trans (List.suffix_cons _ _)

private theorem leavesRest_walkNode {n : Node}
    (hchildren : ∀ scope s, (walkFrom visit scope s n.children).stopped = true →
      LeavesRest (visitsFrom visit scope 0 s n.children) (occurrencesFrom scope.depth 0 n.children)
        (occurrencesFrom scope.depth 0 (walkFrom visit scope s n.children).nodes))
    (scope : Scope) (s : σ) (h : (walkNode visit scope s n).stopped = true) :
    LeavesRest (n.visits visit scope s) (n.occurrences scope.depth)
      (occurrencesFrom scope.depth 0 (walkNode visit scope s n).nodes) := by
  rcases walkNode_cases visit scope s n
    with ⟨t, hwalk, hvisits⟩ | ⟨-, action, t, hne, hwalk, hvisits⟩
  · rw [hwalk] at h
    have hinside := hchildren (scope.inside n) t h
    rw [Scope.depth_inside] at hinside
    rw [hwalk, hvisits]
    exact hinside.inside
  · rw [hwalk] at h
    rw [hwalk, hvisits]
    refine ⟨[], ⟨⟨[], n, scope.depth⟩, action⟩, [], _, rfl, by simp, h, rfl, ?_⟩
    cases action with
    | descend | skip | replace => cases h
    | stop =>
      have hall : (occurrencesFrom (n.depthInside scope.depth) 0 n.children).filter
          (fun o => !Visit.hides ⟨⟨[], n, scope.depth⟩, .stop⟩ o.address) =
            occurrencesFrom (n.depthInside scope.depth) 0 n.children := by
        simp [Visit.hides, Action.hides]
      rw [hall]
      simp only [Action.content?, Option.getD_none]
      rw [seen_singleton, Node.occurrences]
      exact List.suffix_cons _ _
    | replaceAndStop nodes =>
      have hnone : (occurrencesFrom (n.depthInside scope.depth) 0 n.children).filter
          (fun o => !Visit.hides ⟨⟨[], n, scope.depth⟩, .replaceAndStop nodes⟩ o.address) = [] := by
        refine List.filter_eq_nil_iff.2 fun o ho => ?_
        obtain ⟨j, rest, haddress, -⟩ := exists_index ho
        simp [Visit.hides, Action.hides, haddress]
      rw [hnone]
      exact List.nil_suffix

theorem leavesRest_walkFrom {scope : Scope} {s : σ} {nodes : List Node}
    (h : (walkFrom visit scope s nodes).stopped = true) (i : Nat) :
    LeavesRest (visitsFrom visit scope i s nodes) (occurrencesFrom scope.depth i nodes)
      (occurrencesFrom scope.depth 0 (walkFrom visit scope s nodes).nodes) := by
  induction nodes using nodes_induction generalizing scope i s with
  | nil => cases h
  | cons n ns hchildren hns =>
    have hn := leavesRest_walkNode (fun scope s h => hchildren h 0) scope s
    rw [visitsFrom_cons]
    rw [walkFrom] at h ⊢
    dsimp only at h ⊢
    split at h
    next hstopped =>
      rw [if_pos hstopped, if_pos hstopped, List.append_nil]
      exact (hn hstopped).under
    next hstopped =>
      rw [if_neg hstopped, if_neg hstopped]
      rw [stopped_walkNode, Bool.not_eq_true, List.any_eq_false] at hstopped
      exact LeavesRest.behind (fun v hv => by simpa using hstopped v hv) (hns h (i + 1))

/-! ### The log of a walk -/

/-- The same visitor, which keeps a log of what it was asked and of its answers. -/
def Visitor.recording (visit : Visitor σ) : Visitor (σ × List (Node × Nat × Action)) :=
  fun node scope s =>
    let answer := visit node scope s.1
    (answer.1, answer.2, s.2 ++ [(node, scope.depth, answer.1)])

def Walked.withLog (walked : Walked σ) (log : List (Node × Nat × Action)) :
    Walked (σ × List (Node × Nat × Action)) :=
  ⟨walked.nodes, (walked.state, log), walked.stopped⟩

private theorem walkNode_recording {n : Node}
    (hchildren : ∀ scope s log, walkFrom visit.recording scope (s, log) n.children =
      (walkFrom visit scope s n.children).withLog
        (log ++ (visitsFrom visit scope 0 s n.children).map Visit.record))
    (scope : Scope) (s : σ) (log : List (Node × Nat × Action)) :
    walkNode visit.recording scope (s, log) n =
      (walkNode visit scope s n).withLog (log ++ (n.visits visit scope s).map Visit.record) := by
  cases hcontext : n.isContext with
  | true =>
    obtain ⟨hwalk, hvisits⟩ := walkNode_context visit scope s hcontext
    rw [(walkNode_context visit.recording scope (s, log) hcontext).1, hwalk, hvisits,
      walkInside, hchildren]
    rfl
  | false =>
    obtain ⟨⟨action, t⟩, hvisit⟩ : ∃ answer, visit n scope s = answer := ⟨_, rfl⟩
    have hrecording : visit.recording n scope (s, log) =
        (action, t, log ++ [(n, scope.depth, action)]) := by
      simp only [Visitor.recording, hvisit]
    by_cases hdescend : action = .descend
    · subst hdescend
      obtain ⟨hwalk, hvisits⟩ := walkNode_descend hcontext hvisit
      rw [(walkNode_descend hcontext hrecording).1, hwalk, hvisits, walkInside, hchildren,
        List.append_assoc]
      rfl
    · obtain ⟨hwalk, hvisits⟩ := walkNode_answer hcontext hvisit hdescend
      rw [(walkNode_answer hcontext hrecording hdescend).1, hwalk, hvisits]
      rfl

theorem walkFrom_recording (visit : Visitor σ) (scope : Scope) (i : Nat) (s : σ)
    (log : List (Node × Nat × Action)) (nodes : List Node) :
    walkFrom visit.recording scope (s, log) nodes =
      (walkFrom visit scope s nodes).withLog
        (log ++ (visitsFrom visit scope i s nodes).map Visit.record) := by
  induction nodes using nodes_induction generalizing scope i s log with
  | nil => simp [walkFrom, visitsFrom, Walked.withLog]
  | cons n ns hchildren hns =>
    have hn := walkNode_recording (fun scope s log => hchildren scope 0 s log) scope s log
    have hunder : Visit.record ∘ Visit.under i = Visit.record := rfl
    rw [visitsFrom_cons, walkFrom, walkFrom, hn, List.map_append, List.map_map, hunder]
    dsimp only [Walked.withLog]
    split
    next hstopped => simp [hstopped]
    next hstopped => simp [hstopped, hns scope (i + 1), Walked.withLog]

/-! ### The contract -/

def Visitor.continuing (f : Node → Scope → σ → σ) : Visitor σ :=
  fun node scope s => (.descend, f node scope s)

private theorem walkFrom_continuing (f : Node → Scope → σ → σ) (scope : Scope) (s : σ)
    (nodes : List Node) :
    (walkFrom (.continuing f) scope s nodes).nodes = nodes ∧
      (walkFrom (.continuing f) scope s nodes).stopped = false := by
  induction nodes using nodes_induction generalizing scope s with
  | nil => exact ⟨rfl, rfl⟩
  | cons n ns hchildren hns =>
    have hinside (t : σ) : (walkInside (.continuing f) scope t n).nodes = [n] ∧
        (walkInside (.continuing f) scope t n).stopped = false := by
      obtain ⟨hnodes, hstopped⟩ := hchildren (scope.inside n) t
      refine ⟨?_, hstopped⟩
      rw [walkInside, hnodes, Node.withChildren_children]
    obtain ⟨hnodes, hstopped⟩ : (walkNode (.continuing f) scope s n).nodes = [n] ∧
        (walkNode (.continuing f) scope s n).stopped = false := by
      cases hcontext : n.isContext with
      | true =>
        rw [(walkNode_context (.continuing f) scope s hcontext).1]
        exact hinside s
      | false =>
        rw [(walkNode_descend hcontext rfl).1]
        exact hinside (f n scope s)
    obtain ⟨hlater, hended⟩ := hns scope (walkNode (.continuing f) scope s n).state
    rw [walkFrom]
    simp [hnodes, hstopped, hlater, hended]

/-- What the visits of a walk over a document tell of the walk. -/
structure WalkContract (visits : List Visit) (nodes result : List Node) : Prop where
  /-- the visited nodes are open ones, in document order -/
  order : visits.map Visit.toOccurrence <+: (occurrences nodes).filter (Occurrence.isOpen visits)
  /-- no open node is left out but by an answer that ends the walk -/
  whole : (∀ v ∈ visits, v.action.ends = false) →
    visits.map Visit.toOccurrence = (occurrences nodes).filter (Occurrence.isOpen visits)
  /-- replaced nodes, and only these, give way to their replacements -/
  tree : result = splicedFrom (replacement? visits) 0 nodes
  /-- behind the end of the walk all is as it was -/
  rest : (∃ v ∈ visits, v.action.ends = true) →
    LeavesRest visits (occurrences nodes) (occurrences result)

/-- The nodes that are no contexts are those of the outline, with their depths, and all nodes are
found at their addresses. The log of a walk, for any visitor, is that of visits which tell what the
walk did, and a visitor that always goes on changes nothing. -/
theorem walk_follows_visits (visit : Visitor σ) (s : σ) (nodes : List Node) :
    ((occurrences nodes).filter fun o => !o.node.isContext).map Occurrence.seen = outline nodes ∧
    (∀ o ∈ occurrences nodes, o.address.get? nodes = some o.node) ∧
    (∃ visits : List Visit,
      walk visit.recording (s, []) nodes =
        ((walk visit s nodes).1, (walk visit s nodes).2, visits.map Visit.record) ∧
      WalkContract visits nodes (walk visit s nodes).1) ∧
    ∀ f : Node → Scope → σ → σ, (walk (.continuing f) s nodes).1 = nodes := by
  refine ⟨seen_filter_isContext 0 0 nodes, fun o ho => get?_of_mem_occurrencesFrom [] ho,
    ⟨visitsFrom visit {} 0 s nodes, ?_, ?_⟩, fun f => (walkFrom_continuing f {} s nodes).1⟩
  · rw [walk, walkFrom_recording visit {} 0 s [] nodes, List.nil_append]
    rfl
  · have horder := inOrder_visitsFrom visit {} 0 s nodes
    have hstopped := stopped_walkFrom visit {} 0 s nodes
    refine ⟨horder.order, fun hends => horder.whole ?_, nodes_walkFrom visit {} 0 s nodes,
      fun hends => leavesRest_walkFrom ?_ 0⟩
    · rw [hstopped, List.any_eq_false]
      exact fun v hv => by simp [hends v hv]
    · rw [hstopped, List.any_eq_true]
      exact hends

end Walks

end UtilityCss
