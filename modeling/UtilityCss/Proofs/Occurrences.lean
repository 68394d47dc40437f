import UtilityCss.Node.Address
import UtilityCss.Node.Walk

/-!
The nodes of a document, each with its address and its depth. They stand in pre-order, which is the
lexicographic order of their addresses. Without the contexts they are what the outline of the
document reports, each one is found at its address, and a search gives the address of the first one
that is looked for.
-/
namespace UtilityCss

def Node.children (node : Node) : List Node :=
  node.children?.getD []

/-! ### Induction over a document -/

mutual

theorem Node.children_induction {P : List Node → Prop} (nil : P [])
    (cons : ∀ n ns, P n.children → P ns → P (n :: ns)) (node : Node) : P node.children := by
  match node with
  | .rule _ nodes | .atRule _ _ nodes | .context _ nodes | .atRoot nodes =>
    exact nodes_induction nil cons nodes
  | .declaration .. | .comment _ => exact nil

@[elab_as_elim]
theorem nodes_induction {P : List Node → Prop} (nil : P [])
    (cons : ∀ n ns, P n.children → P ns → P (n :: ns)) (nodes : List Node) : P nodes := by
  match nodes with
  | [] => exact nil
  | n :: ns => exact cons n ns (n.children_induction nil cons) (nodes_induction nil cons ns)

end

/-! ### Occurrences -/

def Node.isContext : Node → Bool
  | .context .. => true
  | _ => false

/-- A node where it stands in a document, with the number of nodes around it that are not contexts.
-/
structure Occurrence where
  address : Address
  node : Node
  depth : Nat

namespace Occurrence

def under (i : Nat) (o : Occurrence) : Occurrence :=
  { o with address := i :: o.address }

def seen (o : Occurrence) : Node × Nat :=
  (o.node, o.depth)

theorem seen_comp_under (i : Nat) : seen ∘ under i = seen := rfl

end Occurrence

def Node.depthInside (depth : Nat) (node : Node) : Nat :=
  if node.isContext then depth else depth + 1

mutual

def Node.innerOccurrences (depth : Nat) : Node → List Occurrence
  | .context _ nodes => occurrencesFrom depth 0 nodes
  | .rule _ nodes | .atRule _ _ nodes | .atRoot nodes => occurrencesFrom (depth + 1) 0 nodes
  | .declaration .. | .comment _ => []

def occurrencesFrom (depth i : Nat) : List Node → List Occurrence
  | [] => []
  | n :: ns =>
    (⟨[], n, depth⟩ :: n.innerOccurrences depth).map (Occurrence.under i) ++
      occurrencesFrom depth (i + 1) ns

end

def occurrences (nodes : List Node) : List Occurrence :=
  occurrencesFrom 0 0 nodes

def Node.occurrences (depth : Nat) (node : Node) : List Occurrence :=
  ⟨[], node, depth⟩ :: occurrencesFrom (node.depthInside depth) 0 node.children

theorem occurrencesFrom_cons (depth i : Nat) (n : Node) (ns : List Node) :
    occurrencesFrom depth i (n :: ns) =
      (n.occurrences depth).map (Occurrence.under i) ++ occurrencesFrom depth (i + 1) ns := by
  have hinner : n.innerOccurrences depth = occurrencesFrom (n.depthInside depth) 0 n.children := by
    cases n <;> simp [Node.innerOccurrences, Node.depthInside, Node.isContext, Node.children,
      Node.children?, occurrencesFrom]
  rw [occurrencesFrom, hinner, Node.occurrences]

theorem exists_index {depth i : Nat} {nodes : List Node} {o : Occurrence}
    (h : o ∈ occurrencesFrom depth i nodes) : ∃ j rest, o.address = j :: rest ∧ i ≤ j := by
  induction nodes generalizing i with
  | nil => simp [occurrencesFrom] at h
  | cons n ns ih =>
    rw [occurrencesFrom_cons, List.mem_append] at h
    rcases h with h | h
    · obtain ⟨o, -, rfl⟩ := List.mem_map.1 h
      exact ⟨i, o.address, rfl, Nat.le_refl i⟩
    · obtain ⟨j, rest, haddress, hj⟩ := ih h
      exact ⟨j, rest, haddress, Nat.le_of_succ_le hj⟩

/-! ### Without addresses -/

theorem seen_occurrencesFrom (depth i j : Nat) (nodes : List Node) :
    (occurrencesFrom depth i nodes).map Occurrence.seen =
      (occurrencesFrom depth j nodes).map Occurrence.seen := by
  induction nodes generalizing i j with
  | nil => rfl
  | cons n ns ih =>
    simp only [occurrencesFrom_cons, List.map_append, List.map_map, Occurrence.seen_comp_under,
      ih (i + 1) (j + 1)]

theorem seen_append (depth i : Nat) (xs ys : List Node) :
    (occurrencesFrom depth i (xs ++ ys)).map Occurrence.seen =
      (occurrencesFrom depth i xs).map Occurrence.seen ++
        (occurrencesFrom depth 0 ys).map Occurrence.seen := by
  induction xs generalizing i with
  | nil => exact seen_occurrencesFrom depth i 0 ys
  | cons x xs ih =>
    rw [List.cons_append, occurrencesFrom_cons, occurrencesFrom_cons, List.map_append,
      List.map_append, ih, List.append_assoc]

theorem seen_singleton (depth i : Nat) (n : Node) :
    (occurrencesFrom depth i [n]).map Occurrence.seen =
      (n.occurrences depth).map Occurrence.seen := by
  rw [occurrencesFrom_cons, occurrencesFrom, List.append_nil, List.map_map,
    Occurrence.seen_comp_under]

private theorem outlineAll_cons (depth : Nat) (n : Node) (ns : List Node) :
    outlineAll depth (n :: ns) = (if n.isContext then [] else [(n, depth)]) ++
      outlineAll (n.depthInside depth) n.children ++ outlineAll depth ns := by
  cases n <;> simp [outlineAll, Node.outline, Node.isContext, Node.depthInside, Node.children,
    Node.children?]

theorem seen_filter_isContext (depth i : Nat) (nodes : List Node) :
    ((occurrencesFrom depth i nodes).filter fun o => !o.node.isContext).map Occurrence.seen =
      outlineAll depth nodes := by
  induction nodes using nodes_induction generalizing depth i with
  | nil => rfl
  | cons n ns hchildren hns =>
    have hunder : (fun o : Occurrence => !o.node.isContext) ∘ Occurrence.under i =
        fun o => !o.node.isContext := rfl
    rw [occurrencesFrom_cons, outlineAll_cons, List.filter_append, List.map_append, hns,
      List.filter_map, List.map_map, hunder, Occurrence.seen_comp_under, Node.occurrences,
      List.filter_cons, ← hchildren _ 0]
    cases n.isContext <;> simp [Occurrence.seen]

/-! ### At their addresses -/

namespace Address

variable {nodes : List Node} {i : Nat} {n : Node} {r : Address}

private theorem get?_nil (a : Address) : a.get? [] = none := by
  match a with
  | [] => rfl
  | [i] => rfl
  | i :: j :: rest => rfl

theorem get?_cons (h : nodes[i]? = some n) (hr : r ≠ []) :
    get? (i :: r) nodes = r.get? n.children := by
  obtain ⟨j, rest, rfl⟩ := List.exists_cons_of_ne_nil hr
  cases hchildren : n.children? with
  | none => simp [get?, h, hchildren, Node.children, get?_nil]
  | some children => simp [get?, h, hchildren, Node.children]

end Address

theorem get?_of_mem_occurrencesFrom {depth : Nat} {nodes : List Node} {o : Occurrence}
    (before : List Node) (h : o ∈ occurrencesFrom depth before.length nodes) :
    o.address.get? (before ++ nodes) = some o.node := by
  -- the nodes before are kept, so that addresses mean the same at each step
  induction nodes using nodes_induction generalizing depth before o with
  | nil => simp [occurrencesFrom] at h
  | cons n ns hchildren hns =>
    have hn : (before ++ n :: ns)[before.length]? = some n := by simp
    rw [occurrencesFrom_cons, List.mem_append] at h
    rcases h with h | h
    · obtain ⟨o, ho, rfl⟩ := List.mem_map.1 h
      rcases List.mem_cons.1 ho with rfl | ho
      · simp [Occurrence.under, Address.get?]
      · obtain ⟨j, rest, haddress, -⟩ := exists_index ho
        rw [Occurrence.under, Address.get?_cons hn (by simp [haddress])]
        exact hchildren [] ho
    · have hlater := hns (before ++ [n]) (by simpa using h)
      simpa using hlater

/-! ### The order of a document -/

theorem pairwise_occurrencesFrom (depth i : Nat) (nodes : List Node) :
    (occurrencesFrom depth i nodes).Pairwise fun o o' => o.address < o'.address := by
  induction nodes using nodes_induction generalizing depth i with
  | nil => exact .nil
  | cons n ns hchildren hns =>
    have hinside : (n.occurrences depth).Pairwise fun o o' => o.address < o'.address := by
      refine .cons (fun o ho => ?_) (hchildren _ 0)
      obtain ⟨j, rest, haddress, -⟩ := exists_index ho
      rw [haddress]
      exact List.nil_lt_cons j rest
    rw [occurrencesFrom_cons, List.pairwise_append, List.pairwise_map]
    refine ⟨hinside.imp fun h => List.cons_lt_cons_iff.2 (.inr ⟨rfl, h⟩), hns depth (i + 1), ?_⟩
    intro o ho o' ho'
    obtain ⟨inner, -, rfl⟩ := List.mem_map.1 ho
    obtain ⟨j, rest, haddress, hj⟩ := exists_index ho'
    rw [haddress]
    exact List.cons_lt_cons_iff.2 (.inl hj)

theorem under_mem_occurrencesFrom {depth i : Nat} {nodes : List Node} {n : Node} {o : Occurrence}
    (hn : nodes[i]? = some n) (ho : o ∈ n.occurrences depth) (k : Nat) :
    o.under (k + i) ∈ occurrencesFrom depth k nodes := by
  induction nodes generalizing i k with
  | nil => simp at hn
  | cons m ms ih =>
    rw [occurrencesFrom_cons, List.mem_append]
    cases i with
    | zero =>
      obtain rfl : m = n := by simpa using hn
      exact .inl (List.mem_map_of_mem ho)
    | succ i =>
      rw [List.getElem?_cons_succ] at hn
      rw [← Nat.succ_add_eq_add_succ]
      exact .inr (ih hn (k + 1))

theorem exists_occurrence {a : Address} {nodes : List Node} {node : Node}
    (h : a.get? nodes = some node)
    (depth : Nat) : ∃ o ∈ occurrencesFrom depth 0 nodes, o.address = a ∧ o.node = node := by
  match a with
  | [] => cases h
  | [i] =>
    have hself : (⟨[], node, depth⟩ : Occurrence) ∈ node.occurrences depth := List.mem_cons_self
    have hmem := under_mem_occurrencesFrom h hself 0
    rw [Nat.zero_add] at hmem
    exact ⟨_, hmem, rfl, rfl⟩
  | i :: j :: rest =>
    cases hn : nodes[i]? with
    | none => simp [Address.get?, hn] at h
    | some n =>
      rw [Address.get?_cons hn (List.cons_ne_nil j rest)] at h
      obtain ⟨o, ho, haddress, hnode⟩ := exists_occurrence h (n.depthInside depth)
      have hmem := under_mem_occurrencesFrom hn (List.mem_cons_of_mem _ ho) 0
      rw [Nat.zero_add] at hmem
      exact ⟨_, hmem, congrArg (i :: ·) haddress, hnode⟩

theorem Address.get?_eq_some_iff {a : Address} {nodes : List Node} {node : Node} :
    a.get? nodes = some node ↔ ∃ o ∈ occurrences nodes, o.address = a ∧ o.node = node := by
  constructor
  · exact fun h => exists_occurrence h 0
  · rintro ⟨o, ho, rfl, rfl⟩
    exact get?_of_mem_occurrencesFrom [] ho

/-! ### Searching -/

theorem Node.find?_eq (p : Node → Bool) (node : Node) :
    node.find? p = if p node then some [] else findAll? p 0 node.children := by
  cases node <;> simp [Node.find?, Node.children, Node.children?, findAll?]

theorem findAll?_eq (p : Node → Bool) (depth i : Nat) (nodes : List Node) :
    findAll? p i nodes =
      ((occurrencesFrom depth i nodes).find? fun o => p o.node).map Occurrence.address := by
  induction nodes using nodes_induction generalizing depth i with
  | nil => rfl
  | cons n ns hchildren hns =>
    have hnode :
        n.find? p = ((n.occurrences depth).find? fun o => p o.node).map Occurrence.address := by
      rw [Node.find?_eq, Node.occurrences, List.find?_cons, hchildren (n.depthInside depth) 0]
      cases p n <;> rfl
    have hunder : (fun o : Occurrence => p o.node) ∘ Occurrence.under i = fun o => p o.node := rfl
    rw [findAll?, hnode, hns depth, occurrencesFrom_cons, List.find?_append, List.find?_map, hunder]
    cases (n.occurrences depth).find? fun o => p o.node <;> rfl

end UtilityCss
