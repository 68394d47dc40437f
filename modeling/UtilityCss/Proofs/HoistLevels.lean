import UtilityCss.Proofs.Reprint

/-!
The order of a printed document. What is hoisted is printed level by level: the document first, then
what its at-root nodes hold, then what at-root nodes inside of these hold, and so on. A tour of the
document in one pass, in which hoisted nodes stay where they are, shows that each node is printed
once.
-/
namespace UtilityCss

def Node.isAtRoot : Node → Bool
  | .atRoot _ => true
  | _ => false

/-! ### Levels -/

/-- Where the text of a node goes: the number of at-root nodes around it, and the number of blocks
around it inside of the last of these. -/
structure Outlet where
  level : Nat := 0
  depth : Nat := 0
  deriving DecidableEq, Repr

def Node.inlet (o : Outlet) : Node → Outlet
  | .rule .. | .atRule .. => { o with depth := o.depth + 1 }
  | .atRoot _ => { level := o.level + 1 }
  | .context .. | .declaration .. | .comment _ => o

namespace Address

def outlet (o : Outlet) : Address → List Node → Outlet
  | i :: j :: rest, nodes =>
    match nodes[i]? with
    | some node => outlet (node.inlet o) (j :: rest) node.children
    | none => o
  | _, _ => o

end Address

def Occurrence.isOutermost (nodes : List Node) (o : Occurrence) : Bool :=
  o.node.isAtRoot && (o.address.outlet {} nodes).level == 0

/-- The children of the at-root nodes that stand inside no other at-root node, in document order. -/
def hoists (nodes : List Node) : List Node :=
  ((occurrences nodes).filter (Occurrence.isOutermost nodes)).flatMap fun o => o.node.children

/-- The document, then what it hoists, then what that hoists, and so on. -/
def level (nodes : List Node) (k : Nat) : List Node :=
  hoists^[k] nodes

/-! ### The tour of a document -/

def Node.opening (depth : Nat) : Node → String
  | .declaration _ none _ => ""
  | .declaration property (some value) important =>
    indent depth ++ property ++ ": " ++ value ++ (if important then " !important" else "") ++ ";\n"
  | .rule selector _ => indent depth ++ selector ++ " \x7b\n"
  | .atRule name params nodes =>
    indent depth ++ "@" ++ name ++ (if params.isEmpty then "" else " " ++ params) ++
      (if nodes.isEmpty then ";\n" else " \x7b\n")
  | .comment text => indent depth ++ "/*" ++ text ++ "*/\n"
  | .context .. | .atRoot _ => ""

def Node.closing (depth : Nat) : Node → String
  | .rule .. => indent depth ++ "\x7d\n"
  | .atRule _ _ nodes => if nodes.isEmpty then "" else indent depth ++ "\x7d\n"
  | .declaration .. | .comment _ | .context .. | .atRoot _ => ""

structure Line where
  address : Address
  level : Nat
  text : String
  deriving DecidableEq, Repr

def Line.under (i : Nat) (line : Line) : Line :=
  { line with address := i :: line.address }

mutual

def Node.innerTour (o : Outlet) : Node → List Line
  | .rule _ nodes | .atRule _ _ nodes | .context _ nodes | .atRoot nodes => tourFrom o 0 nodes
  | .declaration .. | .comment _ => []

def tourFrom (o : Outlet) (i : Nat) : List Node → List Line
  | [] => []
  | n :: ns =>
    ⟨[i], o.level, n.opening o.depth⟩ :: (n.innerTour (n.inlet o)).map (Line.under i) ++
      ⟨[i], o.level, n.closing o.depth⟩ :: tourFrom o (i + 1) ns

end

def tour (nodes : List Node) : List Line :=
  tourFrom {} 0 nodes

/-! ### Node by node -/

theorem Node.innerTour_eq (o : Outlet) (node : Node) :
    node.innerTour o = tourFrom o 0 node.children := by
  cases node <;> simp [innerTour, children, children?, tourFrom]

theorem tourFrom_cons (o : Outlet) (i : Nat) (n : Node) (ns : List Node) :
    tourFrom o i (n :: ns) =
      ⟨[i], o.level, n.opening o.depth⟩ :: (tourFrom (n.inlet o) 0 n.children).map (Line.under i) ++
        ⟨[i], o.level, n.closing o.depth⟩ :: tourFrom o (i + 1) ns := by
  rw [tourFrom, Node.innerTour_eq]

theorem tourFrom_append (o : Outlet) (i : Nat) (xs ys : List Node) :
    tourFrom o i (xs ++ ys) = tourFrom o i xs ++ tourFrom o (i + xs.length) ys := by
  induction xs generalizing i with
  | nil => simp [tourFrom]
  | cons n xs ih =>
    rw [List.cons_append, tourFrom, tourFrom, ih, List.length_cons, Nat.add_assoc, Nat.add_comm 1]
    simp

/-! ### The nodes at addresses -/

namespace Address

variable {o : Outlet} {nodes : List Node} {i : Nat} {n : Node} {r : Address}

theorem outlet_cons (h : nodes[i]? = some n) (hr : r ≠ []) :
    outlet o (i :: r) nodes = r.outlet (n.inlet o) n.children := by
  obtain ⟨j, rest, rfl⟩ := List.exists_cons_of_ne_nil hr
  rw [outlet, h]

theorem level_inlet (o : Outlet) (n : Node) : (n.inlet o).level = o.level + (n.inlet {}).level := by
  cases n <;> simp [Node.inlet]

theorem level_outlet (o : Outlet) (a : Address) (nodes : List Node) :
    (a.outlet o nodes).level = o.level + (a.outlet {} nodes).level := by
  match a with
  | [] | [_] => rfl
  | i :: j :: rest =>
    rw [outlet, outlet]
    split
    · rw [level_outlet (Node.inlet o _), level_outlet (Node.inlet {} _), level_inlet, Nat.add_assoc]
    · rfl

end Address

/-! ### What is hoisted -/

theorem Occurrence.isOutermost_under {nodes : List Node} {i : Nat} {n : Node} {o : Occurrence}
    (h : nodes[i]? = some n) (ho : o.address ≠ []) :
    (o.under i).isOutermost nodes = (!n.isAtRoot && o.isOutermost n.children) := by
  simp only [isOutermost, under, Address.outlet_cons h ho, Address.level_outlet (n.inlet {})]
  cases n <;> simp [Node.inlet, Node.isAtRoot]

private theorem filter_isOutermost_inner {nodes : List Node} {i : Nat} {n : Node}
    (h : nodes[i]? = some n) (depth : Nat) :
    ((occurrencesFrom depth 0 n.children).map (Occurrence.under i)).filter
        (Occurrence.isOutermost nodes) =
      if n.isAtRoot then []
      else ((occurrencesFrom depth 0 n.children).filter (Occurrence.isOutermost n.children)).map
        (Occurrence.under i) := by
  have hinner : ∀ o ∈ occurrencesFrom depth 0 n.children,
      (Occurrence.isOutermost nodes ∘ Occurrence.under i) o =
        (!n.isAtRoot && o.isOutermost n.children) := by
    intro o ho
    obtain ⟨j, rest, haddress, -⟩ := exists_index ho
    exact Occurrence.isOutermost_under h (by simp [haddress])
  rw [List.filter_map, List.filter_congr hinner]
  split
  next hroot => simp [hroot]
  next hroot => simp [hroot]

theorem Node.hoisted_eq (n : Node) :
    n.hoisted = if n.isAtRoot then n.children else hoistedAll n.children := by
  cases n <;> rfl

theorem hoists_eq (nodes : List Node) : hoists nodes = hoistedAll nodes := by
  -- the nodes before are kept, so that addresses mean the same at each step
  suffices h : ∀ before depth, ((occurrencesFrom depth before.length nodes).filter
      (Occurrence.isOutermost (before ++ nodes))).flatMap (fun o => o.node.children) =
        hoistedAll nodes from h [] 0
  induction nodes using nodes_induction with
  | nil => simp [occurrencesFrom, hoistedAll]
  | cons n ns ihc ihs =>
    intro before depth
    have hget : (before ++ n :: ns)[before.length]? = some n := by simp
    have hself : Occurrence.isOutermost (before ++ n :: ns) (.under before.length ⟨[], n, depth⟩) =
        n.isAtRoot := by simp [Occurrence.isOutermost, Occurrence.under, Address.outlet]
    have hchildren := ihc [] (n.depthInside depth)
    have hbehind := ihs (before ++ [n]) depth
    rw [List.length_append, List.length_singleton, List.append_assoc, List.singleton_append]
      at hbehind
    rw [occurrencesFrom_cons, List.filter_append, List.flatMap_append, hbehind, hoistedAll,
      Node.hoisted_eq, Node.occurrences, List.map_cons, List.filter_cons, hself,
      filter_isOutermost_inner hget]
    congr 1
    split
    next hroot => simp [Occurrence.under]
    next hroot =>
      rw [List.flatMap_map]
      exact hchildren

/-! ### Printing level by level -/

theorem level_succ (nodes : List Node) (k : Nat) :
    level nodes (k + 1) = level (hoistedAll nodes) k := by
  rw [level, Function.iterate_succ_apply, hoists_eq]
  rfl

private theorem level_succ' (nodes : List Node) (k : Nat) :
    level nodes (k + 1) = hoistedAll (level nodes k) := by
  rw [level, Function.iterate_succ_apply', hoists_eq]
  rfl

private theorem sizeAll_hoistedAll_lt {nodes : List Node} (h : nodes ≠ []) :
    sizeAll (hoistedAll nodes) < sizeAll nodes := by
  obtain ⟨n, ns, rfl⟩ := List.exists_cons_of_ne_nil h
  have hfirst := Node.sizeAll_hoisted_lt n
  have hrest := sizeAll_hoistedAll_le ns
  rw [hoistedAll, sizeAll_append, sizeAll]
  omega

/-- There are finitely many levels: each has fewer nodes than the one before. -/
theorem exists_levels (nodes : List Node) : ∃ count, ∀ k, level nodes k = [] ↔ count ≤ k := by
  by_cases h : nodes = []
  · have hfixed : hoists nodes = nodes := by rw [hoists_eq, h, hoistedAll]
    refine ⟨0, fun k => ?_⟩
    rw [level, Function.iterate_fixed hfixed, h]
    simp
  · obtain ⟨count, hcount⟩ := exists_levels (hoistedAll nodes)
    refine ⟨count + 1, fun k => ?_⟩
    cases k with
    | zero => simp [level, h]
    | succ k => rw [level_succ, hcount, Nat.succ_le_succ_iff]
termination_by sizeAll nodes
decreasing_by exact sizeAll_hoistedAll_lt h

private theorem renderQueue_append (xs ys : List Node) :
    renderQueue (xs ++ ys) = renderAll 0 xs ++ renderQueue (ys ++ hoistedAll xs) := by
  induction xs generalizing ys with
  | nil => simp [renderAll, hoistedAll]
  | cons n xs ih =>
    rw [List.cons_append, renderQueue, List.append_assoc, ih, renderAll, hoistedAll,
      List.append_assoc, String.append_assoc]

theorem renderQueue_level (nodes : List Node) :
    renderQueue nodes = renderAll 0 nodes ++ renderQueue (hoistedAll nodes) := by
  simpa using renderQueue_append nodes []

private theorem toCss_eq_renderQueue (nodes : List Node) : toCss nodes = renderQueue nodes := by
  rw [renderQueue_level, toCss]

theorem toCss_eq_levels (nodes : List Node) (n : Nat) :
    toCss nodes = String.join ((List.range n).map fun k => renderAll 0 (level nodes k)) ++
      renderQueue (level nodes n) := by
  induction n with
  | zero => simp [toCss_eq_renderQueue, level]
  | succ n ih =>
    rw [ih, renderQueue_level, List.range_succ, List.map_append, String.join_append, level_succ']
    simp [String.append_assoc]

/-! ### The text of a tour -/

def levelText (k : Nat) (lines : List Line) : String :=
  String.join ((lines.filter (·.level = k)).map Line.text)

theorem levelText_append (k : Nat) (xs ys : List Line) :
    levelText k (xs ++ ys) = levelText k xs ++ levelText k ys := by
  rw [levelText, List.filter_append, List.map_append, String.join_append]
  rfl

theorem levelText_cons (k : Nat) (line : Line) (lines : List Line) :
    levelText k (line :: lines) =
      (if line.level = k then line.text else "") ++ levelText k lines := by
  unfold levelText
  split
  next h => simp [h]
  next h => simp [h]

private theorem levelText_under (k i : Nat) (lines : List Line) :
    levelText k (lines.map (Line.under i)) = levelText k lines := by
  rw [levelText, List.filter_map, List.map_map]
  rfl

section

variable {k : Nat} {o : Outlet}

theorem levelText_tourFrom_cons (i : Nat) (n : Node) (ns : List Node) :
    levelText k (tourFrom o i (n :: ns)) =
      (if o.level = k then n.opening o.depth else "") ++
        levelText k (tourFrom (n.inlet o) 0 n.children) ++
        (if o.level = k then n.closing o.depth else "") ++ levelText k (tourFrom o (i + 1) ns) := by
  rw [tourFrom_cons, levelText_append, levelText_cons, levelText_under, levelText_cons,
    ← String.append_assoc]

private theorem levelText_tourFrom_index (i j : Nat) (nodes : List Node) :
    levelText k (tourFrom o i nodes) = levelText k (tourFrom o j nodes) := by
  induction nodes generalizing i j with
  | nil => rw [tourFrom, tourFrom]
  | cons n ns ih => rw [levelText_tourFrom_cons, levelText_tourFrom_cons, ih (i + 1) (j + 1)]

theorem levelText_tourFrom_append (i : Nat) (xs ys : List Node) :
    levelText k (tourFrom o i (xs ++ ys)) =
      levelText k (tourFrom o i xs) ++ levelText k (tourFrom o i ys) := by
  rw [tourFrom_append, levelText_append, levelText_tourFrom_index _ i ys]

private theorem le_level_inlet (o : Outlet) (n : Node) : o.level ≤ (n.inlet o).level := by
  rw [Address.level_inlet]
  exact Nat.le_add_right _ _

private theorem levelText_tourFrom_lt (h : k < o.level) (i : Nat) (nodes : List Node) :
    levelText k (tourFrom o i nodes) = "" := by
  induction nodes using nodes_induction generalizing o i with
  | nil => rw [tourFrom]; rfl
  | cons n ns ihc ihs =>
    have hne : o.level ≠ k := by omega
    rw [levelText_tourFrom_cons, if_neg hne, if_neg hne,
      ihc (h.trans_le (le_level_inlet o n)), ihs h]
    rfl

theorem Node.render_eq (o : Outlet) (n : Node) :
    n.render o.depth = n.opening o.depth ++
      (if n.isAtRoot then "" else renderAll (n.inlet o).depth n.children) ++ n.closing o.depth := by
  cases n with
  | declaration property value important =>
    cases value <;> simp [render, opening, closing, isAtRoot, children, children?, renderAll]
  | atRule name params nodes =>
    cases nodes <;> simp [render, opening, closing, isAtRoot, children, children?, renderAll, inlet,
      String.append_assoc]
  | rule | comment | context | atRoot =>
    simp [render, opening, closing, isAtRoot, children, children?, renderAll, inlet,
      String.append_assoc]

private theorem levelText_tourFrom_eq (o : Outlet) (i : Nat) (nodes : List Node) :
    levelText o.level (tourFrom o i nodes) = renderAll o.depth nodes := by
  induction nodes using nodes_induction generalizing o i with
  | nil => rw [tourFrom, renderAll]; rfl
  | cons n ns ihc ihs =>
    have hinner : levelText o.level (tourFrom (n.inlet o) 0 n.children) =
        if n.isAtRoot then "" else renderAll (n.inlet o).depth n.children := by
      split
      next hroot =>
        refine levelText_tourFrom_lt ?_ 0 _
        cases n <;> simp_all [Node.isAtRoot, Node.inlet]
      next hroot =>
        have hlevel : (n.inlet o).level = o.level := by
          cases n <;> simp_all [Node.isAtRoot, Node.inlet]
        rw [← hlevel, ihc]
    rw [levelText_tourFrom_cons, if_pos rfl, if_pos rfl, hinner, ihs, renderAll, Node.render_eq o]

/-- The lines of later levels are those of what is hoisted, which begins at depth zero. -/
theorem levelText_tourFrom_gt (h : o.level < k) (i : Nat) (nodes : List Node) :
    levelText k (tourFrom o i nodes) =
      levelText k (tourFrom { level := o.level + 1 } 0 (hoistedAll nodes)) := by
  induction nodes using nodes_induction generalizing o i with
  | nil => rw [hoistedAll, tourFrom, tourFrom]
  | cons n ns ihc ihs =>
    have hne : o.level ≠ k := by omega
    have hinner : levelText k (tourFrom (n.inlet o) 0 n.children) =
        levelText k (tourFrom { level := o.level + 1 } 0 n.hoisted) := by
      rw [Node.hoisted_eq]
      split
      next hroot => cases n <;> simp_all [Node.isAtRoot, Node.inlet]
      next hroot =>
        have hlevel : (n.inlet o).level = o.level := by
          cases n <;> simp_all [Node.isAtRoot, Node.inlet]
        rw [ihc (hlevel ▸ h), hlevel]
    rw [levelText_tourFrom_cons, if_neg hne, if_neg hne, hinner, ihs h, hoistedAll,
      levelText_tourFrom_append]
    simp

theorem levelText_tourFrom_level (m k : Nat) (nodes : List Node) :
    levelText (m + k) (tourFrom { level := m } 0 nodes) = renderAll 0 (level nodes k) := by
  induction k generalizing m nodes with
  | zero => exact levelText_tourFrom_eq { level := m } 0 nodes
  | succ k ih =>
    rw [levelText_tourFrom_gt (by simp), level_succ, ← ih (m + 1), Nat.add_right_comm,
      Nat.add_assoc m k 1]

end

/-! ### The lines of a node -/

/-- The lines that a node prints: one before and one behind its children. -/
def Node.lines (a : Address) (o : Outlet) (n : Node) : List Line :=
  [⟨a, o.level, n.opening o.depth⟩, ⟨a, o.level, n.closing o.depth⟩]

def linesAt (a : Address) (lines : List Line) : List Line :=
  lines.filter (·.address = a)

theorem linesAt_append (a : Address) (xs ys : List Line) :
    linesAt a (xs ++ ys) = linesAt a xs ++ linesAt a ys :=
  List.filter_append ..

theorem linesAt_cons (a : Address) (line : Line) (lines : List Line) :
    linesAt a (line :: lines) = (if line.address = a then [line] else []) ++ linesAt a lines := by
  unfold linesAt
  split
  next h => simp [h]
  next h => simp [h]

private theorem linesAt_under (i : Nat) (r : Address) (lines : List Line) :
    linesAt (i :: r) (lines.map (Line.under i)) = (linesAt r lines).map (Line.under i) := by
  rw [linesAt, List.filter_map, linesAt]
  congr 2
  funext line
  simp [Line.under]

section

variable {o : Outlet} {i : Nat} {nodes : List Node}

theorem head_of_mem_tourFrom {line : Line} (h : line ∈ tourFrom o i nodes) :
    ∃ j r, line.address = j :: r ∧ i ≤ j ∧ j < i + nodes.length := by
  induction nodes generalizing i with
  | nil => simp [tourFrom] at h
  | cons n ns ih =>
    rw [tourFrom, List.mem_append, List.mem_cons, List.mem_map, List.mem_cons] at h
    rcases h with (rfl | ⟨inner, _, rfl⟩) | rfl | h
    · exact ⟨i, [], rfl, by simp⟩
    · exact ⟨i, inner.address, rfl, by simp⟩
    · exact ⟨i, [], rfl, by simp⟩
    · obtain ⟨j, r, heq, hle, hlt⟩ := ih h
      exact ⟨j, r, heq, by omega, by simp; omega⟩

theorem linesAt_nil_tourFrom : linesAt [] (tourFrom o i nodes) = [] := by
  refine List.filter_eq_nil_iff.2 fun line hline => ?_
  obtain ⟨j, r, heq, -⟩ := head_of_mem_tourFrom hline
  simp [heq]

theorem linesAt_tourFrom_of_outside {j : Nat} (h : j < i ∨ i + nodes.length ≤ j) (r : Address) :
    linesAt (j :: r) (tourFrom o i nodes) = [] := by
  refine List.filter_eq_nil_iff.2 fun line hline => ?_
  obtain ⟨j', r', heq, hle, hlt⟩ := head_of_mem_tourFrom hline
  simp only [heq, decide_eq_true_eq, List.cons.injEq, not_and]
  omega

theorem linesAt_tourFrom {n : Node} (h : nodes[i]? = some n) (r : Address) :
    linesAt (i :: r) (tourFrom o 0 nodes) = linesAt (i :: r) (tourFrom o i [n]) := by
  obtain ⟨hlt, rfl⟩ := List.getElem?_eq_some_iff.1 h
  have hsplit : nodes = nodes.take i ++ ([nodes[i]] ++ nodes.drop (i + 1)) := by simp
  have hlength : (nodes.take i).length = i := by simp; omega
  conv_lhs => rw [hsplit]
  have hbefore : linesAt (i :: r) (tourFrom o 0 (nodes.take i)) = [] :=
    linesAt_tourFrom_of_outside (.inr (by omega)) r
  have hbehind : linesAt (i :: r) (tourFrom o (i + 1) (nodes.drop (i + 1))) = [] :=
    linesAt_tourFrom_of_outside (.inl (by omega)) r
  rw [tourFrom_append, tourFrom_append, linesAt_append, linesAt_append, hlength, Nat.zero_add,
    List.length_singleton, hbefore, hbehind, List.nil_append, List.append_nil]

theorem linesAt_tourFrom_singleton (n : Node) (r : Address) :
    linesAt (i :: r) (tourFrom o i [n]) =
      if r = [] then n.lines [i] o
      else (linesAt r (tourFrom (n.inlet o) 0 n.children)).map (Line.under i) := by
  rw [tourFrom_cons, linesAt_append, linesAt_cons, linesAt_cons, linesAt_under, tourFrom]
  cases r with
  | nil =>
    rw [linesAt_nil_tourFrom]
    simp [linesAt, Node.lines]
  | cons => simp [linesAt]

end

theorem linesAt_tour (o : Outlet) (a : Address) (nodes : List Node) :
    linesAt a (tourFrom o 0 nodes) =
      ((a.get? nodes).map (Node.lines a (a.outlet o nodes))).getD [] := by
  match a with
  | [] => exact linesAt_nil_tourFrom
  | [i] =>
    rw [Address.get?]
    cases hn : nodes[i]? with
    | none => exact linesAt_tourFrom_of_outside (by simpa using hn) []
    | some n =>
      rw [linesAt_tourFrom hn, linesAt_tourFrom_singleton, if_pos rfl]
      rfl
  | i :: j :: rest =>
    cases hn : nodes[i]? with
    | none =>
      rw [linesAt_tourFrom_of_outside (by simpa using hn)]
      simp [Address.get?, hn]
    | some n =>
      have hne : j :: rest ≠ [] := List.cons_ne_nil j rest
      rw [linesAt_tourFrom hn, linesAt_tourFrom_singleton, if_neg hne, linesAt_tour,
        Address.get?_cons hn hne, Address.outlet_cons hn hne]
      cases Address.get? (j :: rest) n.children <;> rfl

/-- A document is printed level by level, and there are finitely many. A level shows those nodes of
the document, in its order, that have as many at-root nodes around them. Each node prints its two
lines, once, indented by the blocks around it inside of the last at-root node. -/
theorem toCss_levels (nodes : List Node) :
    ∃ count, (∀ k, level nodes k = [] ↔ count ≤ k) ∧
      toCss nodes = String.join ((List.range count).map fun k => renderAll 0 (level nodes k)) ∧
      (∀ k, renderAll 0 (level nodes k) =
        String.join (((tour nodes).filter (·.level = k)).map Line.text)) ∧
      ∀ a, (tour nodes).filter (·.address = a) =
        ((a.get? nodes).map (Node.lines a (a.outlet {} nodes))).getD [] := by
  obtain ⟨count, hcount⟩ := exists_levels nodes
  refine ⟨count, hcount, ?_, fun k => ?_, fun a => linesAt_tour {} a nodes⟩
  · rw [toCss_eq_levels nodes count, (hcount count).2 (Nat.le_refl count), renderQueue,
      String.append_empty]
  · have htext := levelText_tourFrom_level 0 k nodes
    rw [Nat.zero_add] at htext
    exact htext.symm

end UtilityCss
