import UtilityCss.Proofs.HoistLevels

/-!
Changing a node that was found. The node at its address becomes another one, and what stands neither
around it nor inside of it stays as it was.
-/
namespace UtilityCss

theorem Node.children?_inside (g : List Node → List Node) (node : Node) :
    (node.inside g).children? = node.children?.map g := by
  cases node <;> rfl

namespace Address

theorem get?_cons_cons (i j : Nat) (rest : Address) (nodes : List Node) :
    get? (i :: j :: rest) nodes = (nodes[i]?.bind Node.children?).bind (get? (j :: rest)) := by
  rw [get?]
  cases nodes[i]? <;> rfl

theorem get?_modify_cons_cons (f : Node → Node) (i j k : Nat) (a b : Address) (nodes : List Node) :
    get? (i :: k :: b) (modify f (i :: j :: a) nodes) =
      (nodes[i]?.bind Node.children?).bind fun children =>
        get? (k :: b) (modify f (j :: a) children) := by
  rw [get?_cons_cons, modify_cons_cons, List.getElem?_modify_eq]
  cases nodes[i]? with
  | none => rfl
  | some node =>
    simp only [Option.map_eq_map, Option.map_some, Option.bind_some, Node.children?_inside]
    cases node.children? <;> rfl

theorem get?_modify_self (f : Node → Node) (a : Address) (nodes : List Node) :
    a.get? (a.modify f nodes) = (a.get? nodes).map f := by
  match a with
  | [] => rfl
  | [i] => exact List.getElem?_modify_eq f i nodes
  | i :: j :: rest =>
    rw [get?_modify_cons_cons, get?_cons_cons]
    cases nodes[i]?.bind Node.children? with
    | none => rfl
    | some children => exact get?_modify_self f (j :: rest) children

private theorem getElem?_modify_of_ne (f : Node → Node) {i k : Nat} (h : i ≠ k) (a : Address)
    (nodes : List Node) : (modify f (i :: a) nodes)[k]? = nodes[k]? := by
  cases a <;> exact List.getElem?_modify_ne _ _ h

private theorem get?_modify_of_apart (f : Node → Node) {a b : Address} (hba : ¬b <+: a)
    (hab : ¬a <+: b) (nodes : List Node) : b.get? (a.modify f nodes) = b.get? nodes := by
  induction a generalizing b nodes with
  | nil => exact absurd List.nil_prefix hab
  | cons i a ih =>
    cases b with
    | nil => exact absurd List.nil_prefix hba
    | cons k b =>
      by_cases h : i = k
      · subst h
        rw [List.cons_prefix_cons, not_and] at hba hab
        replace hba := hba rfl
        replace hab := hab rfl
        -- both addresses go on, since the empty one is the beginning of every other
        cases a with
        | nil => exact absurd List.nil_prefix hab
        | cons j a =>
          cases b with
          | nil => exact absurd List.nil_prefix hba
          | cons k b =>
            rw [get?_modify_cons_cons, get?_cons_cons]
            cases nodes[i]?.bind Node.children? with
            | none => rfl
            | some children => exact ih hba hab children
      · have hkept := getElem?_modify_of_ne f h a nodes
        cases b with
        | nil => exact hkept
        | cons l b => rw [get?_cons_cons, get?_cons_cons, hkept]

/-- The nodes at the addresses of a document are those that occur in it, in pre-order by their
addresses. A search finds nothing exactly if none of them is looked for, and otherwise the address
of the first one that is. A change reaches the node at its address if there is one, and nothing that
stands apart. -/
theorem found_first (p : Node → Bool) (nodes : List Node) :
    (∀ a node, get? a nodes = some node ↔ ∃ o ∈ occurrences nodes, o.address = a ∧ o.node = node) ∧
    ((occurrences nodes).Pairwise fun o o' => o.address < o'.address) ∧
    (find? p nodes = none ↔ ∀ o ∈ occurrences nodes, p o.node = false) ∧
    (∀ a, find? p nodes = some a → ∃ before o after, occurrences nodes = before ++ o :: after ∧
      o.address = a ∧ a.get? nodes = some o.node ∧ p o.node = true ∧
        ∀ o' ∈ before, p o'.node = false) ∧
    ∀ (a : Address) (f : Node → Node), a.get? (a.modify f nodes) = (a.get? nodes).map f ∧
      (a.get? nodes = none → a.modify f nodes = nodes) ∧
      ∀ b : Address, ¬b <+: a → ¬a <+: b → b.get? (a.modify f nodes) = b.get? nodes := by
  have hfind :
      find? p nodes = ((occurrences nodes).find? fun o => p o.node).map Occurrence.address :=
    findAll?_eq p 0 0 nodes
  refine ⟨fun a node => get?_eq_some_iff, pairwise_occurrencesFrom 0 0 nodes, ?_, fun a ha => ?_,
    fun a f => ⟨get?_modify_self f a nodes, fun hnone => ?_, fun b hba hab =>
      get?_modify_of_apart f hba hab nodes⟩⟩
  · rw [hfind]
    simp
  · rw [hfind] at ha
    obtain ⟨o, ho, rfl⟩ := Option.map_eq_some_iff.1 ha
    obtain ⟨hp, before, after, hsplit, hbefore⟩ := List.find?_eq_some_iff_append.1 ho
    have hmem : o ∈ occurrences nodes := by simp [hsplit]
    exact ⟨before, o, after, hsplit, rfl, get?_eq_some_iff.2 ⟨o, hmem, rfl, rfl⟩, hp,
      fun o' ho' => by simpa using hbefore o' ho'⟩
  · refine modify_eq_self fun node hnode => ?_
    rw [hnone] at hnode
    cases hnode

theorem found_first_atRoot :
    find? Node.isAtRoot (layeredTree []) = some [0, 1] ∧
    (∃ before o after, occurrences (layeredTree []) = before ++ o :: after ∧ o.address = [0, 1] ∧
      get? [0, 1] (layeredTree []) = some o.node ∧ o.node.isAtRoot = true ∧
      ∀ o' ∈ before, o'.node.isAtRoot = false) ∧
    get? [0, 1] (modify (fun _ => .comment "here") [0, 1] (layeredTree [])) =
      some (.comment "here") ∧
    ¬[0, 0] <+: [0, 1] ∧ ¬[0, 1] <+: [0, 0] ∧
    get? [0, 0] (modify (fun _ => .comment "here") [0, 1] (layeredTree [])) =
      some (.rule ":root" [.decl "--animate-x" "x"]) := by
  obtain ⟨-, -, -, hfirst, hchange⟩ := found_first Node.isAtRoot (layeredTree [])
  obtain ⟨hnew, -, hapart⟩ := hchange [0, 1] fun _ => .comment "here"
  have hfound : find? Node.isAtRoot (layeredTree []) = some [0, 1] := rfl
  have hbefore : ¬[0, 0] <+: [0, 1] := by decide
  have hbehind : ¬[0, 1] <+: [0, 0] := by decide
  exact ⟨hfound, hfirst _ hfound, hnew, hbefore, hbehind, hapart _ hbefore hbehind⟩

end Address

end UtilityCss
