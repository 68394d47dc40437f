import Mathlib.Data.List.Forall2
import UtilityCss.Proofs.VariantOrder

/-!
Stable sorting. A sorted list is determined by the order of its members within each class of members
that compare equal, and a stable sort leaves these classes alone. So what is sorted may be
restricted before or after it is sorted.
-/
namespace UtilityCss

open Std (TransCmp OrientedCmp)

theorem nodup_eraseDups {α : Type} [BEq α] [LawfulBEq α] (xs : List α) : xs.eraseDups.Nodup := by
  match xs with
  | [] => simp
  | x :: xs =>
    rw [List.eraseDups_cons, List.nodup_cons]
    refine ⟨?_, nodup_eraseDups _⟩
    simp
termination_by xs.length
decreasing_by
  have := List.length_filter_le (fun b => !b == x) xs
  simp only [List.length_cons]
  omega

theorem eraseDups_map {α β : Type} [BEq α] [LawfulBEq α] [BEq β] [LawfulBEq β]
    {f : α → β} {xs : List α}
    (h : ∀ a ∈ xs, ∀ b ∈ xs, f a = f b → a = b) : (xs.map f).eraseDups = xs.eraseDups.map f := by
  match xs with
  | [] => rfl
  | x :: xs =>
    have hfilter : (xs.map f).filter (fun b => !b == f x) = (xs.filter fun b => !b == x).map f := by
      rw [List.filter_map]
      congr 1
      apply List.filter_congr
      intro a ha
      have hbeq : (f a == f x) = (a == x) := by
        rw [Bool.eq_iff_iff, beq_iff_eq, beq_iff_eq]
        exact ⟨h a (List.mem_cons_of_mem _ ha) x List.mem_cons_self, congrArg f⟩
      rw [Function.comp_apply, hbeq]
    rw [List.map_cons, List.eraseDups_cons, List.eraseDups_cons, hfilter, List.map_cons,
      eraseDups_map]
    intro a ha b hb
    exact h a (List.mem_cons_of_mem _ (List.mem_filter.1 ha).1) b
      (List.mem_cons_of_mem _ (List.mem_filter.1 hb).1)
termination_by xs.length
decreasing_by
  have := List.length_filter_le (fun b => !b == x) xs
  simp only [List.length_cons]
  omega

section Sorting

variable {α : Type} {cmp : α → α → Ordering}

def sortBy (cmp : α → α → Ordering) (xs : List α) : List α :=
  xs.mergeSort fun a b => (cmp a b).isLE

def classOf (cmp : α → α → Ordering) (x : α) (xs : List α) : List α :=
  xs.filter fun y => cmp x y == .eq

theorem sortBy_perm (cmp : α → α → Ordering) (xs : List α) : (sortBy cmp xs).Perm xs :=
  List.mergeSort_perm xs _

theorem map_sortBy {β : Type} {cmp' : β → β → Ordering} {f : α → β} (xs : List α)
    (h : ∀ a ∈ xs, ∀ b ∈ xs, cmp a b = cmp' (f a) (f b)) :
    (sortBy cmp xs).map f = sortBy cmp' (xs.map f) :=
  List.map_mergeSort fun a ha b hb => by rw [h a ha b hb]

theorem sortBy_congr {cmp' : α → α → Ordering} {xs : List α}
    (h : ∀ a ∈ xs, ∀ b ∈ xs, cmp a b = cmp' a b) : sortBy cmp xs = sortBy cmp' xs := by
  simpa only [List.map_id] using map_sortBy (f := id) xs h

theorem forall₂_sortBy {β : Type} {R : α → β → Prop} {cmp' : β → β → Ordering} {xs : List α}
    {ys : List β} (h : List.Forall₂ R xs ys)
    (hcmp : ∀ a ∈ xs, ∀ b ∈ xs, ∀ a' b', R a a' → R b b' → cmp a b = cmp' a' b') :
    List.Forall₂ R (sortBy cmp xs) (sortBy cmp' ys) := by
  obtain ⟨hlength, hpairs⟩ := List.forall₂_iff_zip.1 h
  let pairs := xs.zip ys
  let left (p q : α × β) : Ordering := cmp p.1 q.1
  have hleft : (sortBy left pairs).map Prod.fst = sortBy cmp (pairs.map Prod.fst) :=
    map_sortBy pairs fun _ _ _ _ => rfl
  have hright : (sortBy left pairs).map Prod.snd = sortBy cmp' (pairs.map Prod.snd) := by
    apply map_sortBy pairs
    intro p hp q hq
    exact hcmp p.1 (List.of_mem_zip hp).1 q.1 (List.of_mem_zip hq).1 p.2 q.2 (hpairs hp) (hpairs hq)
  rw [List.map_fst_zip hlength.le] at hleft
  rw [List.map_snd_zip hlength.ge] at hright
  rw [← hleft, ← hright, List.forall₂_map_left_iff, List.forall₂_map_right_iff, List.forall₂_same]
  intro p hp
  exact hpairs ((sortBy_perm left pairs).mem_iff.1 hp)

theorem mem_classOf {x y : α} {xs : List α} : y ∈ classOf cmp x xs ↔ y ∈ xs ∧ cmp x y = .eq := by
  simp [classOf]

theorem classOf_cons_of_eq {x a : α} (h : cmp x a = .eq) (xs : List α) :
    classOf cmp x (a :: xs) = a :: classOf cmp x xs := by
  simp [classOf, h]

theorem classOf_cons_of_ne {x a : α} (h : cmp x a ≠ .eq) (xs : List α) :
    classOf cmp x (a :: xs) = classOf cmp x xs := by
  simp [classOf, h]

variable [TransCmp cmp]

theorem isLE_or_isLE (a b : α) : ((cmp a b).isLE || (cmp b a).isLE) = true := by
  have hswap : cmp b a = (cmp a b).swap := OrientedCmp.eq_swap
  rw [hswap]
  cases cmp a b <;> rfl

theorem pairwise_sortBy (xs : List α) :
    (sortBy cmp xs).Pairwise fun a b => (cmp a b).isLE = true :=
  List.pairwise_mergeSort (fun _ _ _ => TransCmp.isLE_trans) isLE_or_isLE xs

theorem classOf_sortBy (x : α) (xs : List α) :
    classOf cmp x (sortBy cmp xs) = classOf cmp x xs := by
  have hle : (classOf cmp x xs).Pairwise fun a b => (cmp a b).isLE = true := by
    refine List.pairwise_of_forall_mem_list fun a ha b hb => ?_
    have hab : cmp a b = .eq :=
      TransCmp.eq_trans (OrientedCmp.eq_symm (mem_classOf.1 ha).2) (mem_classOf.1 hb).2
    rw [hab]
    rfl
  have hsub : (classOf cmp x xs).Sublist (sortBy cmp xs) :=
    List.sublist_mergeSort (fun _ _ _ => TransCmp.isLE_trans) isLE_or_isLE hle List.filter_sublist
  have hsub' : (classOf cmp x xs).Sublist (classOf cmp x (sortBy cmp xs)) := by
    have hself : (classOf cmp x xs).filter (fun y => cmp x y == .eq) = classOf cmp x xs :=
      List.filter_eq_self.2 fun y hy => by simp [(mem_classOf.1 hy).2]
    have := hsub.filter fun y => cmp x y == .eq
    rwa [hself] at this
  exact (hsub'.eq_of_length ((sortBy_perm cmp xs).filter _).length_eq.symm).symm

private theorem eq_of_classOf {xs ys : List α} (hxs : xs.Pairwise fun a b => (cmp a b).isLE = true)
    (hys : ys.Pairwise fun a b => (cmp a b).isLE = true)
    (h : ∀ x, classOf cmp x xs = classOf cmp x ys) : xs = ys := by
  have hself : ∀ x : α, cmp x x = .eq := fun x => Std.ReflCmp.compare_self
  induction xs generalizing ys with
  | nil =>
    cases ys with
    | nil => rfl
    | cons y ys =>
      have := h y
      rw [classOf_cons_of_eq (hself y)] at this
      cases this
  | cons x xs ih =>
    cases ys with
    | nil =>
      have := h x
      rw [classOf_cons_of_eq (hself x)] at this
      cases this
    | cons y ys =>
      -- Each head is a member of the other list, so each is at most the other.
      have hx : x ∈ y :: ys := by
        have : x ∈ classOf cmp x (y :: ys) := by
          rw [← h x]
          exact mem_classOf.2 ⟨List.mem_cons_self, hself x⟩
        exact (mem_classOf.1 this).1
      have hy : y ∈ x :: xs := by
        have : y ∈ classOf cmp y (x :: xs) := by
          rw [h y]
          exact mem_classOf.2 ⟨List.mem_cons_self, hself y⟩
        exact (mem_classOf.1 this).1
      have hxy : (cmp x y).isLE = true := by
        rcases List.mem_cons.1 hy with rfl | hy
        · simp [hself]
        · exact (List.pairwise_cons.1 hxs).1 y hy
      have hyx : (cmp y x).isLE = true := by
        rcases List.mem_cons.1 hx with rfl | hx
        · simp [hself]
        · exact (List.pairwise_cons.1 hys).1 x hx
      have heq : cmp x y = .eq := OrientedCmp.isLE_antisymm hxy hyx
      obtain ⟨rfl, -⟩ : x = y ∧ classOf cmp x xs = classOf cmp x ys := by
        have := h x
        rw [classOf_cons_of_eq (hself x), classOf_cons_of_eq heq] at this
        exact List.cons_eq_cons.1 this
      congr 1
      refine ih (List.pairwise_cons.1 hxs).2 (List.pairwise_cons.1 hys).2 fun z => ?_
      have hz := h z
      by_cases hzx : cmp z x = .eq
      · rw [classOf_cons_of_eq hzx, classOf_cons_of_eq hzx] at hz
        exact (List.cons_eq_cons.1 hz).2
      · rwa [classOf_cons_of_ne hzx, classOf_cons_of_ne hzx] at hz

theorem filter_sortBy {p : α → Bool} {xs ys : List α}
    (h : ∀ x, classOf cmp x (xs.filter p) = classOf cmp x ys) :
    (sortBy cmp xs).filter p = sortBy cmp ys := by
  have hcomm : ∀ x (zs : List α), classOf cmp x (zs.filter p) = (classOf cmp x zs).filter p := by
    intro x zs
    simp only [classOf, List.filter_filter, Bool.and_comm]
  have hxs : ((sortBy cmp xs).filter p).Pairwise fun a b => (cmp a b).isLE = true :=
    (pairwise_sortBy xs).filter p
  refine eq_of_classOf hxs (pairwise_sortBy ys) fun x => ?_
  rw [hcomm, classOf_sortBy, ← hcomm, h x, classOf_sortBy]

end Sorting

end UtilityCss
