/-!
Counting what is left to do. A search that never takes an item twice ends, because each step leaves
fewer items.
-/
namespace UtilityCss

theorem length_filter_lt {α : Type} {weak strong : α → Bool} {xs : List α} {a : α}
    (himp : ∀ x ∈ xs, strong x = true → weak x = true) (hmem : a ∈ xs)
    (hweak : weak a = true) (hstrong : strong a = false) :
    (xs.filter strong).length < (xs.filter weak).length := by
  induction xs with
  | nil => simp at hmem
  | cons x xs ih =>
    have himp' : ∀ y ∈ xs, strong y = true → weak y = true :=
      fun y hy => himp y (List.mem_cons_of_mem _ hy)
    have hle : (xs.filter strong).length ≤ (xs.filter weak).length := by
      rw [← List.countP_eq_length_filter, ← List.countP_eq_length_filter]
      exact List.countP_mono_left himp'
    rcases List.mem_cons.1 hmem with rfl | hmem
    · simp only [List.filter_cons, hweak, hstrong]
      simp
      omega
    · have hlt := ih himp' hmem
      have hx := himp x List.mem_cons_self
      by_cases hs : strong x = true
      · simp only [List.filter_cons_of_pos hs, List.filter_cons_of_pos (hx hs), List.length_cons]
        omega
      · by_cases hw : weak x = true
        · simp only [List.filter_cons_of_neg hs, List.filter_cons_of_pos hw, List.length_cons]
          omega
        · simpa only [List.filter_cons_of_neg hs, List.filter_cons_of_neg hw] using hlt

end UtilityCss
