import UtilityCss.Text.Basic

/-!
Ways to split a class name into the name of a utility or variant and a value.
-/
namespace UtilityCss

def dashSplits : List Char → List (List Char × List Char)
  | [] => []
  | c :: cs =>
    (if c = '-' then [([], cs)] else []) ++ (dashSplits cs).map fun (root, value) =>
      (c :: root, value)

def rootSplits (s : String) : List (String × String) :=
  ((dashSplits s.toList).reverse.filter fun (root, _) => !root.isEmpty).map fun (root, value) =>
    (String.ofList root, String.ofList value)

/-- The known names at the start of a text with the value behind each, the longest name first. If a
known name is followed by a hyphen and nothing else, no shorter name counts. -/
def findRoots (known : String → Bool) (s : String) : List (String × Option String) :=
  let splits := (rootSplits s).filter fun (root, _) => known root
  (if known s then [(s, none)] else []) ++
    (splits.takeWhile fun (_, value) => !value.isEmpty).map fun (root, value) => (root, some value)

theorem length_lt_of_mem_dashSplits {root value cs : List Char}
    (h : (root, value) ∈ dashSplits cs) : value.length < cs.length := by
  induction cs generalizing root with
  | nil => simp [dashSplits] at h
  | cons c cs ih =>
    simp only [dashSplits, List.mem_append, List.mem_map, Prod.mk.injEq] at h
    rcases h with h | ⟨⟨r, v⟩, hmem, _, rfl⟩
    · split at h <;> simp_all
    · exact Nat.lt_succ_of_lt (ih hmem)

theorem length_lt_of_mem_findRoots {known : String → Bool} {root value s : String}
    (h : (root, some value) ∈ findRoots known s) : value.toList.length < s.toList.length := by
  simp only [findRoots, List.mem_append, List.mem_map, Prod.mk.injEq, Option.some.injEq] at h
  rcases h with h | ⟨⟨r, v⟩, hmem, _, rfl⟩
  · split at h <;> simp at h
  · have hsplit := (List.mem_filter.1 ((List.takeWhile_sublist _).subset hmem)).1
    simp only [rootSplits, List.mem_map, Prod.mk.injEq] at hsplit
    obtain ⟨⟨r', v'⟩, hmem', _, rfl⟩ := hsplit
    simpa using length_lt_of_mem_dashSplits (List.mem_reverse.1 (List.mem_filter.1 hmem').1)

end UtilityCss
