import Mathlib.Data.List.TakeWhile
import UtilityCss.Proofs.WordText

/-!
What the words of a text leave out. White space outside brackets, quotes and escapes cuts a text
into stretches. A word is a stretch without the closing brackets in front of it, so nothing but
white space is lost exactly if no stretch begins with such a bracket.
-/
namespace UtilityCss.Text

def WordScan.trail (w : WordScan) : List Char → List (WordScan × Char)
  | [] => []
  | c :: cs => (w, c) :: (w.step c).trail cs

/-- A text without the white space that ends words. -/
def unspaced (s : String) : String :=
  String.ofList (((WordScan.trail {} s.toList).filter fun m => !m.1.breaks m.2).map Prod.snd)

def stretchesFrom (w : WordScan) (cs : List Char) : List (List Char) :=
  ((w.trail cs).splitOnP fun m => m.1.breaks m.2).map (List.map Prod.snd)

/-- What stands between the white space that ends words. There is always at least one stretch. -/
def stretches (s : String) : List String :=
  (stretchesFrom {} s.toList).map String.ofList

def dropClosers (s : String) : String :=
  String.ofList (s.toList.dropWhile isCloser)

/-! ### Stretches -/

private theorem stretchesFrom_ne_nil (w : WordScan) (cs : List Char) : stretchesFrom w cs ≠ [] := by
  simp [stretchesFrom, List.splitOnP_ne_nil]

theorem stretchesFrom_cons (w : WordScan) (c : Char) (cs : List Char) :
    stretchesFrom w (c :: cs) =
      if w.breaks c then [] :: stretchesFrom (w.step c) cs
      else (stretchesFrom (w.step c) cs).modifyHead (c :: ·) := by
  rw [stretchesFrom, WordScan.trail, List.splitOnP_cons_eq_if_modifyHead]
  split
  · rfl
  · obtain ⟨first, later, h⟩ := List.exists_cons_of_ne_nil
      (List.splitOnP_ne_nil (fun m : WordScan × Char => m.1.breaks m.2) ((w.step c).trail cs))
    simp [stretchesFrom, h]

theorem flatten_stretchesFrom (w : WordScan) (cs : List Char) :
    (stretchesFrom w cs).flatten =
      ((w.trail cs).filter fun m => !m.1.breaks m.2).map Prod.snd := by
  induction cs generalizing w with
  | nil => rfl
  | cons c cs ih =>
    have hrest := ih (w.step c)
    rw [stretchesFrom_cons, WordScan.trail]
    split
    next hbreaks => simpa [hbreaks] using hrest
    next hbreaks =>
      obtain ⟨first, later, h⟩ := List.exists_cons_of_ne_nil (stretchesFrom_ne_nil (w.step c) cs)
      rw [h] at hrest ⊢
      simpa [hbreaks] using hrest

/-- What closing brackets in front leave of some stretches, where they leave anything. -/
def remnants (parts : List (List Char)) : List (List Char) :=
  (parts.map (List.dropWhile isCloser)).filter fun part => !part.isEmpty

private theorem remnants_nil_cons (parts : List (List Char)) :
    remnants ([] :: parts) = remnants parts := rfl

private theorem remnants_cons_cons (c : Char) (part : List Char) (parts : List (List Char)) :
    remnants ((c :: part) :: parts) =
      if isCloser c then remnants (part :: parts) else (c :: part) :: remnants parts := by
  cases h : isCloser c <;> simp [remnants, h]

/-- Where no word is under way, closing brackets are passed over. A word that is under way takes in
the rest of its stretch. -/
theorem wordsFrom_eq_remnants (cs : List Char) :
    (wordsFrom {} false cs).2 = remnants (stretchesFrom {} cs) ∧
      ∀ w, ∃ later, stretchesFrom w cs = (wordsFrom w true cs).1 :: later ∧
        (wordsFrom w true cs).2 = remnants later := by
  induction cs with
  | nil => exact ⟨rfl, fun w => ⟨[], rfl, rfl⟩⟩
  | cons c cs ih =>
    obtain ⟨hfresh, hunder⟩ := ih
    constructor
    · rw [wordsFrom, stretchesFrom_cons]
      split
      next hbreaks => rw [WordScan.step_of_breaks hbreaks, hfresh, remnants_nil_cons]
      next =>
        obtain ⟨later, hstretches, hwords⟩ := hunder (WordScan.step {} c)
        have hbegins : WordScan.begins {} c = !isCloser c := by
          simp [WordScan.begins, WordScan.isOpen]
        rw [if_neg Bool.false_ne_true, hstretches, List.modifyHead_cons,
          remnants_cons_cons, ← hstretches, hbegins]
        cases hcloser : isCloser c with
        | false =>
          dsimp only
          rw [hwords]
          rfl
        | true =>
          rw [hcloser] at hbegins
          rw [WordScan.step_of_not_begins hbegins]
          exact hfresh
    · intro w
      rw [wordsFrom, stretchesFrom_cons]
      split
      next hbreaks =>
        rw [WordScan.step_of_breaks hbreaks]
        exact ⟨stretchesFrom {} cs, rfl, hfresh⟩
      next =>
        obtain ⟨later, hstretches, hwords⟩ := hunder (w.step c)
        exact ⟨later, by rw [hstretches]; rfl, hwords⟩

/-! ### What is lost -/

private theorem flatten_remnants (parts : List (List Char)) :
    (remnants parts).flatten = (parts.map (List.dropWhile isCloser)).flatten :=
  List.flatten_filter_not_isEmpty

private theorem dropWhile_isCloser_eq_self_iff {part : List Char} :
    part.dropWhile isCloser = part ↔ ∀ c ∈ part.head?, isCloser c = false := by
  rw [List.dropWhile_eq_self_iff]
  cases part <;> simp

private theorem length_flatten_dropWhile_le (parts : List (List Char)) :
    (parts.map (List.dropWhile isCloser)).flatten.length ≤ parts.flatten.length := by
  induction parts with
  | nil => exact Nat.le_refl 0
  | cons part parts ih =>
    have hpart := (List.dropWhile_sublist isCloser (l := part)).length_le
    simp only [List.map_cons, List.flatten_cons, List.length_append]
    omega

/-- As no stretch gets longer, all together are kept only if each of them is. -/
theorem flatten_remnants_eq_iff (parts : List (List Char)) :
    (remnants parts).flatten = parts.flatten ↔
      ∀ part ∈ parts, ∀ c ∈ part.head?, isCloser c = false := by
  rw [flatten_remnants]
  induction parts with
  | nil => simp
  | cons part parts ih =>
    rw [List.forall_mem_cons, ← ih, ← dropWhile_isCloser_eq_self_iff, List.map_cons,
      List.flatten_cons, List.flatten_cons]
    constructor
    · intro h
      have hpart := (List.dropWhile_sublist isCloser (l := part)).length_le
      have hparts := length_flatten_dropWhile_le parts
      have htotal := congrArg List.length h
      rw [List.length_append, List.length_append] at htotal
      exact List.append_inj h (by omega)
    · rintro ⟨hpart, hparts⟩
      rw [hpart, hparts]

/-! ### Words -/

theorem words_eq_map_remnants (s : String) :
    words s = (remnants (stretchesFrom {} s.toList)).map String.ofList := by
  rw [words, (wordsFrom_eq_remnants s.toList).1]

theorem join_map_ofList (parts : List (List Char)) :
    String.join (parts.map String.ofList) = String.ofList parts.flatten := by
  apply String.toList_injective
  simp [List.flatMap_def]

theorem join_stretches (s : String) : String.join (stretches s) = unspaced s := by
  rw [stretches, join_map_ofList, flatten_stretchesFrom, unspaced]

theorem words_eq_filter (s : String) :
    words s = ((stretches s).map dropClosers).filter (· ≠ "") := by
  have hdrop : dropClosers ∘ String.ofList = String.ofList ∘ List.dropWhile isCloser := by
    funext part
    simp [dropClosers]
  have hempty : (fun part => !part.isEmpty) = (fun word => decide (word ≠ "")) ∘ String.ofList := by
    funext part
    cases part <;> simp
  rw [words_eq_map_remnants, remnants, hempty, ← List.filter_map, stretches,
    List.map_map, List.map_map, hdrop]

private theorem join_words_eq_iff (s : String) :
    String.join (words s) = unspaced s ↔
      ∀ stretch ∈ stretches s, ∀ c ∈ stretch.toList.head?, isCloser c = false := by
  rw [← join_stretches, words_eq_map_remnants, stretches, join_map_ofList, join_map_ofList,
    String.ofList_inj, flatten_remnants_eq_iff, List.forall_mem_map]
  simp only [String.toList_ofList]

/-- The words of a text are its stretches without the closing brackets in front of them, where
anything remains. So no word is empty, and joined by spaces they are found again. Put one behind the
other they are the text without the white space that ends words, exactly if no stretch begins with a
closing bracket. -/
theorem words_of_stretches (s : String) :
    words s = ((stretches s).map dropClosers).filter (· ≠ "") ∧
      String.join (stretches s) = unspaced s ∧
      (String.join (words s) = unspaced s ↔
        ∀ stretch ∈ stretches s, ∀ c ∈ stretch.toList.head?, isCloser c = false) ∧
      (∀ word ∈ words s, word ≠ "") ∧
      words (String.intercalate " " (words s)) = words s := by
  refine ⟨words_eq_filter s, join_stretches s, join_words_eq_iff s, fun word hword => ?_,
    words_join_of_sublist (List.Sublist.refl _)⟩
  rw [words_eq_filter] at hword
  simpa using (List.mem_filter.1 hword).2

theorem words_of_stretches_unbalanced :
    words " a\\ b )c(d e" = ["a\\ b", "c(d e"] ∧ "c(d e" ≠ "" ∧
      ")c(d e" ∈ stretches " a\\ b )c(d e" ∧
      String.join (words " a\\ b )c(d e") ≠ unspaced " a\\ b )c(d e" := by
  obtain ⟨-, -, hkept, hnonempty, -⟩ := words_of_stretches " a\\ b )c(d e"
  have hstretch : ")c(d e" ∈ stretches " a\\ b )c(d e" := by decide
  refine ⟨by decide, hnonempty _ (by decide), hstretch, fun hjoin => ?_⟩
  exact absurd (hkept.1 hjoin _ hstretch ')' (by decide)) (by decide)

/-- A text may be lost as a whole, and a name may lose the bracket that tells it from another. -/
theorem words_lose_closer :
    String.join (words ")") = "" ∧ unspaced ")" = ")" ∧
      String.join (words "flex ]p-4") = "flexp-4" ∧ unspaced "flex ]p-4" = "flex]p-4" := by
  decide

end UtilityCss.Text
