import UtilityCss.Text.Words

/-!
Words that are put together again. A text behind which nothing is open can be followed by a space
and more text, and the words are those of both. So any words of a text, joined by spaces, are the
words of what they are joined to.
-/
namespace UtilityCss.Text

namespace WordScan

variable {w : WordScan} {c : Char}

def run (w : WordScan) (cs : List Char) : WordScan :=
  cs.foldl step w

@[simp] theorem run_nil : w.run [] = w := rfl

@[simp] theorem run_cons {cs : List Char} : w.run (c :: cs) = (w.step c).run cs := rfl

theorem eq_of_breaks (h : w.breaks c = true) : w = {} := by
  cases w with
  | mk depth quote escaped =>
    simp only [breaks, isOpen, Bool.and_eq_true, Bool.not_eq_true', Option.isNone_iff_eq_none,
      beq_iff_eq] at h
    simp [h.1]

theorem step_of_breaks (h : w.breaks c = true) : w.step c = {} := by
  obtain rfl := eq_of_breaks h
  have hspace : isSpace c = true := by simpa [breaks, isOpen] using h
  simp only [isSpace, isNewline, Bool.or_eq_true, beq_iff_eq] at hspace
  rcases hspace with (rfl | rfl) | (rfl | rfl) | rfl <;> rfl

theorem step_of_not_begins (h : WordScan.begins {} c = false) : WordScan.step {} c = {} := by
  have hcloser : isCloser c = true := by simpa [begins, isOpen] using h
  simp only [isCloser, Bool.or_eq_true, beq_iff_eq] at hcloser
  rcases hcloser with (rfl | rfl) | rfl <;> rfl

def Solid (w : WordScan) : List Char → Prop
  | [] => True
  | c :: cs => w.breaks c = false ∧ (w.step c).Solid cs

theorem Solid.wordsFrom {cs : List Char} (h : w.Solid cs) : wordsFrom w true cs = (cs, []) := by
  induction cs generalizing w with
  | nil => rfl
  | cons c cs ih =>
    rw [Text.wordsFrom, h.1, ih h.2]
    rfl

end WordScan

def IsWord : List Char → Prop
  | [] => False
  | c :: cs => WordScan.begins {} c = true ∧ WordScan.Solid {} (c :: cs)

/-- Words that can stand in one text: nothing is open behind any of them but the last. -/
structure AreWords (ws : List (List Char)) : Prop where
  isWord : ∀ w ∈ ws, IsWord w
  closed : ws.Pairwise fun w _ => WordScan.run {} w = {}

theorem AreWords.sublist {ws ws' : List (List Char)} (h : AreWords ws) (hsub : ws'.Sublist ws) :
    AreWords ws' :=
  ⟨fun w hw => h.isWord w (hsub.subset hw), h.closed.sublist hsub⟩

theorem IsWord.wordsFrom {cs : List Char} (h : IsWord cs) : wordsFrom {} false cs = ([], [cs]) := by
  cases cs with
  | nil => exact h.elim
  | cons c cs =>
    obtain ⟨hbegins, hbreaks, hsolid⟩ := h
    rw [Text.wordsFrom, hbreaks, hbegins, hsolid.wordsFrom]
    rfl

/-- The words of a text can stand in one text. With a word under way, its rest belongs to it, and
nothing is open behind it if more words follow. -/
theorem areWords_wordsFrom (cs : List Char) :
    AreWords (wordsFrom {} false cs).2 ∧
      ∀ w : WordScan, w.Solid (wordsFrom w true cs).1 ∧ AreWords (wordsFrom w true cs).2 ∧
        ((wordsFrom w true cs).2 ≠ [] → w.run (wordsFrom w true cs).1 = {}) := by
  induction cs with
  | nil => exact ⟨⟨by simp [wordsFrom], by simp [wordsFrom]⟩, fun w => ⟨trivial,
      ⟨by simp [wordsFrom], by simp [wordsFrom]⟩, by simp [wordsFrom]⟩⟩
  | cons c cs ih =>
    obtain ⟨hwords, hunder⟩ := ih
    constructor
    · rw [wordsFrom]
      split
      next hbreaks =>
        rw [WordScan.step_of_breaks hbreaks]
        exact hwords
      next hbreaks =>
        rw [if_neg Bool.false_ne_true]
        split
        next hbegins =>
          obtain ⟨hsolid, hlater, hclosed⟩ := hunder (WordScan.step {} c)
          rw [Bool.not_eq_true] at hbreaks
          refine ⟨?_, List.pairwise_cons.2 ⟨fun w hw => ?_, hlater.closed⟩⟩
          · intro w hw
            rcases List.mem_cons.1 hw with rfl | hw
            · exact ⟨hbegins, hbreaks, hsolid⟩
            · exact hlater.isWord w hw
          · exact hclosed (List.ne_nil_of_mem hw)
        next hbegins =>
          rw [Bool.not_eq_true] at hbegins
          rw [WordScan.step_of_not_begins hbegins]
          exact hwords
    · intro w
      rw [wordsFrom]
      split
      next hbreaks =>
        rw [WordScan.step_of_breaks hbreaks]
        exact ⟨trivial, hwords, fun _ => WordScan.eq_of_breaks hbreaks⟩
      next hbreaks =>
        obtain ⟨hsolid, hlater, hclosed⟩ := hunder (w.step c)
        rw [Bool.not_eq_true] at hbreaks
        exact ⟨⟨hbreaks, hsolid⟩, hlater, hclosed⟩

private theorem wordsFrom_append_space {w : WordScan} {underWay : Bool} {cs : List Char}
    (h : w.run cs = {}) (rest : List Char) :
    wordsFrom w underWay (cs ++ ' ' :: rest) =
      ((wordsFrom w underWay cs).1,
        (wordsFrom w underWay cs).2 ++ (wordsFrom {} false rest).2) := by
  induction cs generalizing w underWay with
  | nil =>
    obtain rfl : w = {} := h
    rfl
  | cons c cs ih =>
    rw [List.cons_append, wordsFrom, wordsFrom, ih h, ih h]
    split
    · rfl
    · split
      · rfl
      · split <;> rfl

def IsSettled (s : String) : Prop :=
  WordScan.run {} s.toList = {}

instance (s : String) : Decidable (IsSettled s) :=
  inferInstanceAs (Decidable (_ = _))

theorem words_append {s : String} (h : IsSettled s) (t : String) :
    words (s ++ " " ++ t) = words s ++ words t := by
  have htext : (s ++ " " ++ t).toList = s.toList ++ ' ' :: t.toList := by simp
  simp only [words, htext, wordsFrom_append_space h, List.map_append]

private theorem words_join {ws : List String} (h : AreWords (ws.map String.toList)) :
    words (String.intercalate " " ws) = ws := by
  induction ws with
  | nil => rfl
  | cons word ws ih =>
    have hword : words word = [word] := by
      have hchars := (h.isWord word.toList (by simp)).wordsFrom
      simp [words, hchars]
    cases ws with
    | nil => rwa [String.intercalate_singleton]
    | cons next ws =>
      have hsettled : IsSettled word := List.rel_of_pairwise_cons h.closed List.mem_cons_self
      have hrest := ih (h.sublist (List.sublist_cons_self _ _))
      rw [String.intercalate_cons_cons, words_append hsettled, hword, hrest]
      rfl

theorem words_join_of_sublist {ws : List String} {s : String} (h : ws.Sublist (words s)) :
    words (String.intercalate " " ws) = ws := by
  apply words_join
  have hchars : (words s).map String.toList = (wordsFrom {} false s.toList).2 := by
    simp [words, Function.comp_def]
  exact (hchars ▸ (areWords_wordsFrom s.toList).1).sublist (h.map _)

end UtilityCss.Text
