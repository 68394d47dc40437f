import UtilityCss.Text.Nesting

/-!
Splitting text into words at white space that stands outside brackets, quotes and escapes. Brackets
are only counted here: any closing bracket takes back any opening one.
-/
namespace UtilityCss.Text

structure WordScan where
  /-- open brackets not yet closed -/
  depth : Nat := 0
  quote : Option Char := none
  escaped : Bool := false
  deriving DecidableEq, Repr

def WordScan.step (w : WordScan) (c : Char) : WordScan :=
  if w.escaped then { w with escaped := false }
  else if c = '\\' then { w with escaped := true }
  else match w.quote with
    | some q => if c = q then { w with quote := none } else w
    | none =>
      if isQuote c then { w with quote := some c }
      else if (closer? c).isSome then { w with depth := w.depth + 1 }
      else if isCloser c then { w with depth := w.depth - 1 }
      else w

def WordScan.isOpen (w : WordScan) : Bool :=
  w.quote.isNone && !w.escaped

def WordScan.breaks (w : WordScan) (c : Char) : Bool :=
  w.isOpen && w.depth == 0 && isSpace c

/-- A closing bracket joins a word that is under way but does not begin one. -/
def WordScan.begins (w : WordScan) (c : Char) : Bool :=
  !(w.isOpen && isCloser c)

def wordsFrom : WordScan → Bool → List Char → List Char × List (List Char)
  | _, _, [] => ([], [])
  | w, underWay, c :: cs =>
    if w.breaks c then ([], (wordsFrom (w.step c) false cs).2)
    else if underWay then
      let later := wordsFrom (w.step c) true cs
      (c :: later.1, later.2)
    else if w.begins c then
      let later := wordsFrom (w.step c) true cs
      ([], (c :: later.1) :: later.2)
    else wordsFrom (w.step c) false cs

def words (s : String) : List String :=
  (wordsFrom {} false s.toList).2.map String.ofList

theorem length_wordsFrom_le (w : WordScan) (underWay : Bool) (cs : List Char) :
    (wordsFrom w underWay cs).1.length ≤ cs.length ∧
      ∀ word ∈ (wordsFrom w underWay cs).2, word.length ≤ cs.length := by
  induction cs generalizing w underWay with
  | nil => simp [wordsFrom]
  | cons c cs ih =>
    have shorter : ∀ (w : WordScan) (b : Bool) (word : List Char),
        word ∈ (wordsFrom w b cs).2 → word.length ≤ (c :: cs).length :=
      fun w b word h => Nat.le_succ_of_le ((ih w b).2 word h)
    unfold wordsFrom
    split
    · exact ⟨Nat.zero_le _, shorter _ _⟩
    · split
      · exact ⟨Nat.succ_le_succ (ih _ _).1, shorter _ _⟩
      · split
        · refine ⟨Nat.zero_le _, fun word h => ?_⟩
          rcases List.mem_cons.1 h with rfl | h
          · exact Nat.succ_le_succ (ih _ _).1
          · exact shorter _ _ word h
        · exact ⟨Nat.le_succ_of_le (ih _ _).1, shorter _ _⟩

theorem length_le_of_mem_words {word s : String} (h : word ∈ words s) :
    word.toList.length ≤ s.toList.length := by
  obtain ⟨cs, hcs, rfl⟩ := List.mem_map.1 h
  simpa using (length_wordsFrom_le {} false s.toList).2 cs hcs

end UtilityCss.Text
