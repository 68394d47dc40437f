import UtilityCss.Text.Blank

/-!
Splitting text at a separator that stands outside brackets, quotes and escapes. The scan keeps a
`Nesting`: which closers are awaited, which quote is open, and whether a backslash is pending.
-/
namespace UtilityCss.Text

structure Nesting where
  /-- the awaited closing brackets, innermost first -/
  closers : List Char := []
  /-- the open quote, if any -/
  quote : Option Char := none
  /-- the next character is escaped -/
  escaped : Bool := false
  deriving DecidableEq, Repr

def closer? : Char → Option Char
  | '(' => some ')'
  | '[' => some ']'
  | '\x7b' => some '\x7d'
  | _ => none

def isCloser (c : Char) : Bool :=
  c == ')' || c == ']' || c == '\x7d'

def isQuote (c : Char) : Bool :=
  c == '"' || c == '\''

/-- A closing bracket that is not the awaited one is passed over like any other character. -/
def Nesting.step (n : Nesting) (c : Char) : Nesting :=
  if n.escaped then { n with escaped := false }
  else if c = '\\' then { n with escaped := true }
  else match n.quote with
    | some q => if c = q then { n with quote := none } else n
    | none =>
      if isQuote c then { n with quote := some c }
      else match closer? c with
        | some k => { n with closers := k :: n.closers }
        | none =>
          if isCloser c && n.closers.head? == some c then { n with closers := n.closers.tail }
          else n

def Nesting.isNeutral (n : Nesting) : Bool :=
  n.closers.isEmpty && n.quote.isNone && !n.escaped

theorem Nesting.isNeutral_iff {n : Nesting} : n.isNeutral = true ↔ n = {} := by
  cases n with
  | mk closers quote escaped => cases closers <;> cases quote <;> cases escaped <;> simp [isNeutral]

/-- Characters with a meaning of their own never separate. -/
def isStructural (c : Char) : Bool :=
  c == '\\' || isQuote c || (closer? c).isSome || isCloser c

def Nesting.splits (n : Nesting) (separator c : Char) : Bool :=
  n.isNeutral && c == separator && !isStructural c

def segmentFrom (separator : Char) : Nesting → List Char → List Char × List (List Char)
  | _, [] => ([], [])
  | n, c :: cs =>
    let later := segmentFrom separator (n.step c) cs
    if n.splits separator c then ([], later.1 :: later.2) else (c :: later.1, later.2)

def segments (separator : Char) (cs : List Char) : List (List Char) :=
  let parts := segmentFrom separator {} cs
  parts.1 :: parts.2

def segment (separator : Char) (s : String) : List String :=
  (segments separator s.toList).map String.ofList

theorem length_segmentFrom_le (separator : Char) (n : Nesting) (cs : List Char) :
    (segmentFrom separator n cs).1.length ≤ cs.length ∧
      ∀ part ∈ (segmentFrom separator n cs).2, part.length ≤ cs.length := by
  induction cs generalizing n with
  | nil => simp [segmentFrom]
  | cons c cs ih =>
    have h := ih (n.step c)
    unfold segmentFrom
    dsimp only
    split
    · refine ⟨Nat.zero_le _, fun part hpart => ?_⟩
      rcases List.mem_cons.1 hpart with rfl | hpart
      · exact Nat.le_succ_of_le h.1
      · exact Nat.le_succ_of_le (h.2 part hpart)
    · exact ⟨Nat.succ_le_succ h.1, fun part hpart => Nat.le_succ_of_le (h.2 part hpart)⟩

theorem length_le_of_mem_segment {separator : Char} {part s : String}
    (h : part ∈ segment separator s) : part.toList.length ≤ s.toList.length := by
  obtain ⟨cs, hcs, rfl⟩ := List.mem_map.1 h
  have hle := length_segmentFrom_le separator {} s.toList
  rcases List.mem_cons.1 hcs with rfl | hcs
  · simpa using hle.1
  · simpa using hle.2 cs hcs

end UtilityCss.Text
