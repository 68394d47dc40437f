import UtilityCss.Value.Decode

/-!
Spaces around operators. A scan that reads what it has written comes to the state in which it wrote
it: the last operand and the character that follows are the same, up to blanks, so it takes the same
decisions. Hence spacing a text twice is spacing it once. What is not blank stays as it is.
-/
namespace UtilityCss.Value

open Text

/-! ### Scans -/

section Scans

variable {σ : Type} {step : σ → Char → Option Char → σ} {s : σ}

def scanUpTo (step : σ → Char → Option Char → σ) (next : Option Char) : σ → List Char → σ
  | s, [] => s
  | s, c :: cs => scanUpTo step next (step s c (cs.head?.or next)) cs

theorem scanAhead_eq (s : σ) (cs : List Char) : scanAhead step s cs = scanUpTo step none s cs := by
  induction cs generalizing s with
  | nil => rfl
  | cons c cs ih => rw [scanAhead, scanUpTo, ih, Option.or_none]

theorem scanUpTo_append (next : Option Char) (cs ds : List Char) :
    scanUpTo step next s (cs ++ ds) =
      scanUpTo step next (scanUpTo step (ds.head?.or next) s cs) ds := by
  induction cs generalizing s with
  | nil => rfl
  | cons c cs ih =>
    rw [List.cons_append, scanUpTo, scanUpTo, ih]
    cases cs <;> simp

theorem scanUpTo_concat (next : Option Char) (cs : List Char) (c : Char) :
    scanUpTo step next s (cs ++ [c]) = step (scanUpTo step (some c) s cs) c next := by
  simp [scanUpTo_append, scanUpTo]

theorem scanAhead_keeps {P : σ → Option Char → Prop}
    (hstep : ∀ s c next, P s (some c) → P (step s c next) next) {cs : List Char}
    (h : P s cs.head?) : P (scanAhead step s cs) none := by
  induction cs generalizing s with
  | nil => exact h
  | cons c cs ih => exact ih (hstep s c cs.head? h)

end Scans

def withoutBlanks (cs : List Char) : List Char :=
  cs.filter fun c => !isBlank c

theorem withoutBlanks_dropWhile (cs : List Char) :
    withoutBlanks (cs.dropWhile isBlank) = withoutBlanks cs := by
  induction cs with
  | nil => rfl
  | cons c cs ih =>
    cases hblank : isBlank c with
    | true => simpa [withoutBlanks, hblank] using ih
    | false => rw [List.dropWhile_cons_of_neg (by simp [hblank])]

namespace MathScan

variable {s : MathScan} {c : Char} {next : Option Char}

/-! ### One step -/

def isOperand (c : Char) : Bool :=
  c.isAlphanum || c == ')' || c == '%' || c == '.'

def endsOperand (written : List Char) : Bool :=
  (written.dropWhile isBlank).head?.any isOperand

theorem joins_eq (s : MathScan) (next : Option Char) :
    s.joins next = (endsOperand s.written && next.any fun c => c != ')' && c != ',') := rfl

theorem endsOperand_cons (hblank : isBlank c = false) (written : List Char) :
    endsOperand (c :: written) = isOperand c := by
  simp [endsOperand, hblank]

theorem endsOperand_cons_blank (hblank : isBlank c = true) (written : List Char) :
    endsOperand (c :: written) = endsOperand written := by
  simp [endsOperand, hblank]

theorem exists_operand {written : List Char} (h : endsOperand written = true) :
    ∃ o before, written.dropWhile isBlank = o :: before ∧ isOperand o = true ∧
      isBlank o = false := by
  rw [endsOperand, Option.any_eq_true] at h
  obtain ⟨o, ho, hoperand⟩ := h
  obtain ⟨before, hbefore⟩ := List.head?_eq_some_iff.1 ho
  have hhead := List.head?_dropWhile_not isBlank written
  rw [ho] at hhead
  exact ⟨o, before, hbefore, hoperand, by simpa using hhead⟩

theorem ne_of_isOperator (h : isOperator c = true) : c ≠ '(' ∧ c ≠ ')' ∧ isBlank c = false := by
  simp only [isOperator, Bool.or_eq_true, beq_iff_eq] at h
  rcases h with ((rfl | rfl) | rfl) | rfl <;> decide

theorem isOperator_of_isOperand (h : isOperand c = true) : isOperator c = false := by
  rw [← Bool.not_eq_true]
  intro hoperator
  simp only [isOperator, Bool.or_eq_true, beq_iff_eq] at hoperator
  rcases hoperator with ((rfl | rfl) | rfl) | rfl <;> exact absurd h (by decide)

def callsBehind (s : MathScan) (c : Char) : List Bool :=
  if c = '(' then s.opensMath :: s.calls else if c = ')' then s.calls.drop 1 else s.calls

theorem callsBehind_of_ne (hopen : c ≠ '(') (hclose : c ≠ ')') : s.callsBehind c = s.calls := by
  rw [callsBehind, if_neg hopen, if_neg hclose]

theorem step_skip (hskipping : s.skipping = true) (hblank : isBlank c = true) :
    s.step c next = s := by
  rw [step, if_pos (by rw [hskipping, hblank]; rfl)]

theorem step_join (hoperator : isOperator c = true) (hmath : s.inMath = true)
    (hjoins : s.joins next = true) :
    s.step c next = ⟨' ' :: c :: ' ' :: s.written.dropWhile isBlank, s.calls, true⟩ := by
  obtain ⟨hopen, hclose, hblank⟩ := ne_of_isOperator hoperator
  simp [step, hoperator, hmath, hjoins, hopen, hclose, hblank]

theorem step_write (hskip : (s.skipping && isBlank c) = false)
    (hjoin : (isOperator c && s.inMath && s.joins next) = false) :
    s.step c next = ⟨c :: s.written, s.callsBehind c, false⟩ := by
  rw [step, hskip, hjoin, callsBehind, if_neg Bool.false_ne_true, if_neg Bool.false_ne_true]
  split
  · rfl
  · split <;> rfl

theorem step_cases (s : MathScan) (c : Char) (next : Option Char) :
    (s.skipping = true ∧ isBlank c = true) ∨
      (isOperator c = true ∧ s.inMath = true ∧ s.joins next = true) ∨
      (s.skipping && isBlank c) = false ∧ (isOperator c && s.inMath && s.joins next) = false := by
  simp only [Bool.and_eq_false_iff]
  grind

theorem step_congr_next (h : isOperator c = false) (next next' : Option Char) :
    s.step c next = s.step c next' := by
  simp [step, h]

/-! ### Reading what was written -/

/-- What has been written leads to the same state when it is read, with `next` behind it. -/
structure Rereads (s : MathScan) (next : Option Char) : Prop where
  whole : scanUpTo step next {} s.written.reverse = s
  /-- also when an operator has taken away the blanks behind an operand -/
  operand : endsOperand s.written = true →
    scanUpTo step (some ' ') {} (s.written.dropWhile isBlank).reverse =
      ⟨s.written.dropWhile isBlank, s.calls, false⟩
  skipping : s.skipping = true → ∃ before, s.written = ' ' :: before

theorem rereads_start (next : Option Char) : Rereads {} next :=
  ⟨rfl, (nomatch ·), (nomatch ·)⟩

/-- The blank before an operator is written, taken away and written again; the one behind it is
passed over. -/
theorem scanUpTo_spaced {o : Char} {before : List Char} (hoperator : isOperator c = true)
    (hmath : s.inMath = true) (ho : isOperand o = true) (hblank : isBlank o = false) :
    scanUpTo step next ⟨o :: before, s.calls, false⟩ [' ', c, ' '] =
      ⟨' ' :: c :: ' ' :: o :: before, s.calls, true⟩ := by
  have hspace : step ⟨o :: before, s.calls, false⟩ ' ' (some c) =
      ⟨' ' :: o :: before, s.calls, false⟩ := step_write rfl rfl
  have hinside : inMath ⟨' ' :: o :: before, s.calls, false⟩ = true := hmath
  have hjoins : joins ⟨' ' :: o :: before, s.calls, false⟩ (some ' ') = true := by
    rw [joins_eq, endsOperand_cons_blank rfl, endsOperand_cons hblank, ho]
    rfl
  have htrim : (' ' :: o :: before).dropWhile isBlank = o :: before := by
    rw [List.dropWhile_cons_of_pos rfl, List.dropWhile_cons_of_neg (by simp [hblank])]
  simp only [scanUpTo, List.head?_cons, Option.some_or, hspace]
  rw [step_join hoperator hinside hjoins, htrim, step_skip rfl rfl]

namespace Rereads

theorem skip (h : s.Rereads (some c)) (hskipping : s.skipping = true) : s.Rereads next := by
  obtain ⟨before, hbefore⟩ := h.skipping hskipping
  refine ⟨?_, h.operand, h.skipping⟩
  have hwhole := h.whole
  rw [hbefore, List.reverse_cons, scanUpTo_concat] at hwhole ⊢
  rw [step_congr_next rfl next (some c), hwhole]

theorem join (h : s.Rereads (some c)) (hoperator : isOperator c = true) (hmath : s.inMath = true)
    (hjoins : s.joins next = true) :
    Rereads ⟨' ' :: c :: ' ' :: s.written.dropWhile isBlank, s.calls, true⟩ next := by
  rw [joins_eq, Bool.and_eq_true] at hjoins
  refine ⟨?_, fun hends => ?_, fun _ => ⟨_, rfl⟩⟩
  · obtain ⟨o, before, hbefore, ho, hblank⟩ := exists_operand hjoins.1
    have hread := h.operand hjoins.1
    rw [hbefore] at hread ⊢
    have hwritten : (' ' :: c :: ' ' :: o :: before).reverse =
        (o :: before).reverse ++ [' ', c, ' '] := by
      simp
    rw [hwritten, scanUpTo_append, List.head?_cons, Option.some_or, hread,
      scanUpTo_spaced hoperator hmath ho hblank]
  · -- the operator stands last, and it is no operand
    rw [endsOperand_cons_blank rfl, endsOperand_cons (ne_of_isOperator hoperator).2.2] at hends
    rw [isOperator_of_isOperand hends] at hoperator
    cases hoperator

theorem write (h : s.Rereads (some c)) (hskip : (s.skipping && isBlank c) = false)
    (hjoin : (isOperator c && s.inMath && s.joins next) = false) :
    Rereads ⟨c :: s.written, s.callsBehind c, false⟩ next := by
  have hstep := step_write hskip hjoin
  refine ⟨?_, fun hends => ?_, (nomatch ·)⟩
  · rw [List.reverse_cons, scanUpTo_concat, h.whole, hstep]
  · cases hblank : isBlank c with
    | true =>
      have hopen : c ≠ '(' := by rintro rfl; cases hblank
      have hclose : c ≠ ')' := by rintro rfl; cases hblank
      rw [endsOperand_cons_blank hblank] at hends
      rw [List.dropWhile_cons_of_pos hblank, callsBehind_of_ne hopen hclose]
      exact h.operand hends
    | false =>
      rw [endsOperand_cons hblank] at hends
      rw [List.dropWhile_cons_of_neg (by simp [hblank]), List.reverse_cons,
        scanUpTo_concat, h.whole, step_congr_next (isOperator_of_isOperand hends) _ next, hstep]

theorem step (h : s.Rereads (some c)) (next : Option Char) : (s.step c next).Rereads next := by
  rcases step_cases s c next with ⟨hskipping, hblank⟩ | ⟨hoperator, hmath, hjoins⟩ | ⟨hskip, hjoin⟩
  · rw [step_skip hskipping hblank]
    exact h.skip hskipping
  · rw [step_join hoperator hmath hjoins]
    exact h.join hoperator hmath hjoins
  · rw [step_write hskip hjoin]
    exact h.write hskip hjoin

end Rereads

/-! ### What is not blank -/

private theorem withoutBlanks_step (s : MathScan) (c : Char) (next : Option Char) :
    withoutBlanks (s.step c next).written = withoutBlanks (c :: s.written) := by
  rcases step_cases s c next with ⟨hskipping, hblank⟩ | ⟨hoperator, hmath, hjoins⟩ | ⟨hskip, hjoin⟩
  · rw [step_skip hskipping hblank]
    simp [withoutBlanks, hblank]
  · have hblank := (ne_of_isOperator hoperator).2.2
    have htrim := withoutBlanks_dropWhile s.written
    rw [step_join hoperator hmath hjoins]
    unfold withoutBlanks at htrim ⊢
    simp [hblank, htrim, show isBlank ' ' = true from rfl]
  · rw [step_write hskip hjoin]

private theorem withoutBlanks_scanAhead (s : MathScan) (cs : List Char) :
    withoutBlanks (scanAhead MathScan.step s cs).written =
      withoutBlanks (cs.reverse ++ s.written) := by
  induction cs generalizing s with
  | nil => rfl
  | cons c cs ih =>
    have hstep := withoutBlanks_step s c cs.head?
    unfold withoutBlanks at hstep ih ⊢
    rw [scanAhead, ih, List.filter_append, hstep, ← List.filter_append, List.reverse_cons,
      List.append_assoc, List.singleton_append]

end MathScan

/-- Spacing the operators of a text twice is spacing them once, and only blanks come and go. -/
theorem spaceOperators_idempotent (s : String) :
    spaceOperators (spaceOperators s) = spaceOperators s ∧
      withoutBlanks (spaceOperators s).toList = withoutBlanks s.toList := by
  constructor
  · have hrereads := scanAhead_keeps (P := MathScan.Rereads) (fun s c next h => h.step next)
      (MathScan.rereads_start s.toList.head?)
    have hwhole := hrereads.whole
    rw [← scanAhead_eq] at hwhole
    unfold spaceOperators
    rw [String.toList_ofList, hwhole]
  · have hwritten := MathScan.withoutBlanks_scanAhead {} s.toList
    unfold spaceOperators
    unfold withoutBlanks at hwritten ⊢
    rw [String.toList_ofList, List.filter_reverse, hwritten, ← List.filter_reverse]
    simp

end UtilityCss.Value
