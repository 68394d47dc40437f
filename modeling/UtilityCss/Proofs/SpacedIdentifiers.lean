import UtilityCss.Proofs.OperatorSpacing
import UtilityCss.Proofs.RoundTrip

/-!
Identifiers inside math functions. A hyphen counts as an operator if a letter or digit stands before
it and anything but a comma or a closing bracket behind it. So a hyphen inside of an identifier gets
spaces, and the identifier falls apart. Those without such a hyphen stay as they are.
-/
namespace UtilityCss.Value

open Text

/-! ### Hyphens in identifiers -/

def isWordChar (c : Char) : Bool :=
  c.isAlphanum || c == '-'

/-- An identifier of letters, digits and hyphens that begins with a letter. -/
structure IsIdentifier (name : List Char) : Prop where
  head : name.head?.any Char.isAlpha = true
  chars : ∀ c ∈ name, isWordChar c = true

instance (name : List Char) : Decidable (IsIdentifier name) :=
  decidable_of_iff (name.head?.any Char.isAlpha = true ∧ name.all isWordChar = true)
    ⟨fun ⟨head, chars⟩ => ⟨head, List.all_eq_true.1 chars⟩,
      fun h => ⟨h.head, List.all_eq_true.2 h.chars⟩⟩

/-- Spaces around each hyphen that has a letter or digit before it and anything behind it. `operand`
says whether a letter or digit stands before the text. -/
def spacedHyphens : Bool → List Char → List Char
  | _, [] => []
  | operand, c :: cs =>
    (if c = '-' ∧ operand = true ∧ cs ≠ [] then [' ', '-', ' '] else [c]) ++
      spacedHyphens c.isAlphanum cs

private theorem spacedHyphens_true_eq_self_iff {cs : List Char}
    (h : ∀ c ∈ cs, isWordChar c = true) : spacedHyphens true cs = cs ↔ '-' ∉ cs.dropLast := by
  induction cs with
  | nil => simp [spacedHyphens]
  | cons c cs ih =>
    rw [List.forall_mem_cons] at h
    rw [spacedHyphens]
    split
    next hjoin =>
      obtain ⟨rfl, -, hne⟩ := hjoin
      simp [List.dropLast_cons_of_ne_nil hne]
    next hjoin =>
      cases cs with
      | nil => simp [spacedHyphens]
      | cons d cs =>
        have hc : c ≠ '-' := by simpa using hjoin
        have hletter : c.isAlphanum = true := by simpa [isWordChar, hc] using h.1
        rw [hletter, List.dropLast_cons_cons, List.mem_cons, not_or, ← ih h.2]
        simp [Ne.symm hc]

theorem IsIdentifier.spacedHyphens_eq_self_iff {name : List Char} (h : IsIdentifier name) :
    spacedHyphens false name = name ↔ '-' ∉ name.dropLast := by
  obtain ⟨hhead, hchars⟩ := h
  cases name with
  | nil => simp [spacedHyphens]
  | cons c cs =>
    have halpha : c.isAlpha = true := by simpa using hhead
    have hc : c ≠ '-' := by rintro rfl; cases halpha
    have hrest := spacedHyphens_true_eq_self_iff (List.forall_mem_cons.1 hchars).2
    cases cs with
    | nil => simp [spacedHyphens]
    | cons d cs =>
      rw [spacedHyphens, if_neg (by simp), Char.isAlphanum, halpha, Bool.true_or,
        List.dropLast_cons_cons, List.mem_cons, not_or, ← hrest]
      simp [Ne.symm hc]

section Classes

variable {c : Char}

theorem ne_of_isWordChar {d : Char} (h : isWordChar c = true)
    (hd : isWordChar d = false) : c ≠ d := by
  rintro rfl
  rw [h] at hd
  cases hd

theorem isBlank_of_isWordChar (h : isWordChar c = true) : isBlank c = false := by
  refine isBlank_text ?_ (ne_of_isWordChar h rfl)
  simp only [isWordChar, Bool.or_eq_true, beq_iff_eq] at h
  rcases h with h | rfl
  · simp [isTextChar, h]
  · decide

theorem isOperator_of_isWordChar (h : isWordChar c = true) :
    MathScan.isOperator c = (c == '-') := by
  have hplus : c ≠ '+' := ne_of_isWordChar h rfl
  have hstar : c ≠ '*' := ne_of_isWordChar h rfl
  have hslash : c ≠ '/' := ne_of_isWordChar h rfl
  simp only [MathScan.isOperator, beq_false_of_ne hplus, beq_false_of_ne hstar,
    beq_false_of_ne hslash, Bool.false_or, Bool.or_false]

theorem isOperand_of_isWordChar (h : isWordChar c = true) :
    MathScan.isOperand c = c.isAlphanum := by
  have hclose : c ≠ ')' := ne_of_isWordChar h rfl
  have hpercent : c ≠ '%' := ne_of_isWordChar h rfl
  have hdot : c ≠ '.' := ne_of_isWordChar h rfl
  simp only [MathScan.isOperand, beq_false_of_ne hclose, beq_false_of_ne hpercent,
    beq_false_of_ne hdot, Bool.or_false]

theorem of_mem_mathFunctions {f : String} (h : f ∈ mathFunctions) :
    f.toList.all Char.isAlphanum = true ∧ lastName f.toList.reverse = f := by
  revert f
  decide

theorem isWordChar_of_mem_mathFunctions {f : String} (h : f ∈ mathFunctions) :
    ∀ c ∈ f.toList, isWordChar c = true := by
  intro c hc
  rw [isWordChar, List.all_eq_true.1 (of_mem_mathFunctions h).1 c hc, Bool.true_or]

end Classes

/-! ### A call of a math function -/

namespace MathScan

variable {s : MathScan}

theorem scanUpTo_plain {cs : List Char} (next : Option Char)
    (h : ∀ c ∈ cs, c ≠ '(' ∧ c ≠ ')' ∧ isBlank c = false ∧ (isOperator c && s.inMath) = false) :
    ∃ skipping, scanUpTo step next s cs = ⟨cs.reverse ++ s.written, s.calls, skipping⟩ := by
  induction cs generalizing s with
  | nil => exact ⟨s.skipping, rfl⟩
  | cons c cs ih =>
    rw [List.forall_mem_cons] at h
    obtain ⟨⟨hopen, hclose, hblank, hoperator⟩, hcs⟩ := h
    have hstep : s.step c (cs.head?.or next) = ⟨c :: s.written, s.calls, false⟩ := by
      rw [step_write (by rw [hblank, Bool.and_false]) (by rw [hoperator, Bool.false_and]),
        callsBehind_of_ne hopen hclose]
    obtain ⟨skipping, hrest⟩ := ih (s := ⟨c :: s.written, s.calls, false⟩) hcs
    exact ⟨skipping, by rw [scanUpTo, hstep, hrest]; simp⟩

theorem scanUpTo_identifier {cs : List Char} {operand : Bool} (hmath : s.inMath = true)
    (hends : endsOperand s.written = operand)
    (htrim : operand = true → s.written.dropWhile isBlank = s.written)
    (h : ∀ c ∈ cs, isWordChar c = true) :
    ∃ skipping, scanUpTo step (some ',') s cs =
      ⟨(spacedHyphens operand cs).reverse ++ s.written, s.calls, skipping⟩ := by
  induction cs generalizing s operand with
  | nil => exact ⟨s.skipping, rfl⟩
  | cons c cs ih =>
    rw [List.forall_mem_cons] at h
    have hblank := isBlank_of_isWordChar h.1
    have hahead : ((cs.head?.or (some ',')).any fun c => c != ')' && c != ',') = !cs.isEmpty := by
      cases cs with
      | nil => rfl
      | cons d cs =>
        have hclose : d ≠ ')' := ne_of_isWordChar (h.2 d List.mem_cons_self) rfl
        have hcomma : d ≠ ',' := ne_of_isWordChar (h.2 d List.mem_cons_self) rfl
        simp [hclose, hcomma]
    rw [scanUpTo, spacedHyphens]
    split
    next hjoin =>
      obtain ⟨rfl, rfl, hne⟩ := hjoin
      have hjoins : s.joins (cs.head?.or (some ',')) = true := by
        rw [joins_eq, hends, hahead]
        simpa using hne
      have hstop : endsOperand (' ' :: '-' :: ' ' :: s.written) = false := rfl
      obtain ⟨skipping, hrest⟩ :=
        ih (s := ⟨' ' :: '-' :: ' ' :: s.written, s.calls, true⟩) hmath hstop
          (absurd · Bool.false_ne_true) h.2
      rw [step_join rfl hmath hjoins, htrim rfl, show Char.isAlphanum '-' = false from rfl, hrest]
      exact ⟨skipping, by simp⟩
    next hjoin =>
      have hkeep : (isOperator c && s.inMath && s.joins (cs.head?.or (some ','))) = false := by
        rw [isOperator_of_isWordChar h.1, hmath, joins_eq, hends, hahead]
        simpa using hjoin
      have hoperand : endsOperand (c :: s.written) = c.isAlphanum := by
        rw [endsOperand_cons hblank, isOperand_of_isWordChar h.1]
      obtain ⟨skipping, hrest⟩ := ih (s := ⟨c :: s.written, s.calls, false⟩) hmath hoperand
        (fun _ => List.dropWhile_cons_of_neg (by simp [hblank])) h.2
      rw [step_write (by rw [hblank, Bool.and_false]) hkeep,
        callsBehind_of_ne (ne_of_isWordChar h.1 rfl) (ne_of_isWordChar h.1 rfl), hrest]
      exact ⟨skipping, by simp⟩

private theorem scanUpTo_function {f : String} (hf : f ∈ mathFunctions) (next : Option Char) :
    scanUpTo step next {} (f.toList ++ ['(']) = ⟨'(' :: f.toList.reverse, [true], false⟩ := by
  obtain ⟨skipping, hscan⟩ := scanUpTo_plain (s := {}) (some '(') fun c hc => by
    have hword := isWordChar_of_mem_mathFunctions hf c hc
    exact ⟨ne_of_isWordChar hword rfl, ne_of_isWordChar hword rfl, isBlank_of_isWordChar hword,
      Bool.and_false _⟩
  have hopens : opensMath ⟨f.toList.reverse ++ [], [], skipping⟩ = true := by
    simp [opensMath, (of_mem_mathFunctions hf).2, hf]
  rw [scanUpTo_concat, hscan, step_write (Bool.and_false _) rfl, callsBehind, if_pos rfl, hopens,
    List.append_nil]

private theorem scanUpTo_length (s : MathScan) :
    (scanUpTo step none s ",1px)".toList).written = ",1px)".toList.reverse ++ s.written := by
  have hchars : ∀ c ∈ ",1px".toList, c ≠ '(' ∧ c ≠ ')' ∧ isBlank c = false ∧
      isOperator c = false := by
    simp [isBlank, isOperator]
  obtain ⟨skipping, hplain⟩ := scanUpTo_plain (s := s) (some ')') fun c hc => by
    obtain ⟨hopen, hclose, hblank, hoperator⟩ := hchars c hc
    exact ⟨hopen, hclose, hblank, by rw [hoperator, Bool.false_and]⟩
  rw [show ",1px)".toList = ",1px".toList ++ [')'] from rfl, scanUpTo_concat, hplain,
    step_write (Bool.and_false _) rfl]
  rfl

theorem written_call {f : String} {name : List Char} (hf : f ∈ mathFunctions)
    (hname : ∀ c ∈ name, isWordChar c = true) :
    (scanAhead step {} (f.toList ++ ['('] ++ name ++ ",1px)".toList)).written.reverse =
      f.toList ++ ['('] ++ spacedHyphens false name ++ ",1px)".toList := by
  have hstart : endsOperand ('(' :: f.toList.reverse) = false := rfl
  obtain ⟨skipping, hinside⟩ := scanUpTo_identifier (s := ⟨'(' :: f.toList.reverse, [true], false⟩)
    rfl hstart (absurd · Bool.false_ne_true) hname
  have hcomma : ",1px)".toList.head?.or none = some ',' := rfl
  rw [scanAhead_eq, scanUpTo_append, scanUpTo_append, scanUpTo_function hf, scanUpTo_length, hcomma,
    hinside]
  simp

end MathScan

namespace UnderscoreScan

variable {s : UnderscoreScan}

private theorem step_plain {c : Char} (hescaped : s.escaped = false) (hslash : c ≠ '\\')
    (hunderscore : c ≠ '_') (next : Option Char) :
    (s.step c next).written = c :: s.written ∧ (s.step c next).escaped = false := by
  unfold step
  rw [hescaped]
  dsimp only
  rw [if_neg Bool.false_ne_true]
  split
  · contradiction
  · contradiction
  · exact ⟨rfl, rfl⟩
  · exact ⟨rfl, rfl⟩
  · split <;> exact ⟨rfl, rfl⟩
  · exact ⟨rfl, rfl⟩

private theorem scanAhead_plain {cs : List Char} (hescaped : s.escaped = false)
    (h : ∀ c ∈ cs, c ≠ '\\' ∧ c ≠ '_') :
    (scanAhead step s cs).written = cs.reverse ++ s.written := by
  induction cs generalizing s with
  | nil => rfl
  | cons c cs ih =>
    rw [List.forall_mem_cons] at h
    obtain ⟨hwritten, hnext⟩ := step_plain hescaped h.1.1 h.1.2 cs.head?
    rw [scanAhead, ih hnext h.2, hwritten, List.reverse_cons, List.append_assoc,
      List.singleton_append]

end UnderscoreScan

private theorem readUnderscores_of_plain {s : String} (h : ∀ c ∈ s.toList, c ≠ '\\' ∧ c ≠ '_') :
    readUnderscores s = s := by
  rw [readUnderscores, UnderscoreScan.scanAhead_plain rfl h]
  simp

private theorem readUnderscores_call {f name : String} (hf : f ∈ mathFunctions)
    (hname : ∀ c ∈ name.toList, isWordChar c = true) :
    readUnderscores (f ++ "(" ++ name ++ ",1px)") = f ++ "(" ++ name ++ ",1px)" := by
  apply readUnderscores_of_plain
  have hword : ∀ c, isWordChar c = true → c ≠ '\\' ∧ c ≠ '_' := fun c hc =>
    ⟨ne_of_isWordChar hc rfl, ne_of_isWordChar hc rfl⟩
  intro c hc
  simp only [String.toList_append, List.mem_append] at hc
  rcases hc with ((hc | hc) | hc) | hc
  · exact hword c (isWordChar_of_mem_mathFunctions hf c hc)
  · revert c; simp
  · exact hword c (hname c hc)
  · revert c; simp

private theorem decode_call {f name : String} (hf : f ∈ mathFunctions)
    (hname : ∀ c ∈ name.toList, isWordChar c = true) :
    decode (f ++ "(" ++ name ++ ",1px)") =
      f ++ "(" ++ String.ofList (spacedHyphens false name.toList) ++ ",1px)" := by
  have hopen : hasChar '(' (f ++ "(" ++ name ++ ",1px)") = true := by simp [hasChar]
  have hbare : isBareVariable (f ++ "(" ++ name ++ ",1px)") = false := by simp [isBareVariable]
  rw [decode, hbare, if_neg Bool.false_ne_true, readUnderscores_call hf hname]
  dsimp only
  rw [if_pos hopen, spaceOperators]
  apply String.toList_injective
  simpa using MathScan.written_call hf hname

/-- In a math function an identifier is decoded with spaces around each hyphen that has a letter or
digit before it and anything behind it. So it is kept exactly if it has no hyphen but at its end. -/
theorem decode_identifier {f name : String} (hf : f ∈ mathFunctions)
    (hname : IsIdentifier name.toList) :
    decode (f ++ "(" ++ name ++ ",1px)") =
        f ++ "(" ++ String.ofList (spacedHyphens false name.toList) ++ ",1px)" ∧
      (decode (f ++ "(" ++ name ++ ",1px)") = f ++ "(" ++ name ++ ",1px)" ↔
        '-' ∉ name.toList.dropLast) := by
  have hcall := decode_call hf hname.chars
  refine ⟨hcall, ?_⟩
  rw [hcall, ← hname.spacedHyphens_eq_self_iff, ← String.toList_inj]
  simp

theorem decode_identifier_maxContent :
    "min" ∈ mathFunctions ∧ IsIdentifier "max-content".toList ∧
      decode "min(max-content,1px)" = "min(max - content,1px)" := by
  have hf : "min" ∈ mathFunctions := by decide
  have hname : IsIdentifier "max-content".toList := by decide
  exact ⟨hf, hname, (decode_identifier hf hname).1⟩

theorem decode_splits_identifier :
    ¬∀ f ∈ mathFunctions, ∀ name : String, IsIdentifier name.toList →
      decode (f ++ "(" ++ name ++ ",1px)") = f ++ "(" ++ name ++ ",1px)" := by
  intro h
  have hsame := h "min" (by decide) "max-content" (by decide)
  exact absurd hsame (by decide)

end UtilityCss.Value
