import UtilityCss.Proofs.LexemeReach
import UtilityCss.Proofs.Reading

/-!
Text in front of a character that ends what is read: a colon, a semicolon or an opening curly
bracket. If the lexemes of the text end where the text ends, nothing behind that character has a say
in them, so the text is read in the same way wherever it is printed.
-/
namespace UtilityCss

open Text Lexeme

def isTerminator (c : Char) : Bool :=
  c == ':' || c == ';' || c == '\x7b'

/-- If what `f` measures ends before `z`, nothing behind `z` has a say in it. -/
def StopsAt (z : Char) (f : List Char → Nat) : Prop :=
  ∀ x v, f (x ++ [z]) ≤ x.length → f (x ++ z :: v) = f (x ++ [z])

variable {z : Char} {f g : List Char → Nat}

@[elab_as_elim]
theorem of_isTerminator {p : Char → Prop} (hz : isTerminator z = true)
    (h : p ':' ∧ p ';' ∧ p '\x7b') : p z := by
  simp only [isTerminator, Bool.or_eq_true, beq_iff_eq] at hz
  rcases hz with (rfl | rfl) | rfl
  · exact h.1
  · exact h.2.1
  · exact h.2.2

theorem EndsBefore.stopsAt (h : EndsBefore (fun _ => True) z f) : StopsAt z f := by
  intro x v _
  obtain ⟨n, -, hn⟩ := h x trivial
  rw [hn, hn]

theorem StopsAt.andThen (hf : StopsAt z f) (hg : StopsAt z g) : StopsAt z (andThen f g) := by
  intro x v h
  have hle : f (x ++ [z]) ≤ x.length := (Nat.le_add_right ..).trans h
  unfold UtilityCss.andThen at h ⊢
  rw [List.drop_append_of_le_length hle] at h ⊢
  rw [hf x v hle, List.drop_append_of_le_length hle, hg _ v]
  rw [List.length_drop]
  omega

theorem reach_stops {σ : Type} {step : σ → Char → Option Char → Option σ}
    (hstep : ∀ s next, step s z next = step s z none) (s : σ) : StopsAt z (reach step s) := by
  intro x v
  induction x generalizing s with
  | nil =>
    intro h
    have hnone : step s z none = none := by
      cases hs : step s z none with
      | none => rfl
      | some s' => simp [reach, hs] at h
    simp [reach, hstep s, hnone]
  | cons c x ih =>
    -- a step sees one character ahead, and that one is still in `x ++ [z]`
    simp only [List.cons_append, reach, head?_append_cons x z v]
    cases step s c (x ++ [z]).head? with
    | none => simp
    | some s' =>
      intro h
      simp only [ih s' (by simpa using h)]

/-! ### The lexeme that a character begins -/

section Scan

variable (hz : isTerminator z = true)

include hz

theorem nameLength_stops : StopsAt z nameLength := by
  have hstep : ∀ e next, nameStep e z next = nameStep e z none := fun e next =>
    of_isTerminator hz (by cases e <;> exact ⟨rfl, rfl, rfl⟩)
  exact reach_stops hstep .plain

theorem stringLength_stops (quote : Char) : StopsAt z (reach (stringStep quote) (some .plain)) := by
  have hstep : ∀ s next, stringStep quote s z next = stringStep quote s z none := by
    intro s next
    cases s with
    | none => rfl
    | some e => exact of_isTerminator hz (by cases e <;> exact ⟨rfl, rfl, rfl⟩)
  exact reach_stops hstep _

theorem commentLength_stops : StopsAt z (reach commentStep .body) := by
  have hstep : ∀ s next, commentStep s z next = commentStep s z none := fun s next =>
    of_isTerminator hz (by cases s <;> exact ⟨rfl, rfl, rfl⟩)
  exact reach_stops hstep _

theorem urlLength_stops : StopsAt z (reach urlStep .lead) := by
  have hstep : ∀ s next, urlStep s z next = urlStep s z none := by
    intro s next
    cases s with
    | body e => exact of_isTerminator hz (by cases e <;> exact ⟨rfl, rfl, rfl⟩)
    | _ => exact of_isTerminator hz ⟨rfl, rfl, rfl⟩
  exact reach_stops hstep _

theorem startsName_terminator (x v : List Char) :
    startsName (x ++ z :: v) = startsName (x ++ [z]) := by
  have hdash : z ≠ '-' := of_isTerminator hz (by decide)
  have hslash : z ≠ '\\' := of_isTerminator hz (by decide)
  obtain ⟨b, hb⟩ := startsName_ends hdash hslash x
  rw [hb, hb]

private theorem unitLength_stops : StopsAt z unitLength := by
  intro x v h
  simp only [unitLength, head?_append_cons x z v, startsName_terminator hz x v] at h ⊢
  split at h
  next hpercent => simp [hpercent]
  next hpercent =>
    split at h
    next hname => simp only [hpercent, hname, nameLength_stops hz x v h, if_true, if_false]
    next hname => simp [hname]

theorem numberLength_stops : StopsAt z numberLength := by
  have hdigit : z.isDigit = false := of_isTerminator hz (by decide)
  have hdot : z ≠ '.' := of_isTerminator hz (by decide)
  have hsign : (z == '+' || z == '-') = false := of_isTerminator hz (by decide)
  have hmark : (z == 'e' || z == 'E') = false := of_isTerminator hz (by decide)
  rw [numberLength_eq]
  have whole := (signLength_ends hsign).stopsAt.andThen (digitsLength_ends hdigit).stopsAt
  have decimal := whole.andThen (fractionLength_ends hdot hdigit).stopsAt
  have scaled := decimal.andThen (exponentLength_ends hmark hsign hdigit).stopsAt
  exact scaled.andThen (unitLength_stops hz)

private theorem head?_dropWhile_terminator (x v : List Char) :
    ((x ++ z :: v).dropWhile isSpace).head? = ((x ++ [z]).dropWhile isSpace).head? := by
  have hspace : isSpace z = false := of_isTerminator hz (by decide)
  induction x with
  | nil => simp [hspace]
  | cons c x ih =>
    cases hc : isSpace c with
    | true => simpa [hc] using ih
    | false => simp [hc]

theorem scanName_stops (x v : List Char) (h : (scanName (x ++ [z])).2 ≤ x.length) :
    scanName (x ++ z :: v) = scanName (x ++ [z]) := by
  have hle : nameLength (x ++ [z]) ≤ x.length := by
    refine Nat.le_trans ?_ h
    unfold scanName
    dsimp only
    repeat' split
    all_goals dsimp only; omega
  have hround : z ≠ '(' := of_isTerminator hz (by decide)
  have hbehind := List.length_drop (i := nameLength (x ++ [z])) (l := x)
  unfold scanName at h ⊢
  rw [nameLength_stops hz x v hle]
  simp only [List.drop_append_of_le_length hle, List.take_append_of_le_length hle] at h ⊢
  cases htail : x.drop (nameLength (x ++ [z])) with
  | nil => simp [hround]
  | cons d tail =>
    by_cases hd : d = '('
    · subst hd
      rw [htail] at h hbehind
      simp only [List.cons_append, head?_dropWhile_terminator hz tail v] at h ⊢
      split
      next hurl =>
        rw [if_pos hurl] at h
        split
        · rfl
        next hquote =>
          -- an address that ends within the text
          rw [if_neg hquote] at h
          rw [urlLength_stops hz tail v]
          dsimp only [List.length_cons] at h hbehind
          omega
      next => rfl
    · simp [hd]

theorem scan_slash_stops (es v : List Char) (h : (scan '/' (es ++ [z])).2 ≤ es.length + 1) :
    scan '/' (es ++ z :: v) = scan '/' (es ++ [z]) := by
  cases es with
  | nil =>
    have hstar : z ≠ '*' := of_isTerminator hz (by decide)
    simp [scan, hstar]
  | cons d es =>
    by_cases hd : d = '*'
    · subst hd
      simp only [scan, List.cons_append, List.length_cons] at h ⊢
      have hle : reach commentStep .body (es ++ [z]) ≤ es.length := by omega
      rw [commentLength_stops hz es v hle, Nat.add_comm 2]
      simp only [List.take_succ_cons, List.take_append_of_le_length hle]
    · simp [scan, hd]

theorem scanOther_stops (c : Char) (es v : List Char)
    (h : (scanOther c (es ++ [z])).2 ≤ es.length + 1) :
    scanOther c (es ++ z :: v) = scanOther c (es ++ [z]) := by
  have harrow : z ∉ ['-', '>'] := of_isTerminator hz (by decide)
  have hspace : isSpace z = false := of_isTerminator hz (by decide)
  have hsign : z ≠ '.' ∧ z ≠ '+' ∧ z ≠ '-' := of_isTerminator hz (by decide)
  have hnumber := startsNumber_append_cons hsign (c :: es) v
  have hname := startsName_terminator hz (c :: es) v
  simp only [List.cons_append] at hnumber hname
  simp only [scanOther, hnumber, hname, head?_append_cons es z v, isPrefixOf_append_cons _ harrow]
    at h ⊢
  split
  · rw [← List.cons_append, ← List.cons_append, List.takeWhile_append, List.takeWhile_append]
    simp [hspace]
  next hblank =>
    rw [if_neg hblank] at h
    split
    next hdigits =>
      rw [if_pos hdigits] at h
      rw [← List.cons_append, numberLength_stops hz (c :: es) v h, List.cons_append]
    next hdigits =>
      rw [if_neg hdigits] at h
      split
      · rfl
      next hdash =>
        rw [if_neg hdash] at h
        split
        next hstart =>
          rw [if_pos hstart] at h
          exact scanName_stops hz (c :: es) v h
        next => rfl

private theorem scan_stops (c : Char) (es v : List Char)
    (h : (scan c (es ++ [z])).2 ≤ es.length + 1) : scan c (es ++ z :: v) = scan c (es ++ [z]) := by
  have hnext := head?_append_cons es z v
  have hname := startsName_terminator hz es v
  by_cases hc : c ∈ signs
  · simp only [signs, List.mem_cons, List.not_mem_nil, or_false] at hc
    rcases hc with rfl | rfl | rfl | rfl | rfl | rfl | rfl | rfl | rfl | rfl | rfl | rfl | rfl | rfl
    · simp only [scan] at h ⊢
      rw [stringLength_stops hz '"' es v (by omega)]
    · simp only [scan] at h ⊢
      rw [stringLength_stops hz '\'' es v (by omega)]
    -- colon, semicolon and the six brackets do not look ahead
    iterate 8 rfl
    · simp only [scan, hname, hnext] at h ⊢
      split
      next hstart =>
        rw [if_pos hstart] at h
        dsimp only at h
        rw [nameLength_stops hz es v (by omega)]
      next => rfl
    · simp only [scan, hname] at h ⊢
      split
      next hstart =>
        rw [if_pos hstart] at h
        dsimp only at h
        have hle : nameLength (es ++ [z]) ≤ es.length := by omega
        rw [nameLength_stops hz es v hle, List.take_append_of_le_length hle,
          List.take_append_of_le_length hle]
      next => rfl
    · exact scan_slash_stops hz es v h
    · have hpre : z ∉ ['!', '-', '-'] := of_isTerminator hz (by decide)
      simp only [scan, isPrefixOf_append_cons _ hpre]
  · rw [scan_of_other hc] at h
    rw [scan_of_other hc, scan_of_other hc]
    exact scanOther_stops hz c es v h

/-! ### All lexemes of a text -/

theorem lex_terminator (rest : List Char) :
    ∃ kind, lex (z :: rest) = ⟨kind, String.ofList [z]⟩ :: lex rest := by
  exact of_isTerminator hz ⟨⟨_, lex_single rfl⟩, ⟨_, lex_single rfl⟩, ⟨_, lex_single rfl⟩⟩

theorem lex_dropLast (cs rest : List Char)
    (h : textOf (lex (cs ++ [z])).dropLast = String.ofList cs) :
    lex (cs ++ z :: rest) = (lex (cs ++ [z])).dropLast ++ lex (z :: rest) := by
  match cs with
  | [] =>
    obtain ⟨kind, hlex⟩ := lex_terminator hz []
    simp [hlex, lex]
  | c :: es =>
    obtain ⟨n, hn⟩ : ∃ n, n = (scan c (es ++ [z])).2 - 1 := ⟨_, rfl⟩
    by_cases hle : n ≤ es.length
    · have hscan := scan_stops hz c es rest (by omega)
      have hfirst := lex_append c es [z] (by rwa [← hn])
      have hlonger := lex_append c es (z :: rest) (by rwa [hscan, ← hn])
      rw [hscan, ← hn] at hlonger
      rw [← hn] at hfirst
      have hne : lex (es.drop n ++ [z]) ≠ [] := by
        cases es.drop n <;> simp [lex]
      rw [hfirst, List.dropLast_cons_of_ne_nil hne] at h ⊢
      have hrest : textOf (lex (es.drop n ++ [z])).dropLast = String.ofList (es.drop n) := by
        rw [textOf_cons, ← List.take_append_drop n es, ← List.cons_append, String.ofList_append]
          at h
        simpa using h
      rw [hlonger, lex_dropLast (es.drop n) rest hrest, List.cons_append]
    · -- the first lexeme takes the character behind the text
      have hall : lex (c :: es ++ [z]) =
          [⟨(scan c (es ++ [z])).1, String.ofList (c :: (es ++ [z]))⟩] := by
        rw [List.cons_append, lex, List.take_of_length_le (by simp; omega),
          List.drop_of_length_le (by simp; omega), lex]
      rw [hall, ← String.toList_inj] at h
      simp at h
termination_by cs.length
decreasing_by simp

end Scan

def lexBefore? (z : Char) (s : String) : Option (List Lexeme) :=
  let ls := (lex (s.toList ++ [z])).dropLast
  if textOf ls = s then some ls else none

/-- A text that is read as a whole in front of a character: its lexemes end where it ends, none of
them ends what is read, and no bracket is open behind them. -/
def IsClosed (z : Char) (s : String) : Prop :=
  ∃ ls, lexBefore? z s = some ls ∧ bracketsBehind [] ls = some []

instance (z : Char) (s : String) : Decidable (IsClosed z s) :=
  decidable_of_iff ((lexBefore? z s).any fun ls => bracketsBehind [] ls == some []) (by
    simp [IsClosed, Option.any_eq_true])

theorem isClosed_of_lex (hz : isTerminator z = true) {s : String} (ls : List Lexeme)
    (hlex : lex (s.toList ++ [z]) = ls ++ lex [z]) (htext : textOf ls = s)
    (hclosed : bracketsBehind [] ls = some []) : IsClosed z s := by
  obtain ⟨kind, hlast⟩ := lex_terminator hz []
  refine ⟨ls, ?_, hclosed⟩
  rw [lexBefore?, hlex, hlast]
  simp [lex, htext]

theorem lexBefore?_eq_some (hz : isTerminator z = true) {s : String} {ls : List Lexeme}
    (h : lexBefore? z s = some ls) :
    textOf ls = s ∧ (∀ rest, lex (s.toList ++ z :: rest) = ls ++ lex (z :: rest)) ∧
      ∀ l ∈ ls, l.kind = .colon → ':' ∈ l.text.toList := by
  unfold lexBefore? at h
  dsimp only at h
  split at h
  next htext =>
    cases h
    refine ⟨htext, fun rest => lex_dropLast hz _ rest (by rw [htext, String.ofList_toList]), ?_⟩
    exact fun l hl => text_of_colon (List.mem_of_mem_dropLast hl)
  next => cases h

end UtilityCss
