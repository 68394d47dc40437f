import Mathlib
import UtilityCss.Lexeme.Basic

/-!
How far lexemes reach. A name, a number and a string end before the first character that cannot be
part of them, and nothing behind that character has a say in it. Lengths with this property compose.
-/
namespace UtilityCss

open Text Lexeme

/-- In front of `y`, what `f` measures ends with the text and does not depend on what follows. The
texts are those that satisfy `p`. -/
def EndsBefore (p : List Char → Prop) (y : Char) (f : List Char → Nat) : Prop :=
  ∀ x, p x → ∃ n ≤ x.length, ∀ v, f (x ++ y :: v) = n

def andThen (f g : List Char → Nat) (cs : List Char) : Nat :=
  f cs + g (cs.drop (f cs))

theorem EndsBefore.andThen {p : List Char → Prop} {y : Char} {f g : List Char → Nat}
    (hp : ∀ x z, z <:+ x → p x → p z) (hf : EndsBefore p y f) (hg : EndsBefore p y g) :
    EndsBefore p y (andThen f g) := by
  intro x hx
  obtain ⟨n, hn, hf⟩ := hf x hx
  obtain ⟨m, hm, hg⟩ := hg (x.drop n) (hp x _ (List.drop_suffix n x) hx)
  rw [List.length_drop] at hm
  refine ⟨n + m, by omega, fun v => ?_⟩
  rw [UtilityCss.andThen, hf, List.drop_append_of_le_length hn, hg]

/-! ### The parts of a number -/

def digitsLength (cs : List Char) : Nat :=
  (cs.takeWhile Char.isDigit).length

def signLength (cs : List Char) : Nat :=
  if cs.head?.any (fun c => c == '+' || c == '-') then 1 else 0

def fractionLength (cs : List Char) : Nat :=
  if cs.head? = some '.' ∧ 0 < digitsLength (cs.drop 1) then digitsLength (cs.drop 1) + 1 else 0

def exponentLength (cs : List Char) : Nat :=
  if cs.head?.any (fun c => c == 'e' || c == 'E') ∧
      0 < digitsLength (cs.drop (signLength (cs.drop 1) + 1)) then
    digitsLength (cs.drop (signLength (cs.drop 1) + 1)) + signLength (cs.drop 1) + 1
  else 0

def unitLength (cs : List Char) : Nat :=
  if cs.head? = some '%' then 1 else if startsName cs then nameLength cs else 0

theorem numberLength_eq : numberLength =
    andThen (andThen (andThen (andThen signLength digitsLength) fractionLength) exponentLength)
      unitLength := by
  funext cs
  simp only [numberLength, andThen, digitsLength, signLength, fractionLength,
    exponentLength, unitLength, List.drop_drop]

variable {p : List Char → Prop} {y : Char}

theorem digitsLength_ends (hy : y.isDigit = false) : EndsBefore p y digitsLength := by
  intro x _
  refine ⟨digitsLength x, (List.takeWhile_sublist _).length_le, fun v => ?_⟩
  unfold digitsLength
  rw [List.takeWhile_append]
  split
  next hall => simp [hy, hall]
  next => rfl

theorem signLength_ends (hy : (y == '+' || y == '-') = false) : EndsBefore p y signLength := by
  intro x _
  cases x with
  | nil => exact ⟨0, Nat.le_refl 0, fun v => by simp [signLength, hy]⟩
  | cons c x =>
    refine ⟨signLength [c], ?_, fun v => rfl⟩
    unfold signLength
    split <;> simp

theorem fractionLength_ends (hy : y ≠ '.') (hdigit : y.isDigit = false) :
    EndsBefore p y fractionLength := by
  intro x hx
  cases x with
  | nil => exact ⟨0, Nat.le_refl 0, fun v => by simp [fractionLength, hy]⟩
  | cons c x =>
    obtain ⟨n, hn, hdigits⟩ := digitsLength_ends (p := fun _ => True) hdigit x trivial
    refine ⟨if c = '.' ∧ 0 < n then n + 1 else 0, ?_, fun v => ?_⟩
    · split
      · simpa using hn
      · simp
    · simp [fractionLength, hdigits]

theorem exponentLength_ends (hy : (y == 'e' || y == 'E') = false)
    (hsign : (y == '+' || y == '-') = false) (hdigit : y.isDigit = false) :
    EndsBefore p y exponentLength := by
  intro x hx
  cases x with
  | nil => exact ⟨0, Nat.le_refl 0, fun v => by simp [exponentLength, hy]⟩
  | cons c x =>
    obtain ⟨m, hm, hsigns⟩ := signLength_ends (p := fun _ => True) hsign x trivial
    obtain ⟨n, hn, hdigits⟩ := digitsLength_ends (p := fun _ => True) hdigit (x.drop m) trivial
    rw [List.length_drop] at hn
    refine ⟨if (c == 'e' || c == 'E') = true ∧ 0 < n then n + m + 1 else 0, ?_, fun v => ?_⟩
    · split
      · simp only [List.length_cons]
        omega
      · simp
    · simp [exponentLength, hsigns, List.drop_append_of_le_length hm, hdigits]

theorem startsName_cons (c : Char) (cs : List Char) : startsName (c :: cs) =
    if c = '-' then cs.head?.any fun d => isNameStart d || d == '-' || d == '\\'
    else if c = '\\' then !cs.head?.any isNewline
    else isNameStart c := by
  by_cases hdash : c = '-'
  · subst hdash
    cases cs <;> rfl
  · by_cases hslash : c = '\\'
    · subst hslash
      rfl
    · rw [if_neg hdash, if_neg hslash]
      unfold startsName
      split <;> simp_all

theorem head?_append_cons (x : List Char) (y : Char) (v : List Char) :
    (x ++ y :: v).head? = (x ++ [y]).head? := by
  cases x <;> rfl

theorem startsName_ends (hdash : y ≠ '-') (hslash : y ≠ '\\') (x : List Char) :
    ∃ b, ∀ v, startsName (x ++ y :: v) = b := by
  refine ⟨startsName (x ++ [y]), fun v => ?_⟩
  cases x with
  | nil => simp [startsName_cons, hdash, hslash]
  | cons c x => simp only [List.cons_append, startsName_cons, head?_append_cons x y v]

private theorem unitLength_ends (hy : y ≠ '%') (hdash : y ≠ '-') (hslash : y ≠ '\\')
    (hname : EndsBefore p y nameLength) : EndsBefore p y unitLength := by
  intro x hx
  obtain ⟨n, hn, hname⟩ := hname x hx
  obtain ⟨b, hstart⟩ := startsName_ends hdash hslash x
  refine ⟨if x.head? = some '%' then 1 else if b then n else 0, ?_, fun v => ?_⟩
  · split
    next hhead => cases x <;> simp_all
    next => split <;> omega
  · cases x with
    | nil => simp_all [unitLength]
    | cons c x => simp_all [unitLength]

def isNumberChar (c : Char) : Bool :=
  isNameChar c || c == '.' || c == '%' || c == '+'

theorem numberLength_ends (hp : ∀ x z, z <:+ x → p x → p z) (hy : isNumberChar y = false)
    (hslash : y ≠ '\\') (hname : EndsBefore p y nameLength) : EndsBefore p y numberLength := by
  have hdigit : y.isDigit = false := by simp_all [isNumberChar, isNameChar]
  have hdot : y ≠ '.' := by rintro rfl; simp [isNumberChar] at hy
  have hpercent : y ≠ '%' := by rintro rfl; simp [isNumberChar] at hy
  have hdash : y ≠ '-' := by rintro rfl; simp [isNumberChar, isNameChar] at hy
  have hsign : (y == '+' || y == '-') = false := by
    have hplus : y ≠ '+' := by rintro rfl; simp [isNumberChar] at hy
    simp [hplus, hdash]
  have hmark : (y == 'e' || y == 'E') = false := by
    simp only [Bool.or_eq_false_iff, beq_eq_false_iff_ne]
    constructor <;> rintro rfl <;> simp [isNumberChar, isNameChar, isNameStart] at hy
  rw [numberLength_eq]
  have whole := (signLength_ends (p := p) hsign).andThen hp (digitsLength_ends hdigit)
  have decimal := whole.andThen hp (fractionLength_ends hdot hdigit)
  have scaled := decimal.andThen hp (exponentLength_ends hmark hsign hdigit)
  exact scaled.andThen hp (unitLength_ends hpercent hdash hslash hname)

theorem nameLength_text {cs : List Char} {z : Char} (rest : List Char) (hcs : '\\' ∉ cs)
    (hz : isNameChar z = false) (hz' : z ≠ '\\') :
    nameLength (cs ++ z :: rest) = (cs.takeWhile isNameChar).length := by
  unfold nameLength
  induction cs with
  | nil => simp [reach, nameStep, Escape.step, hz, hz']
  | cons c cs ih =>
    simp only [List.mem_cons, not_or] at hcs
    simp only [List.cons_append, reach, nameStep, Escape.step, List.takeWhile_cons]
    by_cases hc : isNameChar c = true
    · simp [hc, ih hcs.2]
    · simp [hc, Ne.symm hcs.1]

/-! ### Automata that a line end stops -/

def isLineMark (c : Char) : Bool :=
  c == ';' || c == '\x7d' || c == '/'

def IsLine (x : List Char) : Prop :=
  ∀ c ∈ x.getLast?, isLineMark c = true

theorem IsLine.suffix (x z : List Char) (h : z <:+ x) (hx : IsLine x) : IsLine z := by
  obtain ⟨w, rfl⟩ := h
  intro c hc
  exact hx c (by rw [List.getLast?_append, hc]; rfl)

/-- An automaton that stops at a line end in some states, and is in one of them behind a line mark.
-/
theorem reach_ends {σ : Type} {step : σ → Char → Option Char → Option σ} (idle : σ → Prop)
    (hstop : ∀ s next, idle s → step s '\n' next = none)
    (hmark : ∀ s c next s', isLineMark c = true → step s c next = some s' → idle s') {s : σ}
    (hs : idle s) : EndsBefore IsLine '\n' (reach step s) := by
  suffices ∀ x s, IsLine x → (x = [] → idle s) →
      ∃ n ≤ x.length, ∀ v, reach step s (x ++ '\n' :: v) = n from
    fun x hx => this x s hx fun _ => hs
  intro x
  induction x with
  | nil =>
    intro s _ hs
    exact ⟨0, Nat.le_refl 0, fun v => by simp [reach, hstop s _ (hs rfl)]⟩
  | cons c x ih =>
    intro s hx _
    have look : ∀ v, (x ++ '\n' :: v).head? = (x ++ ['\n']).head? := head?_append_cons x '\n'
    cases hstep : step s c (x ++ ['\n']).head? with
    | none => exact ⟨0, Nat.zero_le _, fun v => by
        simp only [List.cons_append, reach, look, hstep]⟩
    | some s' =>
      have idle' : x = [] → idle s' := by
        rintro rfl
        exact hmark s c _ s' (hx c (by simp)) hstep
      obtain ⟨n, hn, hreach⟩ := ih s' (IsLine.suffix (c :: x) x (List.suffix_cons c x) hx) idle'
      exact ⟨n + 1, by simpa using hn, fun v => by
        simp only [List.cons_append, reach, look, hstep, hreach]⟩

theorem isLineMark_iff {c : Char} : isLineMark c = true ↔ c = ';' ∨ c = '\x7d' ∨ c = '/' := by
  simp [isLineMark, or_assoc]

theorem Escape.step_mark {σ : Type} {inside : Escape → σ} {e : Escape} {c : Char}
    {next : Option Char} {other : Option σ} {s' : σ} (hc : isLineMark c = true)
    (h : e.step inside c next other = some s') : s' = inside .plain ∨ other = some s' := by
  have hhex : isHexDigit c = false := by
    rcases isLineMark_iff.1 hc with rfl | rfl | rfl <;> decide
  have hspace : ¬(c = ' ' ∨ c = '\t') := by
    rcases isLineMark_iff.1 hc with rfl | rfl | rfl <;> decide
  have hline : isNewline c = false := by
    rcases isLineMark_iff.1 hc with rfl | rfl | rfl <;> decide
  cases e with
  | plain => exact .inr h
  | slash =>
    simp only [Escape.step, Escape.afterEscaped, hhex] at h
    exact .inl (by simpa using h.symm)
  | feed => exact .inl (by simpa [Escape.step] using h.symm)
  | hex left =>
    simp only [Escape.step, hhex, hspace, hline] at h
    exact .inr (by simpa using h)

theorem nameLength_ends : EndsBefore IsLine '\n' nameLength := by
  refine reach_ends (· = .plain) ?_ ?_ rfl
  · rintro s next rfl
    rfl
  · intro s c next s' hc hstep
    rcases Escape.step_mark hc hstep with h | h
    · exact h
    · have hname : isNameChar c = false := by
        rcases isLineMark_iff.1 hc with rfl | rfl | rfl <;> decide
      have hslash : c ≠ '\\' := by
        rcases isLineMark_iff.1 hc with rfl | rfl | rfl <;> decide
      simp [hname, hslash] at h

theorem stringLength_ends (quote : Char) (hquote : quote = '"' ∨ quote = '\'') :
    EndsBefore IsLine '\n' (reach (stringStep quote) (some .plain)) := by
  refine reach_ends (fun s => s = none ∨ s = some .plain) ?_ ?_ (.inr rfl)
  · rintro s next (rfl | rfl)
    · rfl
    · rcases hquote with rfl | rfl <;> rfl
  · intro s c next s' hc hstep
    obtain ⟨e, rfl, hinner⟩ := Option.bind_eq_some_iff.1 hstep
    have hline : isNewline c = false := by
      rcases isLineMark_iff.1 hc with rfl | rfl | rfl <;> decide
    have hslash : c ≠ '\\' := by
      rcases isLineMark_iff.1 hc with rfl | rfl | rfl <;> decide
    rw [if_neg (by simp [hline])] at hinner
    rcases Escape.step_mark hc hinner with h | h
    · exact .inr h
    · simp only [hline, hslash] at h
      split at h <;> simp_all

/-! ### Automata that go on until they are closed -/

structure Awaits {σ : Type} (step : σ → Char → Option Char → Option σ)
    (closed : σ → Prop) (z : Char) : Prop where
  stop : ∀ s c next, step s c next = none ↔ closed s
  close : ∀ s c next s', step s c next = some s' → closed s' → c = z

theorem commentStep_awaits : Awaits commentStep (· = .closed) '/' where
  stop s c next := by
    unfold commentStep
    split <;> simp_all
  close s c next s' h hclosed := by
    subst hclosed
    unfold commentStep at h
    split at h
    · cases h
    · rfl
    · split at h <;> cases h

theorem urlBodyStep_closed {c : Char} {next : Option Char} (h : urlBodyStep c next = .closed) :
    c = ')' := by
  unfold urlBodyStep at h
  split at h
  · cases h
  · split at h
    next hc => exact hc
    next =>
      split at h
      · cases h
      · split at h
        · split at h <;> cases h
        · cases h

theorem Escape.step_some {σ : Type} {inside : Escape → σ} {e : Escape} {c : Char}
    {next : Option Char} {other : Option σ} {s' : σ} (h : e.step inside c next other = some s') :
    (∃ e', s' = inside e') ∨ other = some s' := by
  cases e with
  | plain => exact .inr h
  | slash => exact .inl ⟨_, (Option.some.inj h).symm⟩
  | feed => exact .inl ⟨_, (Option.some.inj h).symm⟩
  | hex left =>
    simp only [Escape.step] at h
    split at h
    · exact .inl ⟨_, (Option.some.inj h).symm⟩
    · split at h
      · exact .inl ⟨_, (Option.some.inj h).symm⟩
      · split at h
        · exact .inl ⟨_, (Option.some.inj h).symm⟩
        · exact .inr h

theorem urlStep_awaits : Awaits urlStep (· = .closed) ')' where
  stop s c next := by
    cases s with
    | closed => simp [urlStep]
    | lead => simp only [urlStep]; split <;> simp
    | body e =>
      cases e with
      | hex left =>
        simp only [urlStep, Escape.step]
        repeat' split
        all_goals simp
      | _ => simp [urlStep, Escape.step]
    | _ => simp [urlStep]
  close s c next s' h hclosed := by
    subst hclosed
    cases s with
    | closed => cases h
    | lead =>
      simp only [urlStep] at h
      split at h
      · cases h
      · exact urlBodyStep_closed (Option.some.inj h)
    | body e =>
      rcases Escape.step_some h with ⟨e', h⟩ | h
      · cases h
      · exact urlBodyStep_closed (Option.some.inj h)
    | trail =>
      simp only [urlStep, Option.some.injEq] at h
      split at h
      next hc => exact hc
      next => split at h <;> cases h
    | bad =>
      simp only [urlStep, Option.some.injEq] at h
      split at h
      next hc => exact hc
      next => split at h <;> cases h
    | badSlash => cases h

namespace Awaits

variable {σ : Type} {step : σ → Char → Option Char → Option σ} {closed : σ → Prop} {z : Char}

theorem reach_last (h : Awaits step closed z) {s : σ} (hs : ¬closed s) {w : List Char}
    (hrest : w.drop (reach step s w) ≠ []) : z ∈ (w.take (reach step s w)).getLast? := by
  induction w generalizing s with
  | nil => simp at hrest
  | cons c w ih =>
    cases hstep : step s c w.head? with
    | none => exact absurd ((h.stop s c _).1 hstep) hs
    | some s' =>
      simp only [reach, hstep, List.drop_succ_cons] at hrest
      simp only [reach, hstep, List.take_succ_cons, List.getLast?_cons, Option.mem_some_iff]
      by_cases hc : closed s'
      · have stopped : reach step s' w = 0 := by
          cases w with
          | nil => rfl
          | cons d w => simp [reach, (h.stop s' d _).2 hc]
        simp [stopped, h.close s c _ s' hstep hc]
      · simp [Option.mem_def.1 (ih hc hrest)]

theorem reach_line (h : Awaits step closed z) (hz : z ≠ '\n') (x : List Char) (s : σ) :
    (∃ n ≤ x.length, ∀ v, reach step s (x ++ '\n' :: v) = n) ∨
      ∀ v, ∃ s', ¬closed s' ∧ reach step s (x ++ '\n' :: v) = x.length + 1 + reach step s' v := by
  induction x generalizing s with
  | nil =>
    by_cases hs : closed s
    · exact .inl ⟨0, Nat.le_refl 0, fun v => by simp [reach, (h.stop s '\n' v.head?).2 hs]⟩
    · refine .inr fun v => ?_
      cases hstep : step s '\n' v.head? with
      | none => exact absurd ((h.stop s '\n' _).1 hstep) hs
      | some s' =>
        refine ⟨s', fun hc => hz (h.close s '\n' _ s' hstep hc).symm, ?_⟩
        simp [reach, hstep, Nat.add_comm]
  | cons c x ih =>
    have look : ∀ v, (x ++ '\n' :: v).head? = (x ++ ['\n']).head? := head?_append_cons x '\n'
    cases hstep : step s c (x ++ ['\n']).head? with
    | none =>
      exact .inl ⟨0, Nat.zero_le _, fun v => by simp only [List.cons_append, reach, look, hstep]⟩
    | some s' =>
      rcases ih s' with ⟨n, hn, hreach⟩ | hreach
      · exact .inl ⟨n + 1, by simpa using hn, fun v => by
          simp only [List.cons_append, reach, look, hstep, hreach]⟩
      · refine .inr fun v => ?_
        obtain ⟨s'', hopen, hv⟩ := hreach v
        refine ⟨s'', hopen, ?_⟩
        simp only [List.cons_append, reach, look, hstep, hv, List.length_cons]
        omega

end Awaits

/-! ### What stands at the front -/

theorem isPrefixOf_append_cons (pre : List Char) {z : Char} (hpre : z ∉ pre) (es v : List Char) :
    pre.isPrefixOf (es ++ z :: v) = pre.isPrefixOf es := by
  induction pre generalizing es with
  | nil => simp
  | cons d pre ih =>
    simp only [List.mem_cons, not_or] at hpre
    cases es with
    | nil => simp [List.isPrefixOf, Ne.symm hpre.1]
    | cons e es => simp [List.isPrefixOf, ih hpre.2]

def startsDigits (cs : List Char) : Bool :=
  match cs with
  | '.' :: d :: _ => d.isDigit
  | d :: _ => d.isDigit
  | [] => false

theorem startsDigits_cons (d : Char) (cs : List Char) :
    startsDigits (d :: cs) = if d = '.' then cs.head?.any Char.isDigit else d.isDigit := by
  by_cases hd : d = '.'
  · subst hd
    cases cs <;> rfl
  · rw [if_neg hd]
    unfold startsDigits
    split <;> simp_all

theorem startsNumber_cons (d : Char) (cs : List Char) :
    startsNumber (d :: cs) = startsDigits (if d = '+' ∨ d = '-' then cs else d :: cs) := by
  by_cases hd : d = '+' ∨ d = '-'
  · rw [if_pos hd]
    rcases hd with rfl | rfl <;> rfl
  · rw [if_neg hd]
    unfold startsNumber
    split
    case h_1 heq => exact absurd (.inl (List.cons.inj heq).1) hd
    case h_2 heq => exact absurd (.inr (List.cons.inj heq).1) hd
    case h_3 => rfl

theorem startsNumber_append_cons {z : Char} (hz : z ≠ '.' ∧ z ≠ '+' ∧ z ≠ '-') (x v : List Char) :
    startsNumber (x ++ z :: v) = startsNumber (x ++ [z]) := by
  have hdigits : ∀ x : List Char, startsDigits (x ++ z :: v) = startsDigits (x ++ [z]) := by
    intro x
    cases x with
    | nil => simp [startsDigits_cons, hz.1]
    | cons d x => simp only [List.cons_append, startsDigits_cons, head?_append_cons x z v]
  cases x with
  | nil => simpa [startsNumber_cons, hz.2.1, hz.2.2] using hdigits []
  | cons d x =>
    simp only [List.cons_append, startsNumber_cons]
    split
    · exact hdigits x
    · exact hdigits (d :: x)

/-! ### The lexeme that a character begins -/

def signs : List Char :=
  ['"', '\'', '(', ')', '[', ']', '\x7b', '\x7d', ':', ';', '#', '@', '/', '<']

def scanOther (c : Char) (cs : List Char) : Kind × Nat :=
  if isSpace c then (.space, ((c :: cs).takeWhile isSpace).length)
  else if startsNumber (c :: cs) then (.other, numberLength (c :: cs))
  else if c = '-' ∧ ['-', '>'].isPrefixOf cs then (.other, 3)
  else if startsName (c :: cs) then scanName (c :: cs)
  else if ['$', '*', '^', '|', '~'].contains c && cs.head? == some '=' then (.other, 2)
  else (.other, 1)

theorem scan_of_other {c : Char} (hc : c ∉ signs) (cs : List Char) :
    scan c cs = scanOther c cs := by
  simp only [signs, List.mem_cons, List.not_mem_nil, or_false, not_or] at hc
  unfold scan
  split
  case h_15 => rfl
  all_goals simp at hc

end UtilityCss
