import UtilityCss.Proofs.LexemeReach
import UtilityCss.Proofs.Reading

/-!
Plain text: selectors, values and params without quotes, escapes and comments, whose brackets are
nested. It is read as a run of lexemes that ends where the text ends and leaves no bracket open. An
address swallows brackets that the reader then does not count, so the reader counts some of the open
brackets and never more.
-/
namespace UtilityCss

open Text Lexeme

def isTextChar (c : Char) : Bool :=
  c.isAlphanum ||
    [' ', '-', '_', '.', '#', '%', ',', '&', '>', '=', ':', '(', ')', '[', ']'].contains c

def isBracketChar (c : Char) : Bool :=
  ['(', ')', '[', ']'].contains c

def nestStep (brackets : List Bracket) (c : Char) : Option (List Bracket) :=
  match c with
  | '(' => some (.round :: brackets)
  | '[' => some (.square :: brackets)
  | ')' => if brackets.head? = some .round then some brackets.tail else none
  | ']' => if brackets.head? = some .square then some brackets.tail else none
  | _ => some brackets

def nest (brackets : List Bracket) (cs : List Char) : Option (List Bracket) :=
  cs.foldlM nestStep brackets

@[simp] theorem nest_nil (brackets : List Bracket) : nest brackets [] = some brackets := rfl

theorem nest_cons (brackets : List Bracket) (c : Char) (cs : List Char) :
    nest brackets (c :: cs) = (nestStep brackets c).bind (nest · cs) := rfl

theorem nest_append (brackets : List Bracket) (xs ys : List Char) :
    nest brackets (xs ++ ys) = (nest brackets xs).bind (nest · ys) := by
  simp only [nest, List.foldlM_append]
  rfl

private theorem nestStep_of_free {c : Char} (brackets : List Bracket)
    (h : isBracketChar c = false) : nestStep brackets c = some brackets := by
  unfold nestStep
  split <;> simp_all [isBracketChar]

theorem nest_of_free {cs : List Char} (brackets : List Bracket)
    (h : ∀ c ∈ cs, isBracketChar c = false) : nest brackets cs = some brackets := by
  induction cs with
  | nil => rfl
  | cons c cs ih =>
    rw [nest_cons, nestStep_of_free brackets (h c (by simp))]
    exact ih fun x hx => h x (by simp [hx])

theorem nest_above {cs : List Char} (above brackets : List Bracket) {behind : List Bracket}
    (h : nest (above ++ .round :: brackets) cs = some behind) (hfree : ')' ∉ cs) :
    ∃ above', behind = above' ++ .round :: brackets := by
  induction cs generalizing above with
  | nil => exact ⟨above, by simpa using h.symm⟩
  | cons c cs ih =>
    simp only [List.mem_cons, not_or] at hfree
    rw [nest_cons] at h
    obtain ⟨next, hnext, h⟩ := Option.bind_eq_some_iff.1 h
    suffices ∃ above', next = above' ++ .round :: brackets by
      obtain ⟨above', rfl⟩ := this
      exact ih above' h hfree.2
    unfold nestStep at hnext
    split at hnext
    · exact ⟨.round :: above, by simpa using hnext.symm⟩
    · exact ⟨.square :: above, by simpa using hnext.symm⟩
    · exact absurd rfl hfree.1
    · cases above with
      | nil => simp at hnext
      | cons b above => exact ⟨above, by simp_all⟩
    · exact ⟨above, by simpa using hnext.symm⟩

theorem exists_close {cs : List Char} (brackets : List Bracket)
    (h : nest (.round :: brackets) cs = some []) :
    ∃ inner outer behind, cs = inner ++ ')' :: outer ∧ ')' ∉ inner ∧
      nest (.round :: brackets) (inner ++ [')']) = some behind ∧ brackets.Sublist behind := by
  have mem : ')' ∈ cs := by
    apply Decidable.byContradiction
    intro hfree
    obtain ⟨above, h⟩ := nest_above [] brackets h hfree
    simp at h
  obtain ⟨inner, outer, rfl, hfree⟩ := List.eq_append_cons_of_mem mem
  rw [nest_append] at h
  obtain ⟨mid, hmid, h⟩ := Option.bind_eq_some_iff.1 h
  obtain ⟨above, rfl⟩ := nest_above [] brackets hmid hfree
  rw [nest_cons] at h
  obtain ⟨behind, hbehind, -⟩ := Option.bind_eq_some_iff.1 h
  refine ⟨inner, outer, behind, rfl, hfree, ?_, ?_⟩
  · rw [nest_append, hmid]
    simpa [nest_cons] using hbehind
  · simp only [nestStep] at hbehind
    split at hbehind
    · cases above with
      | nil => simp_all
      | cons b above =>
        have : behind = above ++ .round :: brackets := by simpa using hbehind.symm
        rw [this]
        exact (List.sublist_cons_self ..).trans (List.sublist_append_right ..)
    · cases hbehind

/-! ### How far a lexeme reaches -/

theorem numberLength_text {cs : List Char} {z : Char} (rest : List Char) (hcs : '\\' ∉ cs)
    (hz : isNumberChar z = false) (hz' : z ≠ '\\') :
    numberLength (cs ++ z :: rest) ≤ (cs.takeWhile isNumberChar).length := by
  have ends : ∀ y, isNumberChar y = false → y ≠ '\\' → EndsBefore ('\\' ∉ ·) y numberLength := by
    intro y hy hy'
    refine numberLength_ends (fun x z h hx hz => hx (h.subset hz)) hy hy' fun x hx => ?_
    refine ⟨_, (List.takeWhile_sublist isNameChar).length_le, fun v => nameLength_text v hx ?_ hy'⟩
    simp_all [isNumberChar]
  have hfree : '\\' ∉ cs.takeWhile isNumberChar :=
    fun h => hcs ((List.takeWhile_sublist _).subset h)
  have hsplit := List.takeWhile_append_dropWhile (p := isNumberChar) (l := cs)
  cases hd : cs.dropWhile isNumberChar with
  | nil =>
    obtain ⟨n, hn, hlength⟩ := ends z hz hz' _ hfree
    rw [hd, List.append_nil] at hsplit
    rw [hsplit] at hn hlength ⊢
    rw [hlength]
    exact hn
  | cons y ds =>
    have hy : isNumberChar y = false := by
      have h := List.head?_dropWhile_not isNumberChar cs
      simpa [hd] using h
    have hmem : y ∈ cs := (List.dropWhile_sublist isNumberChar).subset (hd ▸ List.mem_cons_self)
    obtain ⟨n, hn, hlength⟩ := ends y hy (fun h => hcs (h ▸ hmem)) _ hfree
    rw [hd] at hsplit
    have h := hlength (ds ++ z :: rest)
    rw [← List.cons_append, ← List.append_assoc, hsplit] at h
    rw [h]
    exact hn

def isLive : UrlState → Bool
  | .lead | .body .plain | .trail | .bad => true
  | _ => false

private theorem urlStep_live {s : UrlState} {c : Char} (next : Option Char) (hs : isLive s = true)
    (hc : c ≠ ')') (hc' : c ≠ '\\') : ∃ s', urlStep s c next = some s' ∧ isLive s' = true := by
  have body : isLive (urlBodyStep c next) = true := by
    unfold urlBodyStep
    simp only [if_neg hc, if_neg hc']
    split
    · rfl
    · split <;> rfl
  unfold isLive at hs
  split at hs
  · simp only [urlStep]
    split
    · exact ⟨_, rfl, rfl⟩
    · exact ⟨_, rfl, body⟩
  · exact ⟨_, rfl, body⟩
  · simp only [urlStep, if_neg hc]
    split <;> exact ⟨_, rfl, rfl⟩
  · simp only [urlStep, if_neg hc, if_neg hc']
    exact ⟨_, rfl, rfl⟩
  · cases hs

private theorem urlStep_close {s : UrlState} (next : Option Char) (hs : isLive s = true) :
    urlStep s ')' next = some .closed := by
  unfold isLive at hs
  split at hs
  · rfl
  · rfl
  · rfl
  · rfl
  · cases hs

theorem reach_url {inner : List Char} (outer : List Char) {s : UrlState} (hs : isLive s = true)
    (hinner : ')' ∉ inner) (hplain : '\\' ∉ inner) :
    reach urlStep s (inner ++ ')' :: outer) = inner.length + 1 := by
  induction inner generalizing s with
  | nil =>
    rw [List.nil_append, reach, urlStep_close _ hs]
    cases outer <;> simp [reach, urlStep]
  | cons c inner ih =>
    simp only [List.mem_cons, not_or] at hinner hplain
    obtain ⟨s', hstep, hs'⟩ := urlStep_live (inner ++ ')' :: outer).head? hs (Ne.symm hinner.1)
      (Ne.symm hplain.1)
    rw [List.cons_append, reach, hstep]
    simp [ih hs' hinner.2 hplain.2]

/-! ### The first lexeme of plain text -/

def isStop (c : Char) : Bool :=
  c == ' ' || c == ';' || c == ':'

theorem eq_of_isStop {c : Char} (h : isStop c = true) : c = ' ' ∨ c = ';' ∨ c = ':' := by
  simpa [isStop, or_assoc] using h

/-- What the first lexeme of a plain text takes, where `brackets` are open before it. -/
structure Taken (brackets : List Bracket) (c : Char) (cs : List Char) (scanned : Kind × Nat) :
    Prop where
  le : scanned.2 - 1 ≤ cs.length
  run : scanned.1.isRun = true
  start : c ≠ ' ' → scanned.1.isItemStart = true
  nested : ∃ behind, nest brackets (c :: cs.take (scanned.2 - 1)) = some behind ∧
    ∀ counted, counted.Sublist brackets → (scanned.1.turn counted).Sublist behind

theorem free_of {p : Char → Bool}
    (h : p '(' = false ∧ p ')' = false ∧ p '[' = false ∧ p ']' = false) (c : Char)
    (hc : p c = true) : isBracketChar c = false := by
  cases hb : isBracketChar c with
  | false => rfl
  | true =>
    simp only [isBracketChar, List.contains_cons, List.contains_nil, Bool.or_false, Bool.or_eq_true,
      beq_iff_eq] at hb
    rcases hb with rfl | rfl | rfl | rfl <;> simp_all

theorem Taken.free {brackets : List Bracket} {c : Char} {cs : List Char} {kind : Kind} {n : Nat}
    {p : Char → Bool} (hkind : kind = .other ∨ kind = .colon ∨ kind = .space ∧ c = ' ')
    (hp : ∀ x, p x = true → isBracketChar x = false) (hc : isBracketChar c = false)
    (hn : n - 1 ≤ (cs.takeWhile p).length) : Taken brackets c cs (kind, n) := by
  have le : n - 1 ≤ cs.length := Nat.le_trans hn (List.takeWhile_sublist p).length_le
  have free : ∀ x ∈ c :: cs.take (n - 1), isBracketChar x = false := by
    intro x hx
    rcases List.mem_cons.1 hx with rfl | hx
    · exact hc
    · have front : cs.take (n - 1) <+: cs.takeWhile p :=
        List.prefix_of_prefix_length_le (List.take_prefix ..) (List.takeWhile_prefix p)
          (by rw [List.length_take]; omega)
      exact hp x (List.all_eq_true.1 List.all_takeWhile x (front.subset hx))
  refine ⟨le, ?_, ?_, brackets, nest_of_free brackets free, ?_⟩
  · rcases hkind with rfl | rfl | ⟨rfl, -⟩ <;> rfl
  · intro hspace
    rcases hkind with rfl | rfl | ⟨-, rfl⟩
    · rfl
    · rfl
    · exact absurd rfl hspace
  · intro counted h
    rcases hkind with rfl | rfl | ⟨rfl, -⟩ <;> exact h

theorem Taken.opening {brackets : List Bracket} {c : Char} {cs name : List Char} {n : Nat}
    (hname : ∀ x ∈ name, isBracketChar x = false) (hcs : (c :: cs).take n = name ++ ['('])
    (hn : n = name.length + 1) (le : n ≤ cs.length + 1) :
    Taken brackets c cs (.opening .round, n) := by
  refine ⟨by omega, rfl, fun _ => rfl, .round :: brackets, ?_, fun counted h => h.cons_cons _⟩
  have : c :: cs.take (n - 1) = (c :: cs).take n := by rw [hn]; rfl
  rw [this, hcs, nest_append, nest_of_free brackets hname]
  rfl

theorem scanName_text {brackets : List Bracket} {c z : Char} {cs : List Char} (rest : List Char)
    (hchars : ∀ x ∈ c :: cs, isTextChar x = true) (hnest : nest brackets (c :: cs) = some [])
    (hc : isBracketChar c = false) (hz : isStop z = true) :
    Taken brackets c cs (scanName (c :: cs ++ z :: rest)) := by
  have hplain : '\\' ∉ c :: cs := fun h => by simpa [isTextChar] using hchars _ h
  have hstop : isNameChar z = false ∧ z ≠ '\\' ∧ z ≠ '(' := by
    rcases eq_of_isStop hz with rfl | rfl | rfl <;> decide
  obtain ⟨hzname, hzslash, hzround⟩ := hstop
  have hfree := free_of (p := isNameChar) (by decide)
  unfold scanName
  rw [nameLength_text rest hplain hzname hzslash]
  obtain ⟨name, hname⟩ : ∃ name, name = (c :: cs).takeWhile isNameChar := ⟨_, rfl⟩
  obtain ⟨tail, htail⟩ : ∃ tail, tail = (c :: cs).dropWhile isNameChar := ⟨_, rfl⟩
  have hcs : c :: cs = name ++ tail := by rw [hname, htail, List.takeWhile_append_dropWhile]
  have hbare : ∀ x ∈ name, isBracketChar x = false := fun x hx =>
    hfree x (List.all_eq_true.1 List.all_takeWhile x (hname ▸ hx))
  have hlength : cs.length + 1 = name.length + tail.length := by
    rw [← List.length_cons (a := c), hcs, List.length_append]
  rw [← hname]
  have hdrop : (c :: cs ++ z :: rest).drop name.length = tail ++ z :: rest := by
    rw [hcs, List.append_assoc, List.drop_left]
  simp only [hdrop]
  split
  case h_1 behind hbehind =>
    -- a parenthesis follows the name, and it is one of the text
    obtain ⟨inner, rfl, rfl⟩ : ∃ inner, tail = '(' :: inner ∧ behind = inner ++ z :: rest := by
      cases tail with
      | nil => exact absurd (List.cons.inj hbehind).1 hzround
      | cons d inner =>
        obtain ⟨rfl, rfl⟩ := List.cons.inj hbehind
        exact ⟨inner, rfl, rfl⟩
    rw [List.length_cons] at hlength
    have function : Taken brackets c cs (.opening .round, name.length + 1) := by
      refine .opening hbare ?_ rfl (by omega)
      rw [hcs, ← List.singleton_append, ← List.append_assoc]
      exact List.take_left' (by simp)
    split
    · split
      · exact function
      · rw [hcs, nest_append, nest_of_free brackets hbare] at hnest
        obtain ⟨body, outer, open_, rfl, hbody, hopen, sub⟩ := exists_close brackets hnest
        have hslash : '\\' ∉ body := fun h => hplain (by rw [hcs]; simp [h])
        rw [List.append_assoc, List.cons_append, reach_url _ rfl hbody hslash]
        simp only [List.length_append, List.length_cons] at hlength
        have taken : c :: cs.take (name.length + 1 + (body.length + 1) - 1) =
            name ++ '(' :: (body ++ [')']) := by
          have : (c :: cs).take (name.length + 1 + (body.length + 1)) =
              c :: cs.take (name.length + 1 + (body.length + 1) - 1) := rfl
          rw [← this, hcs]
          have split_at : name ++ '(' :: (body ++ ')' :: outer) =
              (name ++ '(' :: (body ++ [')'])) ++ outer := by simp
          rw [split_at]
          exact List.take_left' (by simp; omega)
        refine ⟨by simp only; omega, rfl, fun _ => rfl, open_, ?_, fun counted h => h.trans sub⟩
        simp only [taken, nest_append, nest_of_free brackets hbare]
        exact hopen
    · exact function
  case h_2 =>
    refine .free (.inl rfl) hfree hc ?_
    rw [hname, List.takeWhile_cons]
    split <;> simp

private theorem turn_closing {b : Bracket} {counted brackets : List Bracket}
    (h : counted.Sublist (b :: brackets)) : ((Kind.closing b).turn counted).Sublist brackets := by
  cases counted with
  | nil => simp [Kind.turn]
  | cons a counted =>
    by_cases hab : a = b
    · subst hab
      simpa [Kind.turn] using h
    · simp only [Kind.turn, List.head?_cons, Option.some.injEq, if_neg hab]
      cases h with
      | cons _ h => exact h
      | cons_cons => exact absurd rfl hab

theorem Taken.closing {brackets : List Bracket} {c : Char} {cs : List Char} {b : Bracket}
    (hb : b ≠ .curly)
    (hstep : nestStep brackets c = if brackets.head? = some b then some brackets.tail else none)
    (hnest : nest brackets (c :: cs) = some []) : Taken brackets c cs (.closing b, 1) := by
  rw [nest_cons] at hnest
  obtain ⟨behind, hbehind, -⟩ := Option.bind_eq_some_iff.1 hnest
  rw [hstep] at hbehind
  split at hbehind
  case isTrue hhead =>
    obtain ⟨outer, rfl⟩ : ∃ outer, brackets = b :: outer := by
      cases brackets with
      | nil => simp at hhead
      | cons a outer => exact ⟨outer, by simpa using hhead⟩
    cases hbehind
    have hkind : (Kind.closing b).isItemStart = true := by cases b <;> trivial
    refine ⟨by simp, hkind, fun _ => hkind, outer, ?_, fun counted h => turn_closing h⟩
    simp [nest_cons, hstep]
  case isFalse => cases hbehind

theorem Taken.single {brackets : List Bracket} {c : Char} {cs : List Char}
    (hc : isBracketChar c = false) : Taken brackets c cs (.other, 1) :=
  .free (.inl rfl) (p := fun _ => false) (by simp) hc (by simp)

theorem eq_space_of_isSpace {c : Char} (hc : isTextChar c = true) (hspace : isSpace c = true) :
    c = ' ' := by
  simp only [isSpace, isNewline, Bool.or_eq_true, beq_iff_eq] at hspace
  rcases hspace with (rfl | rfl) | (rfl | rfl) | rfl
  · rfl
  all_goals exact absurd hc (by decide)

/-- Spaces end within the text, since it does not end with one. -/
theorem takeWhile_space_text {c : Char} {cs : List Char} (rest : List Char)
    (hchars : ∀ x ∈ c :: cs, isTextChar x = true) (hlast : (c :: cs).getLast? ≠ some ' ')
    (hspace : isSpace c = true) : (cs ++ rest).takeWhile isSpace = cs.takeWhile isSpace := by
  rw [List.takeWhile_append, if_neg]
  intro hall
  have spaces : ∀ x ∈ c :: cs, isSpace x = true := by
    intro x hx
    rcases List.mem_cons.1 hx with rfl | hx
    · exact hspace
    · rw [← (List.takeWhile_sublist isSpace).eq_of_length hall] at hx
      exact List.all_eq_true.1 List.all_takeWhile x hx
  have mem := List.getLast_mem (List.cons_ne_nil c cs)
  apply hlast
  rw [List.getLast?_eq_some_getLast (List.cons_ne_nil c cs),
    eq_space_of_isSpace (hchars _ mem) (spaces _ mem)]

/-- An arrow stands within the text or not at all, since neither of its characters may follow. -/
theorem Taken.arrow {brackets : List Bracket} {c z : Char} {cs : List Char} (rest : List Char)
    (hc : isBracketChar c = false) (hz : isStop z = true)
    (harrow : ['-', '>'].isPrefixOf (cs ++ z :: rest) = true) :
    Taken brackets c cs (.other, 3) := by
  have hstop : z ≠ '-' ∧ z ≠ '>' := by
    rcases eq_of_isStop hz with rfl | rfl | rfl <;> decide
  refine .free (.inl rfl) (p := fun x => x == '-' || x == '>') (free_of (by decide)) hc ?_
  match cs with
  | [] => simp [Ne.symm hstop.1] at harrow
  | [_] => simp [Ne.symm hstop.2] at harrow
  | d :: e :: cs =>
    simp only [List.cons_append, List.isPrefixOf_cons_cons, beq_iff_eq, Bool.and_eq_true] at harrow
    obtain ⟨rfl, rfl, -⟩ := harrow
    simp

theorem scanOther_text {brackets : List Bracket} {c z : Char} {cs : List Char} (rest : List Char)
    (hchars : ∀ x ∈ c :: cs, isTextChar x = true) (hlast : (c :: cs).getLast? ≠ some ' ')
    (hnest : nest brackets (c :: cs) = some []) (hc : isBracketChar c = false)
    (hz : isStop z = true) : Taken brackets c cs (scanOther c (cs ++ z :: rest)) := by
  have htext := hchars c (by simp)
  unfold scanOther
  split
  case isTrue hspace =>
    refine .free (.inr (.inr ⟨rfl, eq_space_of_isSpace htext hspace⟩))
      (free_of (p := isSpace) (by decide)) hc ?_
    rw [List.takeWhile_cons_of_pos hspace, List.length_cons, Nat.add_sub_cancel,
      takeWhile_space_text (z :: rest) hchars hlast hspace]
  case isFalse =>
    split
    case isTrue =>
      have hplain : '\\' ∉ c :: cs := fun h => by simpa [isTextChar] using hchars _ h
      have hstop : isNumberChar z = false ∧ z ≠ '\\' := by
        rcases eq_of_isStop hz with rfl | rfl | rfl <;> decide
      refine .free (.inl rfl) (free_of (p := isNumberChar) (by decide)) hc ?_
      have h := numberLength_text rest hplain hstop.1 hstop.2
      rw [List.takeWhile_cons, List.cons_append] at h
      split at h
      · exact Nat.sub_le_of_le_add h
      · rw [Nat.le_zero.1 h]
        simp
    case isFalse =>
      split
      case isTrue harrow => exact .arrow rest hc hz harrow.2
      case isFalse =>
        split
        case isTrue => exact scanName_text rest hchars hnest hc hz
        case isFalse =>
          split
          case isTrue hpair =>
            simp only [Bool.and_eq_true, List.contains_iff_mem] at hpair
            have marks : ∀ x ∈ ['$', '*', '^', '|', '~'], (!isTextChar x) = true :=
              List.all_eq_true.1 rfl
            exact absurd htext (by simpa using marks c hpair.1)
          case isFalse => exact .single hc

private theorem scan_text {brackets : List Bracket} {c z : Char} {cs : List Char} (rest : List Char)
    (hchars : ∀ x ∈ c :: cs, isTextChar x = true) (hlast : (c :: cs).getLast? ≠ some ' ')
    (hnest : nest brackets (c :: cs) = some []) (hz : isStop z = true) :
    Taken brackets c cs (scan c (cs ++ z :: rest)) := by
  have hc := hchars c (by simp)
  unfold scan
  split
  case h_3 => exact ⟨by simp, rfl, fun _ => rfl, .round :: brackets, rfl, fun _ h => h.cons_cons _⟩
  case h_4 => exact .closing (by decide) rfl hnest
  case h_5 => exact ⟨by simp, rfl, fun _ => rfl, .square :: brackets, rfl, fun _ h => h.cons_cons _⟩
  case h_6 => exact .closing (by decide) rfl hnest
  case h_9 => exact .free (.inr (.inl rfl)) (p := fun _ => false) (by simp) rfl (by simp)
  case h_11 =>
    have hplain : '\\' ∉ cs := fun h => by simpa [isTextChar] using hchars '\\' (by simp [h])
    have hstop : isNameChar z = false ∧ z ≠ '\\' := by
      rcases eq_of_isStop hz with rfl | rfl | rfl <;> decide
    rw [nameLength_text rest hplain hstop.1 hstop.2]
    split
    · exact .free (.inl rfl) (free_of (p := isNameChar) (by decide)) rfl (by simp)
    · exact .single rfl
  case h_15 _ _ hround hround' hsquare hsquare' _ _ _ _ _ _ _ _ =>
    have hbare : isBracketChar c = false := by
      simpa [isBracketChar] using ⟨hround, hround', hsquare, hsquare'⟩
    exact scanOther_text rest hchars hlast hnest hbare hz
  all_goals exact absurd hc (by decide)

/-! ### All lexemes of plain text -/

structure TextRun (brackets : List Bracket) (cs : List Char) (ls : List Lexeme) : Prop where
  text_eq : textOf ls = String.ofList cs
  run : ∀ l ∈ ls, l.kind.isRun = true
  start : cs.head? ≠ some ' ' → ∀ l ∈ ls.head?, l.kind.isItemStart = true
  closed : ∀ counted, counted.Sublist brackets →
    ls.foldl (fun bs l => l.kind.turn bs) counted = []

theorem lex_text (brackets : List Bracket) (cs : List Char) {z : Char} (rest : List Char)
    (hchars : ∀ x ∈ cs, isTextChar x = true) (hlast : cs.getLast? ≠ some ' ')
    (hnest : nest brackets cs = some []) (hz : isStop z = true) :
    ∃ ls, lex (cs ++ z :: rest) = ls ++ lex (z :: rest) ∧ TextRun brackets cs ls := by
  match cs with
  | [] =>
    refine ⟨[], rfl, rfl, by simp, by simp, ?_⟩
    intro counted h
    rw [nest_nil, Option.some.injEq] at hnest
    rw [hnest] at h
    exact List.sublist_nil.1 h
  | c :: cs =>
    have taken := scan_text rest hchars hlast hnest hz
    obtain ⟨n, hn⟩ : ∃ n, n = (scan c (cs ++ z :: rest)).2 - 1 := ⟨_, rfl⟩
    obtain ⟨le, run, start, behind, hbehind, sub⟩ := taken
    have hlex := lex_append c cs (z :: rest) le
    rw [← hn] at le hbehind hlex
    have hcs : c :: cs = (c :: cs.take n) ++ cs.drop n := by simp
    rw [hcs, nest_append, hbehind] at hnest
    -- the rest of the text is plain text behind the brackets of the first lexeme
    obtain ⟨ls, hls, tail⟩ := lex_text behind (cs.drop n) rest
      (fun x hx => hchars x (List.mem_cons_of_mem c (List.mem_of_mem_drop hx))) (fun h => hlast (by
        rw [hcs, List.getLast?_append, h]
        rfl)) hnest hz
    rw [hls] at hlex
    refine ⟨_ :: ls, hlex, ?_, ?_, ?_, ?_⟩
    · rw [textOf_cons, tail.text_eq, ← String.ofList_append, ← hcs]
    · intro l hl
      rcases List.mem_cons.1 hl with rfl | hl
      · exact run
      · exact tail.run l hl
    · intro hhead l hl
      cases hl
      exact start (by simpa using hhead)
    · intro counted h
      exact tail.closed _ (sub counted h)
termination_by cs.length
decreasing_by grind

end UtilityCss
