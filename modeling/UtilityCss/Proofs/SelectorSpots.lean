import UtilityCss.Proofs.ClassSelector

/-!
Where a body can open behind a selector. The reader takes the text in front of an opening bracket,
without the blanks around it, for the selector. In printed rules whose bodies do not show the
selector, its text stands in front of an opening bracket once for each rule.
-/
namespace UtilityCss

open Text

theorem exists_blank_tail (cs : List Char) :
    ∃ tail, cs = dropEndWhile isBlank cs ++ tail ∧ ∀ c ∈ tail, isBlank c = true := by
  refine ⟨(cs.reverse.takeWhile isBlank).reverse, ?_, ?_⟩
  · rw [dropEndWhile, ← List.reverse_append, List.takeWhile_append_dropWhile, List.reverse_reverse]
  · intro c hc
    exact List.all_eq_true.1 List.all_takeWhile c (List.mem_reverse.1 hc)

theorem dropEndWhile_append_blank {cs tail : List Char} (hcs : ∀ c ∈ cs.getLast?, isBlank c = false)
    (htail : ∀ c ∈ tail, isBlank c = true) : dropEndWhile isBlank (cs ++ tail) = cs := by
  rw [dropEndWhile, List.reverse_append, List.dropWhile_append_of_pos (by simpa using htail)]
  cases h : cs.reverse with
  | nil => simpa using h.symm
  | cons c rest =>
    have blank : isBlank c = false := hcs c (by rw [← List.head?_reverse, h]; rfl)
    rw [List.dropWhile_cons_of_neg (by simp [blank]), ← h, List.reverse_reverse]

theorem getLast?_dropEndWhile (cs : List Char) :
    ∀ c ∈ (dropEndWhile isBlank cs).getLast?, isBlank c = false := by
  intro c hc
  have front := List.head?_dropWhile_not isBlank cs.reverse
  rw [dropEndWhile, List.getLast?_reverse] at hc
  rw [Option.mem_def.1 hc] at front
  exact front

theorem append_split_line {part x y q b : List Char} (hpart : '\n' ∉ part)
    (h : q ++ part ++ b = x ++ '\n' :: y) :
    (∃ b', x = q ++ part ++ b' ∧ b = b' ++ '\n' :: y) ∨
      ∃ q', q = x ++ '\n' :: q' ∧ y = q' ++ part ++ b := by
  rcases List.append_eq_append_iff.1 h with ⟨b', hx, hb⟩ | ⟨z, hpq, hy⟩
  · exact .inl ⟨b', hx, hb⟩
  · rcases List.append_eq_append_iff.1 hpq with ⟨w, hx, hpart'⟩ | ⟨w, hq, hz⟩
    · cases z with
      | nil => exact .inl ⟨[], by simpa using hpq.symm, by simpa using hy.symm⟩
      | cons c z =>
        obtain ⟨rfl, -⟩ := List.cons.inj hy
        exact absurd (by simp [hpart']) hpart
    · cases w with
      | nil =>
        cases part with
        | nil => exact .inl ⟨[], by simp_all, by simp_all⟩
        | cons c part =>
          rw [hz] at hy
          obtain ⟨rfl, -⟩ := List.cons.inj hy
          exact absurd (by simp) hpart
      | cons c w =>
        rw [hz] at hy
        obtain ⟨rfl, hy⟩ := List.cons.inj hy
        exact .inr ⟨w, hq, by simpa using hy⟩

structure Selector where
  chars : List Char
  head : '.' ∈ chars.head?
  guarded : IsGuarded chars

namespace Selector

def ofName (name : String) : Selector :=
  ⟨selectorChars name, rfl, selectorChars_guarded name⟩

def core (s : Selector) : List Char :=
  dropEndWhile isBlank s.chars

variable (s : Selector)

theorem chars_eq : ∃ tail, s.chars = s.core ++ tail ∧ ∀ c ∈ tail, isBlank c = true :=
  exists_blank_tail s.chars

theorem core_head : ∃ cs, s.core = '.' :: cs := by
  obtain ⟨tail, hchars, htail⟩ := s.chars_eq
  have hhead := s.head
  rw [hchars] at hhead
  cases hcore : s.core with
  | nil =>
    rw [hcore] at hhead
    exact absurd (htail '.' (List.mem_of_mem_head? hhead)) (by decide)
  | cons c cs =>
    rw [hcore] at hhead
    cases hhead
    exact ⟨cs, rfl⟩

theorem exists_chars : ∃ cs, s.chars = '.' :: cs := by
  obtain ⟨cs, hcore⟩ := s.core_head
  obtain ⟨tail, hchars, -⟩ := s.chars_eq
  exact ⟨cs ++ tail, by rw [hchars, hcore, List.cons_append]⟩

theorem core_last : ∀ c ∈ s.core.getLast?, isBlank c = false :=
  getLast?_dropEndWhile s.chars

theorem newline_notMem_core : '\n' ∉ s.core := by
  obtain ⟨tail, hchars, -⟩ := s.chars_eq
  intro h
  exact s.guarded.line (by simp [hchars, h])

theorem last_append (q : List Char) : ∀ c ∈ (q ++ s.core).getLast?, isBlank c = false := by
  obtain ⟨cs, hcs⟩ := s.core_head
  intro c hc
  apply s.core_last c
  rw [hcs] at hc ⊢
  simpa [List.getLast?_append] using hc

def Behind (front : List Char) : Prop :=
  s.core <:+ dropEndWhile isBlank front

instance (front : List Char) : Decidable (s.Behind front) :=
  inferInstanceAs (Decidable (_ <:+ _))

theorem behind_iff (front : List Char) : s.Behind front ↔
    ∃ q tail, front = q ++ s.core ++ tail ∧ ∀ c ∈ tail, isBlank c = true := by
  constructor
  · rintro ⟨q, hq⟩
    obtain ⟨tail, hfront, htail⟩ := exists_blank_tail front
    exact ⟨q, tail, by rw [hq]; exact hfront, htail⟩
  · rintro ⟨q, tail, rfl, htail⟩
    exact ⟨q, (dropEndWhile_append_blank (s.last_append q) htail).symm⟩

theorem Behind.append {front : List Char} (h : s.Behind front) (past : List Char) :
    s.Behind (past ++ front) := by
  obtain ⟨q, tail, rfl, htail⟩ := (s.behind_iff front).1 h
  exact (s.behind_iff _).2 ⟨past ++ q, tail, by simp, htail⟩

def EndsLine (past : List Char) : Prop :=
  past = [] ∨ '\n' ∈ past.getLast?

theorem endsLine_close (x : List Char) : EndsLine (x ++ ['\x7d', '\n']) :=
  .inr (by simp)

theorem Behind.of_line {past cs : List Char} (hpast : EndsLine past)
    (h : s.Behind (past ++ '.' :: cs)) : s.Behind ('.' :: cs) := by
  rcases hpast with rfl | hpast
  · exact h
  · obtain ⟨x, rfl⟩ := List.getLast?_eq_some_iff.1 hpast
    obtain ⟨q, tail, hsplit, htail⟩ := (s.behind_iff _).1 h
    have hline : q ++ s.core ++ tail = x ++ '\n' :: '.' :: cs := by simp [← hsplit]
    rcases append_split_line s.newline_notMem_core hline with ⟨b, -, rfl⟩ | ⟨q', -, hcs⟩
    · exact absurd (htail '.' (by simp)) (by decide)
    · exact (s.behind_iff _).2 ⟨q', tail, hcs, htail⟩

structure IsBody (body : List Char) : Prop where
  first : '\n' ∈ body.head?
  last : ∃ ds, body = ds ++ ['\n'] ∧ IsLine ds

theorem IsBody.exists_tail {body : List Char} (h : IsBody body) :
    ∃ x, body = '\n' :: x ∧ EndsLine x := by
  cases body with
  | nil => exact absurd h.first (by simp)
  | cons d x =>
    obtain rfl : d = '\n' := by simpa using h.first
    obtain ⟨ds, hds, -⟩ := h.last
    refine ⟨x, rfl, ?_⟩
    cases x with
    | nil => exact .inl rfl
    | cons e x =>
      have last := congrArg List.getLast? hds
      exact .inr (by simpa [List.getLast?_cons_cons] using last)

def block (body : List Char) : List Char :=
  s.chars ++ ' ' :: '\x7b' :: (body ++ ['\x7d', '\n'])

variable {s}

theorem Behind.of_block {past body p z : List Char} (hp : s.Behind (past ++ p))
    (hpast : EndsLine past) (h : s.block body = p ++ '\x7b' :: z) : s.Behind p := by
  obtain ⟨cs, hcs⟩ := s.exists_chars
  rw [block, hcs, List.cons_append] at h
  cases p with
  | nil => simp at h
  | cons c p =>
    obtain ⟨rfl, -⟩ := List.cons.inj h
    exact Behind.of_line s hpast hp

theorem not_behind_early {p w : List Char} (h : s.chars ++ [' '] = p ++ '\x7b' :: w) :
    ¬s.Behind p := by
  intro hp
  obtain ⟨q, tail', rfl, -⟩ := (s.behind_iff p).1 hp
  obtain ⟨tail, hchars, htail⟩ := s.chars_eq
  have blanks : '\x7b' ∉ tail ++ [' '] := by
    intro hmem
    rcases List.mem_append.1 hmem with hmem | hmem
    · exact absurd (htail _ hmem) (by decide)
    · simp at hmem
  have same : s.core ++ (tail ++ [' ']) = (q ++ s.core ++ tail') ++ '\x7b' :: w := by
    rw [← h, hchars, List.append_assoc]
  rcases List.append_eq_append_iff.1 same with ⟨v, -, hv⟩ | ⟨v, hv, hw⟩
  · exact blanks (by simp [hv])
  · have short : v = [] := by
      have length_eq := congrArg List.length hv
      simp only [List.length_append] at length_eq
      exact List.eq_nil_of_length_eq_zero (by omega)
    rw [short, List.nil_append] at hw
    exact blanks (by simp [← hw])

theorem nil_of_behind {a p : List Char} (hp : s.Behind p)
    (h : a ++ p = s.chars ++ [' ']) : a = [] := by
  obtain ⟨q, tail', rfl, htail'⟩ := (s.behind_iff p).1 hp
  obtain ⟨tail, hchars, htail⟩ := s.chars_eq
  have left := dropEndWhile_append_blank (s.last_append (a ++ q)) htail'
  have right : dropEndWhile isBlank (s.core ++ (tail ++ [' '])) = s.core := by
    apply dropEndWhile_append_blank s.core_last
    intro c hc
    rcases List.mem_append.1 hc with hc | hc
    · exact htail c hc
    · rw [List.mem_singleton.1 hc]
      decide
  have same : a ++ q ++ s.core ++ tail' = s.core ++ (tail ++ [' ']) := by
    rw [← List.append_assoc, ← hchars, ← h]
    simp
  rw [same, right] at left
  have length_eq := congrArg List.length left
  simp only [List.length_append] at length_eq
  exact List.eq_nil_of_length_eq_zero (by omega)

theorem infix_of_behind_late {p : List Char}
    (h : s.Behind (s.chars ++ ' ' :: '\x7b' :: '\n' :: p)) : s.core <:+: p := by
  obtain ⟨q, tail', hsplit, htail'⟩ := (s.behind_iff _).1 h
  have hline : q ++ s.core ++ tail' = (s.chars ++ [' ', '\x7b']) ++ '\n' :: p := by simp [← hsplit]
  rcases append_split_line s.newline_notMem_core hline with ⟨b, hhead, rfl⟩ | ⟨q', -, rfl⟩
  · -- the selector would have to end with its own bracket, which is not escaped
    exfalso
    obtain ⟨cs, hcs⟩ := s.core_head
    obtain ⟨tail, hchars, -⟩ := s.chars_eq
    have hb : b = [] := by
      rcases List.eq_nil_or_concat b with rfl | ⟨b, c, rfl⟩
      · rfl
      · have hc : c = '\x7b' := by
          have last := congrArg List.getLast? hhead
          simpa using last.symm
        exact absurd (htail' c (by simp)) (by rw [hc]; decide)
    rw [hb, List.append_nil] at hhead
    rcases List.append_eq_append_iff.1 hhead with ⟨v, -, hv⟩ | ⟨v, -, hv⟩
    · have point : '.' ∈ [' ', '\x7b'] := by rw [hv, hcs]; simp
      simp at point
    · have escaped := s.guarded.curly (v ++ [' ']) tail (by rw [hchars, hv]; simp)
      simp at escaped
  · exact ⟨q', tail', rfl⟩

private theorem infix_of_infix_closed {p : List Char} (hp : EndsLine p)
    (h : s.core <:+: p ++ ['\x7d', '\n']) : s.core <:+: p := by
  obtain ⟨cs, hcs⟩ := s.core_head
  have point : ∀ q b : List Char, q ++ s.core ++ b ≠ ['\x7d', '\n'] := by
    intro q b hqb
    have mem : '.' ∈ ['\x7d', '\n'] := by rw [← hqb, hcs]; simp
    simp at mem
  obtain ⟨q, b, hqb⟩ := h
  rcases hp with rfl | hp
  · exact absurd hqb (point q b)
  · obtain ⟨x, rfl⟩ := List.getLast?_eq_some_iff.1 hp
    have hline : q ++ s.core ++ b = x ++ '\n' :: ['\x7d', '\n'] := by simp [hqb]
    rcases append_split_line s.newline_notMem_core hline with ⟨b', rfl, -⟩ | ⟨q', -, hclose⟩
    · exact ⟨q, b' ++ ['\n'], by simp⟩
    · exact absurd hclose.symm (point q' b)

/-- A body opens behind the selector at its own bracket only. -/
theorem behind_unique {past body p z : List Char} (hpast : EndsLine past) (hbody : IsBody body)
    (hfree : ¬s.core <:+: body) (h : s.block body = p ++ '\x7b' :: z) (hp : s.Behind (past ++ p)) :
    p = s.chars ++ [' '] := by
  have hp : s.Behind p := hp.of_block hpast h
  have hsplit : (s.chars ++ [' ']) ++ '\x7b' :: (body ++ ['\x7d', '\n']) = p ++ '\x7b' :: z := by
    rw [← h, block]
    simp
  rcases List.append_eq_append_iff.1 hsplit with ⟨w, hw, hrest⟩ | ⟨w, hw, hrest⟩
  · cases w with
    | nil => simpa using hw
    | cons c w =>
      simp only [List.cons_append, List.cons.injEq] at hrest
      obtain ⟨rfl, hrest⟩ := hrest
      obtain ⟨x, rfl, hx⟩ := hbody.exists_tail
      cases w with
      | nil => simp at hrest
      | cons d w =>
        simp only [List.cons_append, List.cons.injEq] at hrest
        obtain ⟨rfl, hrest⟩ := hrest
        have inside : s.core <:+: x ++ ['\x7d', '\n'] := by
          have late := infix_of_behind_late (p := w) (by simpa [hw] using hp)
          exact late.trans ⟨[], '\x7b' :: z, by simpa using hrest.symm⟩
        exact absurd ((infix_of_infix_closed hx inside).trans (List.suffix_cons ..).isInfix) hfree
  · cases w with
    | nil => simpa using hw.symm
    | cons c w =>
      simp only [List.cons_append, List.cons.injEq] at hrest
      obtain ⟨rfl, -⟩ := hrest
      exact absurd hp (not_behind_early hw)

/-! ### Counting the places -/

variable (s)

/-- How often a body can open behind the selector in a text, given what stands before the text. -/
def spots : List Char → List Char → Nat
  | _, [] => 0
  | past, c :: cs => (if c = '\x7b' ∧ s.Behind past then 1 else 0) + spots (past ++ [c]) cs

theorem spots_append (past x y : List Char) :
    s.spots past (x ++ y) = s.spots past x + s.spots (past ++ x) y := by
  induction x generalizing past with
  | nil => simp [spots]
  | cons c x ih => simp [spots, ih, Nat.add_assoc]

theorem spots_eq_zero {past cs : List Char}
    (h : ∀ p z, cs = p ++ '\x7b' :: z → ¬s.Behind (past ++ p)) : s.spots past cs = 0 := by
  induction cs generalizing past with
  | nil => rfl
  | cons c cs ih =>
    have here : ¬(c = '\x7b' ∧ s.Behind past) := by
      rintro ⟨rfl, hpast⟩
      exact h [] cs rfl (by simpa using hpast)
    rw [spots, if_neg here, Nat.zero_add]
    apply ih
    rintro p z rfl
    simpa using h (c :: p) z rfl

private theorem spots_le_spots_append (more past cs : List Char) :
    s.spots past cs ≤ s.spots (more ++ past) cs := by
  induction cs generalizing past with
  | nil => exact Nat.le_refl 0
  | cons c cs ih =>
    have rest := ih (past ++ [c])
    rw [← List.append_assoc] at rest
    simp only [spots]
    by_cases hc : c = '\x7b' ∧ s.Behind past
    · rw [if_pos hc, if_pos ⟨hc.1, hc.2.append s more⟩]
      omega
    · rw [if_neg hc]
      omega

def blocks (bodies : List (List Char)) : List Char :=
  bodies.flatMap s.block

theorem blocks_cons (s : Selector) (body : List Char) (bodies : List (List Char)) :
    s.blocks (body :: bodies) = s.block body ++ s.blocks bodies := rfl

theorem exists_blocks (s : Selector) (body : List Char) (bodies : List (List Char)) :
    ∃ w, s.blocks (body :: bodies) = '.' :: w := by
  obtain ⟨cs, hcs⟩ := s.exists_chars
  exact ⟨_, by rw [blocks, List.flatMap_cons, block, hcs]; rfl⟩

theorem head_blocks {body : List Char} {bodies : List (List Char)} :
    ∀ c ∈ (s.blocks (body :: bodies)).head?, isSpace c = false := by
  obtain ⟨w, hw⟩ := s.exists_blocks body bodies
  intro c hc
  rw [hw, List.head?_cons, Option.mem_some_iff] at hc
  rw [← hc]
  decide

def AreFree (bodies : List (List Char)) : Prop :=
  ∀ body ∈ bodies, IsBody body ∧ ¬s.core <:+: body

variable {s} {past body : List Char}

private theorem spots_header (hpast : EndsLine past) (hbody : IsBody body)
    (hfree : ¬s.core <:+: body) : s.spots past (s.chars ++ [' ']) = 0 := by
  apply spots_eq_zero
  intro p z h hp
  have unique := behind_unique hpast hbody hfree (z := z ++ '\x7b' :: (body ++ ['\x7d', '\n'])) (by
    rw [block, List.append_cons, h]
    simp) hp
  simp [unique] at h

theorem spots_inside (hpast : EndsLine past) (hbody : IsBody body) (hfree : ¬s.core <:+: body) :
    s.spots (past ++ s.chars ++ [' ', '\x7b']) (body ++ ['\x7d', '\n']) = 0 := by
  apply spots_eq_zero
  intro p z h hp
  have unique := behind_unique hpast hbody hfree (p := s.chars ++ ' ' :: '\x7b' :: p) (z := z) (by
    rw [block, h]
    simp) (by simpa using hp)
  simp at unique

theorem spots_body (hbody : IsBody body) (hfree : ¬s.core <:+: body) :
    s.spots [] (body ++ ['\x7d', '\n']) = 0 := by
  have start : EndsLine [] := .inl rfl
  have inside := spots_inside start hbody hfree
  have less := s.spots_le_spots_append (s.chars ++ [' ', '\x7b']) [] (body ++ ['\x7d', '\n'])
  rw [List.append_nil] at less
  rw [List.nil_append] at inside
  omega

private theorem spots_block (hpast : EndsLine past) (hbody : IsBody body)
    (hfree : ¬s.core <:+: body) : s.spots past (s.block body) ≤ 1 := by
  have parts : s.block body = (s.chars ++ [' ']) ++ (['\x7b'] ++ (body ++ ['\x7d', '\n'])) := by
    simp [block]
  have inside := spots_inside hpast hbody hfree
  rw [parts, spots_append, spots_header hpast hbody hfree, spots_append]
  simp only [List.append_assoc, List.cons_append, List.nil_append] at inside ⊢
  rw [inside]
  simp only [spots]
  split <;> simp

theorem getLast?_block (s : Selector) (body : List Char) : (s.block body).getLast? = some '\n' := by
  have parts : s.block body = (s.chars ++ ' ' :: '\x7b' :: (body ++ ['\x7d'])) ++ ['\n'] := by
    simp [block]
  rw [parts, List.getLast?_concat]

theorem spots_blocks {bodies : List (List Char)} (hpast : EndsLine past) (h : s.AreFree bodies) :
    s.spots past (s.blocks bodies) ≤ bodies.length := by
  induction bodies generalizing past with
  | nil => simp [blocks, spots]
  | cons body bodies ih =>
    obtain ⟨hbody, hfree⟩ := h body (by simp)
    have first := spots_block hpast hbody hfree
    have hline : EndsLine (past ++ s.block body) :=
      .inr (by simp [List.getLast?_append, getLast?_block])
    have others := ih hline fun b hb => h b (by simp [hb])
    simp only [blocks, List.flatMap_cons, spots_append, List.length_cons] at others ⊢
    omega

theorem spots_rest {bodies : List (List Char)} (hpast : EndsLine past)
    (h : s.AreFree (body :: bodies)) :
    s.spots (past ++ s.chars ++ [' ', '\x7b']) (body ++ '\x7d' :: '\n' :: s.blocks bodies) ≤
      bodies.length := by
  obtain ⟨hbody, hfree⟩ := h body (by simp)
  have parts : body ++ '\x7d' :: '\n' :: s.blocks bodies =
      (body ++ ['\x7d', '\n']) ++ s.blocks bodies := by simp
  have hline : EndsLine (past ++ s.chars ++ [' ', '\x7b'] ++ (body ++ ['\x7d', '\n'])) :=
    List.append_assoc _ body _ ▸ endsLine_close _
  rw [parts, spots_append, spots_inside hpast hbody hfree, Nat.zero_add]
  exact spots_blocks hline fun b hb => h b (by simp [hb])

/-- Where the text of some rules has lost its beginning, the first rule has no place any more. -/
theorem spots_cut {bodies : List (List Char)} {a u : List Char} (ha : a ≠ []) (h : s.AreFree bodies)
    (hcut : s.blocks bodies = a ++ u) : s.spots [] u < bodies.length := by
  induction bodies generalizing a with
  | nil => simp [blocks, ha] at hcut
  | cons body bodies ih =>
    have hrest : s.AreFree bodies := fun b hb => h b (by simp [hb])
    simp only [blocks, List.flatMap_cons] at hcut
    rcases List.append_eq_append_iff.1 hcut with ⟨w, rfl, hw⟩ | ⟨g, hg, rfl⟩
    · cases w with
      | nil =>
        rw [List.nil_append] at hw
        have all := spots_blocks (.inl rfl) hrest
        rw [blocks, hw] at all
        exact Nat.lt_succ_of_le all
      | cons c w =>
        have fewer := ih (List.cons_ne_nil c w) hrest hw
        simp only [List.length_cons]
        omega
    · obtain ⟨hbody, hfree⟩ := h body (by simp)
      have first : s.spots [] g = 0 := by
        apply spots_eq_zero
        rintro p z rfl hp
        have unique := behind_unique (.inl rfl) hbody hfree (p := a ++ p) (z := z) (by simp [hg])
          (by simpa using hp.append s a)
        exact ha (nil_of_behind hp unique)
      have hline : EndsLine g := by
        rcases List.eq_nil_or_concat g with rfl | ⟨g, c, rfl⟩
        · exact .inl rfl
        · have last := congrArg List.getLast? hg
          exact .inr (by simpa [getLast?_block] using last.symm)
      have others := spots_blocks hline hrest
      rw [spots_append, first, List.nil_append]
      simp only [blocks, List.length_cons] at others ⊢
      omega

end Selector

end UtilityCss
