import UtilityCss.Proofs.ReaderSteps
import UtilityCss.Proofs.SelectorSpots

/-!
How many rules with one selector a text can have at the top. The text of an item is the end of what
has been read, so a rule with the selector opens only where the selector stands in front.
-/
namespace UtilityCss

open Text

structure Lexeme.IsSound (l : Lexeme) : Prop where
  first : ∃ c cs, l.text.toList = c :: cs ∧ (l.kind ≠ .space → isSpace c = false)
  colon : l.kind = .colon → ':' ∈ l.text.toList
  curly : l.kind = .opening .curly → l.text = "\x7b"

private theorem scan_curly {c : Char} {cs : List Char}
    (h : (Lexeme.scan c cs).1 = .opening .curly) : c = '\x7b' ∧ (Lexeme.scan c cs).2 = 1 := by
  unfold Lexeme.scan Lexeme.scanName at h
  have hc : c = '\x7b' := by grind
  subst hc
  exact ⟨rfl, rfl⟩

private theorem exists_scan {cs : List Char} {l : Lexeme} (hl : l ∈ lex cs) : ∃ c rest,
    l = ⟨(Lexeme.scan c rest).1, String.ofList (c :: rest.take ((Lexeme.scan c rest).2 - 1))⟩ := by
  induction cs using lex.induct with
  | case1 => simp [lex] at hl
  | case2 c cs scanned ih =>
    rw [lex, List.mem_cons] at hl
    rcases hl with rfl | hl
    · exact ⟨c, cs, rfl⟩
    · exact ih hl

theorem lex_sound {cs : List Char} {l : Lexeme} (hl : l ∈ lex cs) : l.IsSound := by
  have colon := text_of_colon hl
  obtain ⟨c, rest, rfl⟩ := exists_scan hl
  refine ⟨⟨c, _, String.toList_ofList, fun hk => ?_⟩, colon, fun hk => ?_⟩
  · apply Bool.eq_false_iff.2
    intro hspace
    exact hk (by rw [scan_space rest hspace])
  · obtain ⟨rfl, hlength⟩ := scan_curly hk
    simp [hlength]

theorem textOf_lex (cs : List Char) : (textOf (lex cs)).toList = cs := by
  induction cs using lex.induct with
  | case1 => simp [lex]
  | case2 c cs scanned ih =>
    rw [lex, textOf_cons, String.toList_append, ih]
    simp [scanned]

def IsBroken (text : List Char) : Prop :=
  ∃ x y, text = x ++ '\x7d' :: '\n' :: '.' :: y

theorem IsBroken.append {text : List Char} (h : IsBroken text) (more : List Char) :
    IsBroken (text ++ more) := by
  obtain ⟨x, y, rfl⟩ := h
  exact ⟨x, y ++ more, by simp⟩

theorem IsBroken.after {text : List Char} (h : IsBroken text) (before : List Char) :
    IsBroken (before ++ text) := by
  obtain ⟨x, y, rfl⟩ := h
  exact ⟨before ++ x, y, by simp⟩

def Fits (past text : List Char) : Prop :=
  (∃ c cs, text = c :: cs ∧ isSpace c = false ∧ text <:+ past) ∨ IsBroken text

theorem Fits.append {past text : List Char} (h : Fits past text) (more : List Char) :
    Fits (past ++ more) (text ++ more) := by
  rcases h with ⟨c, cs, rfl, hc, q, rfl⟩ | broken
  · exact .inl ⟨c, cs ++ more, rfl, hc, q, by simp⟩
  · exact .inr (broken.append more)

theorem dropWhile_append_cons {p : Char → Bool} {a : Char} (ha : p a = false) (x z : List Char) :
    (x ++ a :: z).dropWhile p = x.dropWhile p ++ a :: z := by
  rw [List.dropWhile_append, List.dropWhile_cons_of_neg (by simp [ha])]
  split
  · next h => rw [List.isEmpty_iff.1 h, List.nil_append]
  · rfl

private theorem dropEndWhile_append_cons {p : Char → Bool} {a : Char} (ha : p a = false)
    (x z : List Char) : dropEndWhile p (x ++ a :: z) = x ++ a :: dropEndWhile p z := by
  simp only [dropEndWhile, List.reverse_append, List.reverse_cons, List.append_assoc,
    List.singleton_append, dropWhile_append_cons ha]
  simp

theorem trim_broken {text : String} (h : IsBroken text.toList) : '\n' ∈ (trim text).toList := by
  obtain ⟨x, y, hxy⟩ := h
  have front : text.toList.dropWhile isBlank =
      (x.dropWhile isBlank ++ ['\x7d', '\n']) ++ '.' :: y := by
    rw [hxy, dropWhile_append_cons (by decide)]
    simp
  rw [trim, String.toList_ofList, front, dropEndWhile_append_cons (by decide)]
  simp

theorem exists_trim (text : String) : ∃ x y, text.toList = x ++ (trim text).toList ++ y ∧
    (∀ c ∈ x, isBlank c = true) ∧ ∀ c ∈ y, isBlank c = true := by
  obtain ⟨y, hy, blank⟩ := exists_blank_tail (text.toList.dropWhile isBlank)
  refine ⟨text.toList.takeWhile isBlank, y, ?_, ?_, blank⟩
  · rw [trim, String.toList_ofList, List.append_assoc, ← hy, List.takeWhile_append_dropWhile]
  · intro c hc
    exact List.all_eq_true.1 List.all_takeWhile c hc

namespace Selector

variable {s : Selector}

theorem behind_of_trim {past : List Char} {text : String} (htext : Fits past text.toList)
    (h : (trim text).toList = s.core) : s.Behind past := by
  rcases htext with ⟨c, cs, -, -, q, rfl⟩ | broken
  · obtain ⟨x, y, hxy, -, hy⟩ := exists_trim text
    rw [h] at hxy
    exact (s.behind_iff _).2 ⟨q ++ x, y, by simp [hxy], hy⟩
  · exact absurd (h ▸ trim_broken broken) s.newline_notMem_core

def header (s : Selector) : Header :=
  .rule (String.ofList s.core)

theorem exists_item {p : Pending} (h : s.header ∈ p.header?) :
    ∃ i, p = .item i ∧ (trim i.text).toList = s.core := by
  cases p with
  | nothing => cases h
  | atRule => cases h
  | item i =>
    have hcut : (trim i.cut).toList = s.core := by
      have same : trim i.cut = String.ofList s.core := by simpa [Pending.header?, header] using h
      rw [same, String.toList_ofList]
    refine ⟨i, rfl, ?_⟩
    unfold Item.cut at hcut
    split at hcut
    · obtain ⟨cs, hcs⟩ := s.core_head
      rw [hcs] at hcut
      have bracket : (trim "\x7b").toList = ['\x7b'] := by decide
      rw [bracket] at hcut
      cases hcut
    · exact hcut

end Selector

namespace Reader

/-- What is pending is the end of what has been read, and brackets are open in it only. -/
structure Traced (past : List Char) (r : Reader) : Prop where
  inside : r.brackets ≠ [] → r.pending ≠ .nothing
  item : ∀ i, r.pending = .item i → Fits past i.text.toList

variable {r r' : Reader} {l : Lexeme} {past : List Char}

theorem Traced.of_nothing (past : List Char) (hb : r.brackets = []) (hp : r.pending = .nothing) :
    r.Traced past :=
  ⟨fun h => absurd hb h, fun i hi => by rw [hp] at hi; cases hi⟩

theorem Step.traced (h : r.Step l r') (hl : l.IsSound) (hr : r.Traced past) :
    r'.Traced (past ++ l.text.toList) := by
  cases h with
  | grows _ _ _ _ pending =>
    rcases pending with pending | ⟨was, nothing, -⟩
    · refine ⟨fun _ => pending.ne_nothing, fun j hj => ?_⟩
      rw [hj] at pending
      cases hp : r.pending with
      | nothing => rw [hp] at pending; cases pending
      | atRule => rw [hp] at pending; cases pending
      | item i =>
        rw [hp] at pending
        cases pending with
        | item text_eq =>
          rw [text_eq, String.toList_append]
          exact (hr.item i hp).append _
    · exact absurd nothing (hr.inside was)
  | skips _ _ _ brackets _ pending => exact .of_nothing _ brackets pending
  | begins _ _ _ _ kind pending =>
    refine ⟨fun _ => ?_, fun j hj => ?_⟩
    · rcases pending with ⟨name, pending⟩ | ⟨i, pending, -⟩ <;> simp [pending]
    · rcases pending with ⟨name, pending⟩ | ⟨i, pending, text_eq⟩
      · rw [pending] at hj
        cases hj
      · rw [pending] at hj
        cases hj
        obtain ⟨c, cs, hcs, hspace⟩ := hl.first
        exact .inl ⟨c, cs, by rw [text_eq, hcs], hspace kind.1,
          by rw [text_eq]; exact List.suffix_append ..⟩
  | adds _ _ _ _ _ brackets _ pending => exact .of_nothing _ brackets pending
  | opens _ _ _ _ _ brackets _ pending => exact .of_nothing _ brackets pending
  | closes _ _ _ _ _ _ brackets _ pending => exact .of_nothing _ brackets pending

theorem Step.behind {s : Selector} (h : r.Step l r') (hl : l.IsSound) (hr : r.Traced past)
    (htops : r'.tops = some (String.ofList s.core) :: r.tops) :
    l.text = "\x7b" ∧ s.Behind past := by
  rcases h.tops with same | ⟨-, -, selector, more, opened⟩
  · simp [htops] at same
  · rw [htops] at more
    obtain ⟨rfl, -⟩ := List.cons.inj more
    obtain ⟨kind, head⟩ := opened _ rfl
    obtain ⟨i, hi, htrim⟩ := Selector.exists_item (s := s) head
    exact ⟨hl.curly kind, Selector.behind_of_trim (hr.item i hi) htrim⟩

def AllTops (s : Selector) (r : Reader) : Prop :=
  ∀ selector ∈ r.tops, selector = some (String.ofList s.core)

theorem feedAll_traced {ls : List Lexeme} (hls : ∀ l ∈ ls, l.IsSound) (hr : r.Traced past)
    (h : ls.foldlM feed r = .ok r') : r'.Traced (past ++ (textOf ls).toList) := by
  induction ls generalizing r past with
  | nil =>
    cases h
    simpa using hr
  | cons l ls ih =>
    obtain ⟨t, ht, h⟩ := feedAll_cons.1 h
    have sound := hls l (by simp)
    have traced := (feed_step sound.colon ht).traced sound hr
    simpa using ih (fun x hx => hls x (by simp [hx])) traced h

theorem feedAll_spots {s : Selector} {ls : List Lexeme} (hls : ∀ l ∈ ls, l.IsSound)
    (hr : r.Traced past) (h : ls.foldlM feed r = .ok r') (hall : r'.AllTops s) :
    r'.tops.length ≤ r.tops.length + s.spots past (textOf ls).toList := by
  induction ls generalizing r past with
  | nil =>
    cases h
    exact Nat.le_add_right ..
  | cons l ls ih =>
    obtain ⟨t, ht, h⟩ := feedAll_cons.1 h
    have sound := hls l (by simp)
    have step := feed_step sound.colon ht
    have hls' : ∀ x ∈ ls, x.IsSound := fun x hx => hls x (by simp [hx])
    have rest := ih hls' (step.traced sound hr) h
    rw [textOf_cons, String.toList_append, Selector.spots_append]
    have first : t.tops.length ≤ r.tops.length + s.spots past l.text.toList := by
      rcases step.tops with same | ⟨-, -, selector, more, -⟩
      · rw [same]
        exact Nat.le_add_right ..
      · have kept : selector ∈ r'.tops :=
          (feedAll_tops (fun x hx => (hls' x hx).colon) h).subset (by simp [more])
        rw [hall selector kept] at more
        obtain ⟨hcurly, hbehind⟩ := step.behind sound hr more
        simp [more, hcurly, Selector.spots, hbehind]
    omega

end Reader

end UtilityCss
