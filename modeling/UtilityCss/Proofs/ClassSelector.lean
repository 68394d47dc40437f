import UtilityCss.Proofs.LineEnd

/-!
The selector of a class, as lexemes. Any text may name a class; its escaped form is one name, which
ends where the text ends, so the point, the name and a blank stand before the body of a rule.
-/
namespace UtilityCss

open Text Lexeme

def IsNameRun (cs : List Char) : Prop :=
  ∀ rest, nameLength (cs ++ rest) = cs.length + nameLength rest

namespace IsNameRun

theorem nil : IsNameRun [] := fun rest => by simp

theorem append {cs ds : List Char} (hcs : IsNameRun cs) (hds : IsNameRun ds) :
    IsNameRun (cs ++ ds) := by
  intro rest
  rw [List.append_assoc, hcs, hds, List.length_append, Nat.add_assoc]

theorem flatMap {f : Char → List Char} (hf : ∀ c, IsNameRun (f c)) (cs : List Char) :
    IsNameRun (cs.flatMap f) := by
  induction cs with
  | nil => exact nil
  | cons c cs ih => exact (hf c).append ih

theorem single {c : Char} (hc : isNameChar c = true) : IsNameRun [c] := by
  intro rest
  simp [nameLength, reach, nameStep, Escape.step, hc, Nat.add_comm]

theorem escaped {c : Char} (hline : isNewline c = false) (hhex : isHexDigit c = false) :
    IsNameRun ['\\', c] := by
  intro rest
  have hslash : isNameChar '\\' = false := by decide
  simp [nameLength, reach, nameStep, Escape.step, Escape.afterEscaped, hslash, hline, hhex]
  omega

private theorem reach_digits {ds : List Char} (hds : ∀ d ∈ ds, isHexDigit d = true) (n : Nat)
    (hn : ds.length ≤ n) (rest : List Char) :
    reach nameStep (.hex n) (ds ++ ' ' :: rest) = ds.length + 1 + nameLength rest := by
  induction ds generalizing n with
  | nil =>
    have hspace : isHexDigit ' ' = false := by decide
    simp [reach, nameStep, Escape.step, hspace, nameLength, Nat.add_comm]
  | cons d ds ih =>
    simp only [List.length_cons] at hn
    have hd : isHexDigit d = true := hds d (by simp)
    have hleft : 0 < n := by omega
    have hstep : ∀ next, nameStep (.hex n) d next = some (.hex (n - 1)) := fun next => by
      simp [nameStep, Escape.step, hd, hleft]
    have go_on := ih (fun x hx => hds x (by simp [hx])) (n - 1) (by omega)
    simp only [List.cons_append, reach, hstep, go_on, List.length_cons]
    omega

private theorem code {d : Char} {ds : List Char} (hds : ∀ x ∈ d :: ds, isHexDigit x = true)
    (hlength : ds.length ≤ 5) : IsNameRun ('\\' :: d :: ds ++ [' ']) := by
  intro rest
  have hd : isHexDigit d = true := hds d (by simp)
  have hslash : isNameChar '\\' = false := by decide
  have hline : isNewline d = false := by
    apply Bool.eq_false_iff.2
    intro h
    simp only [isNewline, Bool.or_eq_true, beq_iff_eq] at h
    rcases h with (rfl | rfl) | rfl <;> exact absurd hd (by decide)
  have digits := reach_digits (fun x hx => hds x (by simp [hx])) 5 hlength rest
  simp [nameLength, reach, nameStep, Escape.step, Escape.afterEscaped, hslash, hline, hd, digits]
  omega

end IsNameRun

theorem lt_of_isDigit {c : Char} (h : c.isDigit = true) : c.toNat < 128 := by
  simp only [Char.isDigit, Bool.and_eq_true, decide_eq_true_eq, ge_iff_le,
    UInt32.le_iff_toNat_le] at h
  have bound : '9'.val.toNat = 57 := by decide
  change c.val.toNat < 128
  omega

theorem lt_of_isControl {c : Char} (h : isControl c = true) : c.toNat < 128 := by
  simp only [isControl, Bool.or_eq_true, Bool.and_eq_true, decide_eq_true_eq, beq_iff_eq] at h
  omega

theorem isAlphanum_of_isHexDigit {c : Char} (h : isHexDigit c = true) : c.isAlphanum = true := by
  simp only [isHexDigit, Bool.or_eq_true, Bool.and_eq_true, decide_eq_true_eq, Char.le_def] at h
  simp only [Char.isAlphanum, Char.isAlpha, Char.isUpper, Char.isLower, Char.isDigit,
    Bool.or_eq_true, Bool.and_eq_true, decide_eq_true_eq, ge_iff_le]
  simp only [UInt32.le_iff_toNat_le] at h ⊢
  have bounds : 'A'.val.toNat = 65 ∧ 'F'.val.toNat = 70 ∧ 'Z'.val.toNat = 90 ∧ 'a'.val.toNat = 97 ∧
      'f'.val.toNat = 102 ∧ 'z'.val.toNat = 122 ∧ '0'.val.toNat = 48 ∧
        '9'.val.toNat = 57 := by decide
  omega

private theorem isNameChar_of_isIdentChar {c : Char} (h : isIdentChar c = true) :
    isNameChar c = true := by
  simp only [isIdentChar, Char.isAlphanum, Bool.or_eq_true] at h
  simp only [isNameChar, isNameStart, Bool.or_eq_true]
  grind

theorem hexDigits_of_lt {n : Nat} (hn : n < 128) :
    ∃ d ds, Nat.toDigits 16 n = d :: ds ∧ (∀ x ∈ d :: ds, isHexDigit x = true) ∧ ds.length ≤ 5 := by
  have all : ∀ n < 128, (Nat.toDigits 16 n).length - 1 ≤ 5 ∧ Nat.toDigits 16 n ≠ [] ∧
      (Nat.toDigits 16 n).all isHexDigit = true := by decide
  obtain ⟨length_le, ne, hex⟩ := all n hn
  cases h : Nat.toDigits 16 n with
  | nil => exact absurd h ne
  | cons d ds =>
    rw [h] at length_le hex
    exact ⟨d, ds, rfl, List.all_eq_true.1 hex, by simpa using length_le⟩

theorem escapeCode_run {c : Char} (hc : c.toNat < 128) : IsNameRun (escapeCode c) := by
  obtain ⟨d, ds, hcode, hex, length_le⟩ := hexDigits_of_lt hc
  rw [escapeCode, hcode]
  exact .code hex length_le

theorem escapeChar_run (c : Char) : IsNameRun (escapeChar c) := by
  unfold escapeChar
  split
  case isTrue => exact .single (by decide)
  case isFalse hzero =>
    split
    case isTrue hcontrol => exact escapeCode_run (lt_of_isControl hcontrol)
    case isFalse hcontrol =>
      split
      case isTrue hident => exact .single (isNameChar_of_isIdentChar hident)
      case isFalse hident =>
        refine .escaped ?_ ?_
        · apply Bool.eq_false_iff.2
          intro hline
          apply hcontrol
          simp only [isNewline, Bool.or_eq_true, beq_iff_eq] at hline
          rcases hline with (rfl | rfl) | rfl <;> decide
        · apply Bool.eq_false_iff.2
          intro hhex
          apply hident
          simp [isIdentChar, isAlphanum_of_isHexDigit hhex]

theorem escapeHead_run (c : Char) : IsNameRun (escapeHead c) := by
  unfold escapeHead
  split
  case isTrue hdigit => exact escapeCode_run (lt_of_isDigit hdigit)
  case isFalse => exact escapeChar_run c

theorem escapeChars_run (cs : List Char) : IsNameRun (escapeChars cs) := by
  unfold escapeChars
  split
  · exact .nil
  · exact .escaped (by decide) (by decide)
  · exact (IsNameRun.single (c := '-') (by decide)).append
      ((escapeHead_run _).append (.flatMap escapeChar_run _))
  · exact (escapeHead_run _).append (.flatMap escapeChar_run _)

def IsNameHead (a : Char) : Prop :=
  a = '\\' ∨ isIdentChar a = true ∧ a.isDigit = false

theorem escapeHead_head (c : Char) :
    ∃ a as, escapeHead c = a :: as ∧ IsNameHead a ∧ (a = '-' → c = '-') := by
  unfold escapeHead
  split
  case isTrue => exact ⟨'\\', _, rfl, .inl rfl, nofun⟩
  case isFalse hdigit =>
    unfold escapeChar
    split
    · exact ⟨replacement, [], rfl, .inr ⟨by decide, by decide⟩, nofun⟩
    · split
      · exact ⟨'\\', _, rfl, .inl rfl, nofun⟩
      · split
        · next hident => exact ⟨c, [], rfl, .inr ⟨hident, by simpa using hdigit⟩, id⟩
        · exact ⟨'\\', _, rfl, .inl rfl, nofun⟩

theorem IsNameHead.ne {a b : Char} (h : IsNameHead a) (hb : isIdentChar b = false)
    (hslash : b ≠ '\\') : a ≠ b := by
  rintro rfl
  rcases h with rfl | ⟨hident, -⟩
  · exact hslash rfl
  · rw [hb] at hident
    cases hident

theorem IsNameHead.isDigit {a : Char} (h : IsNameHead a) : a.isDigit = false := by
  rcases h with rfl | ⟨-, hdigit⟩
  · decide
  · exact hdigit

theorem IsNameHead.starts {a : Char} (h : IsNameHead a) :
    (isNameStart a || a == '-' || a == '\\') = true := by
  simp only [Bool.or_eq_true, beq_iff_eq]
  rcases h with rfl | ⟨hident, hdigit⟩
  · exact .inr rfl
  · simp only [isIdentChar, Char.isAlphanum, Bool.or_eq_true, hdigit, beq_iff_eq] at hident
    simp only [isNameStart, Bool.or_eq_true]
    grind

theorem startsName_of_run {a : Char} {as : List Char} (rest : List Char)
    (hrun : IsNameRun (a :: as))
    (hhead : IsNameHead a) (hdash : a ≠ '-') : startsName (a :: (as ++ rest)) = true := by
  rw [startsName_cons, if_neg hdash]
  split
  case isTrue hslash =>
    subst hslash
    have hname : isNameChar '\\' = false := by decide
    have hlength := hrun rest
    cases hline : (as ++ rest).head?.any isNewline with
    | false => rfl
    | true =>
      simp only [List.cons_append, nameLength, reach, nameStep, Escape.step, hname, hline]
        at hlength
      simp at hlength
      omega
  case isFalse hslash => simpa [hdash, hslash] using hhead.starts

theorem escapeChars_head (cs : List Char) : escapeChars cs = [] ∨
    (∃ a as, escapeChars cs = a :: as ∧ a ≠ '-' ∧ IsNameHead a) ∨
    ∃ a as, escapeChars cs = '-' :: a :: as ∧ IsNameHead a := by
  unfold escapeChars
  split
  case h_1 => exact .inl rfl
  case h_2 => exact .inr (.inl ⟨'\\', _, rfl, by decide, .inl rfl⟩)
  case h_3 c cs =>
    obtain ⟨a, as, hhead, ha, -⟩ := escapeHead_head c
    exact .inr (.inr ⟨a, as ++ cs.flatMap escapeChar, by simp [hhead], ha⟩)
  case h_4 c cs hlone hdash =>
    obtain ⟨a, as, hhead, ha, hd⟩ := escapeHead_head c
    refine .inr (.inl ⟨a, as ++ cs.flatMap escapeChar, by simp [hhead], fun h => ?_, ha⟩)
    cases cs with
    | nil => exact hlone (hd h) rfl
    | cons d cs => exact hdash d cs (hd h) rfl

theorem scan_name {a : Char} {as : List Char} (rest : List Char) (hrun : IsNameRun (a :: as))
    (hsign : a ∉ signs) (hspace : isSpace a = false)
    (hnumber : startsNumber (a :: (as ++ ' ' :: rest)) = false)
    (hname : startsName (a :: (as ++ ' ' :: rest)) = true) :
    scan a (as ++ ' ' :: rest) = (.other, (a :: as).length) := by
  have hlength : nameLength (a :: (as ++ ' ' :: rest)) = (a :: as).length := by
    have hblank : nameLength (' ' :: rest) = 0 := rfl
    rw [← List.cons_append, hrun, hblank, Nat.add_zero]
  have harrow : ¬(a = '-' ∧ ['-', '>'].isPrefixOf (as ++ ' ' :: rest) = true) := by
    rintro ⟨rfl, hprefix⟩
    match as with
    | [] => simp [List.isPrefixOf] at hprefix
    | [b] => simp [List.isPrefixOf] at hprefix
    | b :: c :: as =>
      simp only [List.cons_append, List.isPrefixOf, Bool.and_eq_true, beq_iff_eq] at hprefix
      obtain ⟨rfl, rfl, -⟩ := hprefix
      have stop : nameLength ('-' :: '-' :: '>' :: (as ++ ' ' :: rest)) = 2 := rfl
      simp [stop] at hlength
  rw [scan_of_other hsign, scanOther, if_neg (by simp [hspace]), if_neg (by simp [hnumber]),
    if_neg harrow, if_pos hname]
  simp [scanName, hlength]

theorem scan_escape {a : Char} {as : List Char} (name rest : List Char)
    (h : escapeChars name = a :: as) : scan a (as ++ ' ' :: rest) = (.other, (a :: as).length) := by
  have hrun : IsNameRun (a :: as) := h ▸ escapeChars_run name
  have unsigned : ∀ s ∈ signs, (!isIdentChar s && s != '\\') = true := List.all_eq_true.1 rfl
  rcases escapeChars_head name with hnil | ⟨b, bs, hb, hdash, hhead⟩ | ⟨b, bs, hb, hhead⟩
  · rw [hnil] at h
    cases h
  · rw [h] at hb
    obtain ⟨rfl, rfl⟩ := List.cons.inj hb
    have hplus : ¬(a = '+' ∨ a = '-') := fun h => h.elim (hhead.ne (by decide) (by decide)) hdash
    have hpoint : a ≠ '.' := hhead.ne (by decide) (by decide)
    refine scan_name rest hrun ?_ ?_ ?_ ?_
    · intro hsign
      have apart := unsigned a hsign
      simp only [Bool.and_eq_true, Bool.not_eq_true', bne_iff_ne] at apart
      exact hhead.ne apart.1 apart.2 rfl
    · apply Bool.eq_false_iff.2
      intro hspace
      simp only [isSpace, isNewline, Bool.or_eq_true, beq_iff_eq] at hspace
      rcases hspace with (rfl | rfl) | (rfl | rfl) | rfl <;>
        exact hhead.ne (by decide) (by decide) rfl
    · rw [startsNumber_cons, if_neg hplus, startsDigits_cons, if_neg hpoint, hhead.isDigit]
    · exact startsName_of_run _ hrun hhead hdash
  · rw [h] at hb
    obtain ⟨rfl, rfl⟩ := List.cons.inj hb
    have hpoint : b ≠ '.' := hhead.ne (by decide) (by decide)
    refine scan_name rest hrun (by decide) (by decide) ?_ ?_
    · rw [startsNumber_cons, if_pos (.inr rfl), List.cons_append, startsDigits_cons, if_neg hpoint,
        hhead.isDigit]
    · rw [startsName_cons, if_pos rfl]
      exact hhead.starts

def selectorChars (name : String) : List Char :=
  '.' :: escapeChars name.toList

theorem selectorChars_eq (name : String) : selectorChars name = ("." ++ escape name).toList := by
  simp [selectorChars, escape]

private theorem scan_point (name : String) (rest : List Char) :
    scan '.' (escapeChars name.toList ++ ' ' :: rest) = (.other, 1) := by
  have hdigit : (escapeChars name.toList ++ ' ' :: rest).head?.any Char.isDigit = false := by
    rcases escapeChars_head name.toList with hnil | ⟨a, as, ha, -, hhead⟩ | ⟨a, as, ha, -⟩
    · rw [hnil]
      rfl
    · rw [ha]
      exact hhead.isDigit
    · rw [ha]
      rfl
  have hnumber : startsNumber ('.' :: (escapeChars name.toList ++ ' ' :: rest)) = false := by
    rw [startsNumber_cons, if_neg (by decide), startsDigits_cons, if_pos rfl, hdigit]
  have hname : startsName ('.' :: (escapeChars name.toList ++ ' ' :: rest)) = false := rfl
  rw [scan_of_other (by decide), scanOther, if_neg (by decide), if_neg (by simp [hnumber]),
    if_neg (by simp), if_neg (by simp [hname]), if_neg (by simp)]

theorem lex_selector (name : String) : ∃ ls : List Lexeme,
    (∀ rest, lex (selectorChars name ++ ' ' :: '\x7b' :: rest) =
      ⟨.other, "."⟩ :: ls ++ lex ('\x7b' :: rest)) ∧
    (∀ l ∈ ls, l.kind = .other ∨ l.kind = .space) ∧
    textOf (⟨.other, "."⟩ :: ls) = String.ofList (selectorChars name) ++ " " := by
  have blank : ∀ rest, lex (' ' :: '\x7b' :: rest) = ⟨.space, " "⟩ :: lex ('\x7b' :: rest) :=
    fun rest => lex_single (c := ' ') rfl
  have point : ∀ rest, lex (selectorChars name ++ ' ' :: '\x7b' :: rest) =
      ⟨.other, "."⟩ :: lex (escapeChars name.toList ++ ' ' :: '\x7b' :: rest) :=
    fun rest => lex_single (c := '.') (scan_point name _)
  unfold selectorChars at point ⊢
  cases hname : escapeChars name.toList with
  | nil =>
    refine ⟨[⟨.space, " "⟩], fun rest => ?_, by simp, rfl⟩
    rw [hname] at point
    rw [point, List.nil_append, blank]
    rfl
  | cons a as =>
    have hlex : ∀ rest, lex (a :: as ++ ' ' :: '\x7b' :: rest) =
        ⟨.other, String.ofList (a :: as)⟩ :: lex (' ' :: '\x7b' :: rest) := fun rest => by
      have hscan := scan_escape name.toList ('\x7b' :: rest) hname
      have taken := lex_append a as (' ' :: '\x7b' :: rest) (by simp [hscan])
      simpa [hscan] using taken
    refine ⟨[⟨.other, String.ofList (a :: as)⟩, ⟨.space, " "⟩], fun rest => ?_, by simp, ?_⟩
    · rw [hname] at point
      rw [point, hlex, blank]
      rfl
    · apply String.toList_injective
      simp

structure IsGuarded (cs : List Char) : Prop where
  line : '\n' ∉ cs
  curly : ∀ x y, cs = x ++ '\x7b' :: y → '\\' ∈ x.getLast?

namespace IsGuarded

theorem of_plain {cs : List Char} (h : ∀ c ∈ cs, c ≠ '\n' ∧ c ≠ '\x7b') : IsGuarded cs where
  line hmem := (h _ hmem).1 rfl
  curly x y hcs := absurd rfl (h '\x7b' (by simp [hcs])).2

theorem single {c : Char} (hline : c ≠ '\n') (hcurly : c ≠ '\x7b') : IsGuarded [c] :=
  of_plain fun x hx => by
    rw [List.mem_singleton.1 hx]
    exact ⟨hline, hcurly⟩

theorem escaped {c : Char} (hc : c ≠ '\n') : IsGuarded ['\\', c] where
  line := by simp [Ne.symm hc]
  curly x y hcs := by
    cases x with
    | nil => cases hcs
    | cons d x =>
      obtain ⟨rfl, htail⟩ := List.cons.inj hcs
      cases x with
      | nil => rfl
      | cons e x => simp at htail

theorem append {cs ds : List Char} (hcs : IsGuarded cs) (hds : IsGuarded ds) :
    IsGuarded (cs ++ ds) where
  line := by simp [hcs.line, hds.line]
  curly x y h := by
    rcases List.append_eq_append_iff.1 h with ⟨z, rfl, htail⟩ | ⟨z, rfl, htail⟩
    · have behind := hds.curly z y htail
      simp [List.getLast?_append, Option.mem_def.1 behind]
    · cases z with
      | nil =>
        have first := hds.curly [] y htail.symm
        cases first
      | cons d z =>
        obtain ⟨rfl, -⟩ := List.cons.inj htail
        exact hcs.curly x z rfl

theorem flatMap {f : Char → List Char} (hf : ∀ c, IsGuarded (f c)) (cs : List Char) :
    IsGuarded (cs.flatMap f) := by
  induction cs with
  | nil => exact of_plain (by simp)
  | cons c cs ih => exact (hf c).append ih

end IsGuarded

theorem escapeCode_guarded {c : Char} (hc : c.toNat < 128) : IsGuarded (escapeCode c) := by
  obtain ⟨d, ds, hcode, hex, -⟩ := hexDigits_of_lt hc
  rw [escapeCode, hcode]
  refine .of_plain fun x hx => ?_
  simp only [List.mem_cons, List.mem_append, List.not_mem_nil, or_false] at hx hex
  have digit : isHexDigit x = true → x ≠ '\n' ∧ x ≠ '\x7b' := by
    intro h
    constructor <;> (rintro rfl; revert h; decide)
  rcases hx with rfl | hx | rfl
  · decide
  · exact digit (hex x hx)
  · decide

theorem escapeChar_guarded (c : Char) : IsGuarded (escapeChar c) := by
  unfold escapeChar
  split
  case isTrue => exact .single (by decide) (by decide)
  case isFalse =>
    split
    case isTrue hcontrol => exact escapeCode_guarded (lt_of_isControl hcontrol)
    case isFalse hcontrol =>
      split
      case isTrue hident =>
        refine .single ?_ ?_ <;> (rintro rfl; revert hident; decide)
      case isFalse =>
        refine .escaped ?_
        rintro rfl
        exact hcontrol (by decide)

private theorem escapeHead_guarded (c : Char) : IsGuarded (escapeHead c) := by
  unfold escapeHead
  split
  case isTrue hdigit => exact escapeCode_guarded (lt_of_isDigit hdigit)
  case isFalse => exact escapeChar_guarded c

private theorem escapeChars_guarded (cs : List Char) : IsGuarded (escapeChars cs) := by
  have tail : ∀ (c : Char) (cs : List Char), IsGuarded (escapeHead c ++ cs.flatMap escapeChar) :=
    fun c cs => (escapeHead_guarded c).append (.flatMap escapeChar_guarded cs)
  have dash : IsGuarded ['-'] := .single (by decide) (by decide)
  unfold escapeChars
  split
  · exact .of_plain (by simp)
  · exact .escaped (by decide)
  · exact dash.append (tail _ _)
  · exact tail _ _

theorem selectorChars_guarded (name : String) : IsGuarded (selectorChars name) := by
  have point : IsGuarded ['.'] := .single (by decide) (by decide)
  exact point.append (escapeChars_guarded name.toList)

end UtilityCss
