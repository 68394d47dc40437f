import UtilityCss.Proofs.ClassSelector

/-!
Reading an escaped text back. Each character is written on its own, and wherever its escape ends the
reader is again outside of one. Only the character zero is lost: it is written as the replacement
character.
-/
namespace UtilityCss.Text

def identChar (c : Char) : Char :=
  if c.toNat = 0 then replacement else c

theorem identChar_of_ne {c : Char} (h : c ≠ '\x00') : identChar c = c := by
  refine if_neg fun hzero => h (Char.toNat_inj.1 ?_)
  simpa using hzero

theorem map_identChar {cs : List Char} (h : '\x00' ∉ cs) : cs.map identChar = cs := by
  have hsame : ∀ c ∈ cs, identChar c = id c := by
    intro c hc
    refine identChar_of_ne ?_
    rintro rfl
    exact h hc
  rw [List.map_congr_left hsame, List.map_id]

/-! ### One character -/

private theorem unescapeFrom_digits {ds : List Char} (hds : ∀ d ∈ ds, isHexDigit d = true)
    (before rest : List Char) (hlength : before.length + ds.length ≤ 6) :
    unescapeFrom (some before) (ds ++ rest) = unescapeFrom (some (before ++ ds)) rest := by
  induction ds generalizing before with
  | nil => simp
  | cons d ds ih =>
    rw [List.forall_mem_cons] at hds
    rw [List.length_cons] at hlength
    have hroom : before.length < 6 := by omega
    rw [List.cons_append, unescapeFrom, if_pos (by simp [hds.1, hroom]),
      ih hds.2 _ (by simp; omega)]
    simp

private theorem charOfCode_digits {c : Char} (hc : c.toNat < 128) :
    charOfCode (hexNumber (Nat.toDigits 16 c.toNat)) = c := by
  have hnumber : ∀ n < 128, hexNumber (Nat.toDigits 16 n) = n := by decide
  have hvalid : c.toNat.isValidChar := c.valid
  rw [hnumber _ hc, charOfCode, if_pos hvalid, Char.ofNat_toNat]

theorem unescapeFrom_escapeCode {c : Char} (hc : c.toNat < 128) (rest : List Char) :
    unescapeFrom none (escapeCode c ++ rest) = c :: unescapeFrom none rest := by
  have hdecoded := charOfCode_digits hc
  obtain ⟨d, ds, hcode, hhex, hlength⟩ := hexDigits_of_lt hc
  have hdigits := unescapeFrom_digits hhex [] (' ' :: rest) (by simp; omega)
  have hblank : isHexDigit ' ' = false := by decide
  rw [hcode] at hdecoded
  rw [escapeCode, hcode, List.cons_append, List.append_assoc, List.singleton_append, unescapeFrom,
    if_pos rfl, hdigits, List.nil_append, unescapeFrom]
  simp [hblank, hdecoded]

theorem unescapeFrom_plain {c : Char} (hc : c ≠ '\\') (rest : List Char) :
    unescapeFrom none (c :: rest) = c :: unescapeFrom none rest := by
  rw [unescapeFrom, if_neg hc]

private theorem unescapeFrom_slash {c : Char} (hc : isHexDigit c = false) (rest : List Char) :
    unescapeFrom none ('\\' :: c :: rest) = c :: unescapeFrom none rest := by
  rw [unescapeFrom, if_pos rfl, unescapeFrom]
  simp [hc]

theorem unescapeFrom_escapeChar (c : Char) (rest : List Char) :
    unescapeFrom none (escapeChar c ++ rest) = identChar c :: unescapeFrom none rest := by
  unfold escapeChar identChar
  split
  · exact unescapeFrom_plain (by decide) rest
  split
  next hcontrol => exact unescapeFrom_escapeCode (lt_of_isControl hcontrol) rest
  split
  next hident =>
    refine unescapeFrom_plain ?_ rest
    rintro rfl
    exact absurd hident (by decide)
  next hident =>
    refine unescapeFrom_slash (Bool.eq_false_iff.2 fun hhex => hident ?_) rest
    simp [isIdentChar, isAlphanum_of_isHexDigit hhex]

theorem unescapeFrom_escapeHead (c : Char) (rest : List Char) :
    unescapeFrom none (escapeHead c ++ rest) = identChar c :: unescapeFrom none rest := by
  unfold escapeHead
  split
  next hdigit =>
    have hzero : identChar c = c := by
      refine identChar_of_ne ?_
      rintro rfl
      exact absurd hdigit (by decide)
    rw [hzero]
    exact unescapeFrom_escapeCode (lt_of_isDigit hdigit) rest
  · exact unescapeFrom_escapeChar c rest

/-! ### The whole text -/

theorem unescapeFrom_flatMap (cs : List Char) :
    unescapeFrom none (cs.flatMap escapeChar) = cs.map identChar := by
  induction cs with
  | nil => rfl
  | cons c cs ih => rw [List.flatMap_cons, unescapeFrom_escapeChar, ih, List.map_cons]

private theorem unescapeFrom_escapeChars (cs : List Char) :
    unescapeFrom none (escapeChars cs) = cs.map identChar := by
  unfold escapeChars
  split
  · rfl
  · rfl
  · rw [unescapeFrom_plain (by decide), unescapeFrom_escapeHead, unescapeFrom_flatMap]
    rfl
  · rw [unescapeFrom_escapeHead, unescapeFrom_flatMap, List.map_cons]

theorem toList_unescape_escape (s : String) :
    (unescape (escape s)).toList = s.toList.map identChar := by
  rw [unescape, escape, String.toList_ofList, String.toList_ofList, unescapeFrom_escapeChars]

theorem unescape_escape_of_nonzero {s : String} (h : '\x00' ∉ s.toList) :
    unescape (escape s) = s := by
  apply String.toList_injective
  rw [toList_unescape_escape, map_identChar h]

end UtilityCss.Text
