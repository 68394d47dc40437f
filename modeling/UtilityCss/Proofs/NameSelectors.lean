import UtilityCss.Proofs.ApplyMarks
import UtilityCss.Proofs.EscapedText
import UtilityCss.Proofs.Reprint

/-!
Names that are told apart. An identifier shows every character of the text that it was made of but
the character zero, so two texts have one identifier exactly if they differ in nothing but zeros.
The rules of a class name have its identifier for a selector, whatever the stylesheet declares.
-/
namespace UtilityCss

open Text

namespace Text

/-! ### What an identifier shows -/

theorem toList_replaceChar_zero (s : String) :
    (replaceChar '\x00' "\ufffd" s).toList = s.toList.map identChar := by
  have hchar : identChar = fun c => if c = '\x00' then replacement else c := by
    funext c
    simp [identChar, ← Char.toNat_inj]
  rw [hchar]
  exact toList_replaceChar rfl '\x00' s

theorem unescape_escape (s : String) : unescape (escape s) = replaceChar '\x00' "\ufffd" s := by
  apply String.toList_injective
  rw [toList_unescape_escape, toList_replaceChar_zero]

theorem apply_identChar {α : Type} {f : Char → α} (h : f replacement = f '\x00') (c : Char) :
    f (identChar c) = f c := by
  by_cases hc : c = '\x00'
  · subst hc
    exact h
  · rw [identChar_of_ne hc]

theorem escapeHead_identChar (c : Char) : escapeHead (identChar c) = escapeHead c :=
  apply_identChar (by decide) c

theorem flatMap_escapeChar_identChar (cs : List Char) :
    (cs.map identChar).flatMap escapeChar = cs.flatMap escapeChar := by
  rw [List.flatMap_map]
  exact List.flatMap_congr fun c _ => apply_identChar (by decide) c

theorem escapeChars_cons {c : Char} (h : c ≠ '-') (cs : List Char) :
    escapeChars (c :: cs) = escapeHead c ++ cs.flatMap escapeChar := by
  unfold escapeChars
  split
  next heq => cases heq
  next heq => exact absurd (List.cons.inj heq).1 h
  next heq => exact absurd (List.cons.inj heq).1 h
  next heq =>
    cases heq
    rfl

theorem escapeChars_map_identChar (cs : List Char) :
    escapeChars (cs.map identChar) = escapeChars cs := by
  have hdash : identChar '-' = '-' := by decide
  cases cs with
  | nil => rfl
  | cons c cs =>
    by_cases h : c = '-'
    · subst h
      cases cs with
      | nil => rfl
      | cons d cs =>
        rw [List.map_cons, List.map_cons, hdash, escapeChars, escapeChars, escapeHead_identChar,
          flatMap_escapeChar_identChar]
    · have hident : identChar c ≠ '-' := by
        unfold identChar
        split
        · decide
        · exact h
      rw [List.map_cons, escapeChars_cons hident, escapeChars_cons h, escapeHead_identChar,
        flatMap_escapeChar_identChar]

private theorem escape_eq_iff {s t : String} :
    escape s = escape t ↔ replaceChar '\x00' "\ufffd" s = replaceChar '\x00' "\ufffd" t := by
  constructor
  · intro h
    rw [← unescape_escape, h, unescape_escape]
  · intro h
    have hchars := congrArg String.toList h
    rw [toList_replaceChar_zero, toList_replaceChar_zero] at hchars
    rw [escape, ← escapeChars_map_identChar, hchars, escapeChars_map_identChar, escape]

example : escape "\x01a" = "\\1 a" ∧ escape "\x1a" = "\\1a " := by decide

end Text

/-! ### Class selectors -/

theorem Compilation.generate_class {css : String} {options : CompileOptions}
    (r : Compilation css options) (name : String) : ∃ bodies : List (List Node),
      (r.system.generate [name]).rules = bodies.map (.rule ("." ++ escape name)) :=
  DesignSystem.generate_class r.ignoresMarks.inline name

/-- Escapes are read back as the text that was escaped, with the replacement character for each
zero. So texts without zeros are told apart by their identifiers, and class names by the selectors
of their rules in every compiled stylesheet. -/
theorem escape_tells_apart (s t : String) :
    unescape (escape s) = replaceChar '\x00' "\ufffd" s ∧
      (escape s = escape t ↔ replaceChar '\x00' "\ufffd" s = replaceChar '\x00' "\ufffd" t) ∧
      ('\x00' ∉ s.toList → '\x00' ∉ t.toList → s ≠ t →
        escape s ≠ escape t ∧
        ∀ css options c, (compile css options).result = .ok c → ∃ bodies bodies' : List (List Node),
          (c.system.generate [s]).rules = bodies.map (.rule ("." ++ escape s)) ∧
          (c.system.generate [t]).rules = bodies'.map (.rule ("." ++ escape t)) ∧
          "." ++ escape s ≠ "." ++ escape t) := by
  refine ⟨unescape_escape s, escape_eq_iff, fun hs ht hne => ?_⟩
  have hescape : escape s ≠ escape t := fun heq => hne <| calc
    s = unescape (escape s) := (unescape_escape_of_nonzero hs).symm
    _ = unescape (escape t) := by rw [heq]
    _ = t := unescape_escape_of_nonzero ht
  refine ⟨hescape, fun css options c hc => ?_⟩
  obtain ⟨r, rfl⟩ := Compilation.compile_iff.1 hc
  obtain ⟨bodies, hbodies⟩ := r.generate_class s
  obtain ⟨bodies', hbodies'⟩ := r.generate_class t
  exact ⟨bodies, bodies', hbodies, hbodies', by simpa using hescape⟩

theorem escape_tells_apart_values :
    '\x00' ∉ "[a:b]".toList ∧ '\x00' ∉ "[a:c]".toList ∧ "[a:b]" ≠ "[a:c]" ∧
      (layeredRun.system.generate ["[a:b]"]).rules =
        [.rule ("." ++ escape "[a:b]") [.decl "a" "b"]] ∧
      ∃ bodies : List (List Node),
        (layeredRun.system.generate ["[a:c]"]).rules = bodies.map (.rule ("." ++ escape "[a:c]")) ∧
        "." ++ escape "[a:b]" ≠ "." ++ escape "[a:c]" := by
  have hleft : '\x00' ∉ "[a:b]".toList := by decide
  have hright : '\x00' ∉ "[a:c]".toList := by decide
  have hne : "[a:b]" ≠ "[a:c]" := by decide
  obtain ⟨-, -, hapart⟩ := escape_tells_apart "[a:b]" "[a:c]"
  obtain ⟨-, bodies, -, hrules, hselectors⟩ :=
    (hapart hleft hright hne).2 _ _ _ layeredRun.compile_eq
  exact ⟨hleft, hright, hne, (layeredRun.system.generate_property rfl rfl rfl).1, bodies,
    hrules, hselectors⟩

end UtilityCss
