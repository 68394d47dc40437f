import UtilityCss.Proofs.PlainText
import UtilityCss.Proofs.PrintedTree

/-!
Reading undoes printing on canonical trees: trees of declarations, rules, at-rules and comments
whose texts are plain. The printer writes no escapes, so this is what it can promise.
-/
namespace UtilityCss

open Text Lexeme

/-- Text that a selector, a value or params may hold: no blank at its ends, brackets nested. -/
structure IsPlainText (s : String) : Prop where
  ne_empty : s ≠ ""
  chars : ∀ c ∈ s.toList, isTextChar c = true
  head : s.toList.head? ≠ some ' '
  last : s.toList.getLast? ≠ some ' '
  nested : nest [] s.toList = some []

instance (s : String) : Decidable (IsPlainText s) :=
  decidable_of_iff (s ≠ "" ∧ s.toList.all isTextChar = true ∧ s.toList.head? ≠ some ' ' ∧
    s.toList.getLast? ≠ some ' ' ∧ nest [] s.toList = some [])
    ⟨fun ⟨h₁, h₂, h₃, h₄, h₅⟩ => ⟨h₁, List.all_eq_true.1 h₂, h₃, h₄, h₅⟩,
      fun h => ⟨h.1, List.all_eq_true.2 h.2, h.3, h.4, h.5⟩⟩

def isPropertyChar (c : Char) : Bool :=
  c.isAlphanum || c == '-' || c == '_'

def IsPropertyName (s : String) : Prop :=
  s ≠ "" ∧ ∀ c ∈ s.toList, isPropertyChar c = true

instance (s : String) : Decidable (IsPropertyName s) :=
  decidable_of_iff (s ≠ "" ∧ s.toList.all isPropertyChar = true)
    (and_congr_right fun _ => List.all_eq_true)

/-- The letters of at-rule names; every character beyond ASCII counts as one. -/
def isAtLetter (c : Char) : Bool :=
  c.isAlpha || 0x80 ≤ c.toNat

def IsAtName (s : String) : Prop :=
  s.toList.head?.any isAtLetter = true ∧ ∀ c ∈ s.toList, isAtLetter c = true ∨ c = '-'

instance (s : String) : Decidable (IsAtName s) :=
  decidable_of_iff (s.toList.head?.any isAtLetter = true ∧
    s.toList.all (fun c => isAtLetter c || c == '-') = true) (by simp [IsAtName])

mutual

def Node.IsCanonical : Node → Prop
  | .declaration _ none _ => False
  | .declaration property (some value) _ => IsPropertyName property ∧ IsPlainText value
  | .rule selector nodes => IsPlainText selector ∧ AllCanonical nodes
  | .atRule name params nodes =>
    IsAtName name ∧ (params = "" ∨ IsPlainText params) ∧ AllCanonical nodes
  | .comment text => contains "*/" text = false
  | .context .. => False
  | .atRoot _ => False

def AllCanonical : List Node → Prop
  | [] => True
  | n :: ns => n.IsCanonical ∧ AllCanonical ns

end

mutual

instance Node.decidableCanonical : (node : Node) → Decidable node.IsCanonical
  | .declaration _ none _ => inferInstanceAs (Decidable False)
  | .declaration property (some value) _ =>
    inferInstanceAs (Decidable (IsPropertyName property ∧ IsPlainText value))
  | .rule selector nodes =>
    have := decidableAllCanonical nodes
    inferInstanceAs (Decidable (IsPlainText selector ∧ AllCanonical nodes))
  | .atRule name params nodes =>
    have := decidableAllCanonical nodes
    inferInstanceAs (Decidable (IsAtName name ∧ (params = "" ∨ IsPlainText params) ∧
      AllCanonical nodes))
  | .comment text => inferInstanceAs (Decidable (contains "*/" text = false))
  | .context .. => inferInstanceAs (Decidable False)
  | .atRoot _ => inferInstanceAs (Decidable False)

instance decidableAllCanonical : (nodes : List Node) → Decidable (AllCanonical nodes)
  | [] => inferInstanceAs (Decidable True)
  | n :: ns =>
    have := n.decidableCanonical
    have := decidableAllCanonical ns
    inferInstanceAs (Decidable (n.IsCanonical ∧ AllCanonical ns))

end

/-! ### Texts without blanks at their ends -/

private theorem toNat_alphanum {c : Char} (h : c.isAlphanum = true) :
    48 ≤ c.toNat ∧ c.toNat ≤ 122 := by
  simp only [Char.isAlphanum, Char.isAlpha, Char.isUpper, Char.isLower, Char.isDigit,
    Bool.or_eq_true, Bool.and_eq_true, decide_eq_true_eq, ge_iff_le, UInt32.le_iff_toNat_le] at h
  have bounds : 'A'.val.toNat = 65 ∧ 'Z'.val.toNat = 90 ∧ 'a'.val.toNat = 97 ∧ 'z'.val.toNat = 122 ∧
      '0'.val.toNat = 48 ∧ '9'.val.toNat = 57 := by decide
  change 48 ≤ c.val.toNat ∧ c.val.toNat ≤ 122
  omega

theorem isBlank_text {c : Char} (h : isTextChar c = true) (hc : c ≠ ' ') : isBlank c = false := by
  simp only [isTextChar, Bool.or_eq_true, List.contains_iff_mem] at h
  rcases h with h | h
  · have := toNat_alphanum h
    simp only [isBlank, Bool.or_eq_false_iff, Bool.and_eq_false_iff, decide_eq_false_iff_not,
      beq_eq_false_iff_ne]
    omega
  · have marks : ∀ x ∈ [' ', '-', '_', '.', '#', '%', ',', '&', '>', '=', ':', '(', ')', '[', ']'],
        (x == ' ' || !isBlank x) = true := List.all_eq_true.1 rfl
    simpa [hc] using marks c h

theorem dropWhile_append_blank {l s : List Char} (hl : ∀ c ∈ l, isBlank c = true)
    (hs : ∀ c ∈ s.head?, isBlank c = false) : (l ++ s).dropWhile isBlank = s := by
  rw [List.dropWhile_append_of_pos hl]
  cases s with
  | nil => rfl
  | cons c s => simp [hs c (by simp)]

theorem trim_pad {s : List Char} (l r : List Char) (hl : ∀ c ∈ l, isBlank c = true)
    (hr : ∀ c ∈ r, isBlank c = true) (hne : s ≠ []) (head : ∀ c ∈ s.head?, isBlank c = false)
    (last : ∀ c ∈ s.getLast?, isBlank c = false) :
    trim (String.ofList (l ++ s ++ r)) = String.ofList s := by
  have front : (l ++ s ++ r).dropWhile isBlank = s ++ r := by
    rw [List.append_assoc]
    apply dropWhile_append_blank hl
    obtain ⟨c, s, rfl⟩ := List.exists_cons_of_ne_nil hne
    simpa using head
  have back : (r.reverse ++ s.reverse).dropWhile isBlank = s.reverse := by
    apply dropWhile_append_blank (by simpa using hr)
    rwa [List.head?_reverse]
  simp only [trim, dropEndWhile, String.toList_ofList, front, List.reverse_append, back,
    List.reverse_reverse]

theorem IsPropertyName.isPlainText {s : String} (h : IsPropertyName s) : IsPlainText s := by
  have bare : ∀ c, isPropertyChar c = true → isBracketChar c = false := free_of (by decide)
  have text : ∀ c, isPropertyChar c = true → isTextChar c = true := by
    intro c hc
    simp only [isPropertyChar, Bool.or_eq_true, beq_iff_eq] at hc
    rcases hc with (hc | rfl) | rfl
    · simp [isTextChar, hc]
    · decide
    · decide
  have space : ' ' ∉ s.toList := fun hs => by simpa [isPropertyChar] using h.2 _ hs
  refine ⟨h.1, fun c hc => text c (h.2 c hc), ?_, ?_, nest_of_free [] fun c hc => bare c (h.2 c hc)⟩
  · exact fun hs => space (List.mem_of_mem_head? hs)
  · exact fun hs => space (List.mem_of_getLast? hs)

namespace IsPlainText

variable {s : String}

theorem blank_head (h : IsPlainText s) : ∀ c ∈ s.toList.head?, isBlank c = false := fun c hc =>
  isBlank_text (h.chars c (List.mem_of_mem_head? hc)) fun hs => h.head (hs ▸ hc)

theorem blank_last (h : IsPlainText s) : ∀ c ∈ s.toList.getLast?, isBlank c = false := fun c hc =>
  isBlank_text (h.chars c (List.mem_of_getLast? hc)) fun hs => h.last (hs ▸ hc)

theorem toList_ne_nil (h : IsPlainText s) : s.toList ≠ [] := fun hs =>
  h.ne_empty (String.toList_injective (by simpa using hs))

theorem trim_eq (h : IsPlainText s) (l r : String) (hl : isAllBlank l = true)
    (hr : isAllBlank r = true) : trim (l ++ s ++ r) = s := by
  have padded := trim_pad l.toList r.toList (List.all_eq_true.1 hl) (List.all_eq_true.1 hr)
    h.toList_ne_nil h.blank_head h.blank_last
  simpa [← String.toList_append] using padded

private theorem trimEnd_eq (h : IsPlainText s) : trimEnd (s ++ " ") = s := by
  have back : (' ' :: s.toList.reverse).dropWhile isBlank = s.toList.reverse := by
    refine dropWhile_append_blank (l := [' ']) (s := s.toList.reverse)
      (List.all_eq_true.1 rfl) ?_
    rw [List.head?_reverse]
    exact h.blank_last
  simp [trimEnd, dropEndWhile, back]

end IsPlainText

private theorem toLower_eq_mark {c : Char} (h : c.toLower = '!') : c = '!' := by
  unfold Char.toLower at h
  split at h
  case isTrue hupper =>
    exfalso
    have hlow := hupper.1
    have hval : c.val + ('a'.val - 'A'.val) = '!'.val := congrArg Char.val h
    have hsum := congrArg UInt32.toNat hval
    have bounds : 'A'.val.toNat = 65 ∧ ('a'.val - 'A'.val).toNat = 32 ∧
        '!'.val.toNat = 33 := by decide
    have hsize := c.val.toNat_lt
    rw [ge_iff_le, UInt32.le_iff_toNat_le] at hlow
    rw [UInt32.toNat_add] at hsum
    omega
  case isFalse => exact h

private theorem splitImportant_of_unmarked {s : String} (h : '!' ∉ s.toList) :
    splitImportant s = (s, false) := by
  unfold splitImportant
  split
  case h_1 => rfl
  case h_2 rest hrest =>
    dsimp only
    split
    case isTrue hmark =>
      exfalso
      have mem : '!' ∈ rest.toList := by
        have := List.mem_of_getLast? hmark
        simp only [dropEndWhile, List.mem_reverse] at this
        simpa using (List.dropWhile_sublist isBlank).subset this
      have lowered : '!' ∈ (lower s).toList := by
        rw [stripEnd?_eq_some_iff.1 hrest]
        simp [mem]
      simp only [lower, String.toList_ofList, List.mem_map] at lowered
      obtain ⟨c, hc, hlow⟩ := lowered
      exact h (toLower_eq_mark hlow ▸ hc)
    case isFalse => rfl

private theorem splitImportant_marked {s : String} (h : IsPlainText s) :
    splitImportant (s ++ " !important") = (s, true) := by
  have hstrip : stripEnd? "important" (lower (s ++ " !important")) = some (lower s ++ " !") := by
    rw [stripEnd?_eq_some_iff]
    apply String.toList_injective
    simp [lower]
  have hmarked : dropEndWhile isBlank (lower s ++ " !").toList = (lower s ++ " !").toList := by
    simp [dropEndWhile, isBlank]
  have hlength : (lower s ++ " !").toList.length - 1 = s.toList.length + 1 := by simp [lower]
  have htaken : (s ++ " !important").toList.take (s.toList.length + 1) = (s ++ " ").toList := by
    simp [List.take_append, List.take_of_length_le]
  unfold splitImportant
  simp only [hstrip, hmarked, hlength, htaken, String.ofList_toList, h.trimEnd_eq]
  simp

theorem splitImportant_value {value : String} (hv : IsPlainText value) (important : Bool) :
    splitImportant (trim (value ++ importantMark important)) = (value, important) := by
  cases important with
  | false =>
    have hmark : '!' ∉ value.toList := fun h => by simpa [isTextChar] using hv.chars _ h
    have htrim := hv.trim_eq "" "" (by decide) (by decide)
    rw [String.empty_append] at htrim
    rw [importantMark, if_neg Bool.false_ne_true, htrim]
    exact splitImportant_of_unmarked hmark
  | true =>
    obtain ⟨c, cs, hcs⟩ := List.exists_cons_of_ne_nil hv.toList_ne_nil
    have padded := trim_pad (s := value.toList ++ " !important".toList) [] []
      (by simp) (by simp) (by simp) (by simpa [hcs] using hv.blank_head) (by
        have last : " !important".toList.getLast? = some 't' := by decide
        rw [List.getLast?_append, last, Option.some_or]
        intro c hc
        cases hc
        decide)
    have htext : String.ofList (value.toList ++ " !important".toList) = value ++ " !important" := by
      apply String.toList_injective
      simp
    rw [List.nil_append, List.append_nil, htext] at padded
    rw [importantMark, if_pos rfl, padded]
    exact splitImportant_marked hv

/-! ### Plain texts are closed -/

theorem lex_text_tail (cs : List Char) {z : Char} {tail : String}
    (hchars : ∀ c ∈ cs, isTextChar c = true) (hlast : cs.getLast? ≠ some ' ')
    (hnest : nest [] cs = some []) (hstop : ∀ c ∈ (tail.toList ++ [z]).head?, isStop c = true) :
    ∃ ls, lex (cs ++ (tail.toList ++ [z])) = ls ++ lex (tail.toList ++ [z]) ∧ TextRun [] cs ls := by
  obtain ⟨y, ys, hy⟩ : ∃ y ys, tail.toList ++ [z] = y :: ys := by
    cases tail.toList <;> exact ⟨_, _, rfl⟩
  rw [hy]
  exact lex_text [] cs ys hchars hlast hnest (hstop y (by rw [hy]; rfl))

theorem isClosed_text (cs : List Char) {z : Char} {tail : String} (hz : isTerminator z = true)
    (hchars : ∀ c ∈ cs, isTextChar c = true) (hlast : cs.getLast? ≠ some ' ')
    (hnest : nest [] cs = some []) (htail : IsClosed z tail)
    (hstop : ∀ c ∈ (tail.toList ++ [z]).head?, isStop c = true) :
    IsClosed z (String.ofList cs ++ tail) := by
  obtain ⟨ls, hlex, run⟩ := lex_text_tail cs hchars hlast hnest hstop
  obtain ⟨ls', hls', hclosed⟩ := htail
  obtain ⟨htext, hlex', -⟩ := lexBefore?_eq_some hz hls'
  rw [hlex' []] at hlex
  refine isClosed_of_lex hz (ls ++ ls') ?_ ?_ ?_
  · simpa using hlex
  · rw [textOf_append, run.text_eq, htext]
  · rw [bracketsBehind_append, bracketsBehind_of_isRun run.run,
    run.closed [] (List.Sublist.refl [])]
    exact hclosed

namespace IsPlainText

variable {s : String} {z : Char}

theorem isClosed (hs : IsPlainText s) (tail : String) (hz : isTerminator z = true)
    (htail : IsClosed z tail)
    (hstop : ∀ c ∈ (tail.toList ++ [z]).head?, isStop c = true) : IsClosed z (s ++ tail) := by
  simpa using isClosed_text s.toList hz hs.chars hs.last hs.nested htail hstop

theorem isClosed_padded (hs : IsPlainText s) (tail : String) (hz : isTerminator z = true)
    (htail : IsClosed z tail)
    (hstop : ∀ c ∈ (tail.toList ++ [z]).head?, isStop c = true) :
    IsClosed z (" " ++ s ++ tail) := by
  obtain ⟨c, cs, hcs⟩ := List.exists_cons_of_ne_nil hs.toList_ne_nil
  have hlast : (' ' :: s.toList).getLast? ≠ some ' ' := by
    have hlast := hs.last
    rw [hcs] at hlast ⊢
    rwa [List.getLast?_cons_cons]
  have h := isClosed_text (' ' :: s.toList) hz (by simpa [isTextChar] using hs.chars)
    hlast hs.nested
    htail hstop
  have htext : String.ofList (' ' :: s.toList) = " " ++ s := by
    apply String.toList_injective
    simp
  rwa [htext] at h

theorem isHead (hs : IsPlainText s) (tail : String) (hz : isTerminator z = true)
    (htail : IsClosed z tail)
    (hstop : ∀ c ∈ (tail.toList ++ [z]).head?, isStop c = true) : IsHead z (s ++ tail) where
  ne_empty h := hs.ne_empty (String.append_eq_empty_iff.1 h).1
  start := by
    obtain ⟨ls, hlex, run⟩ := lex_text_tail s.toList hs.chars hs.last hs.nested hstop
    have htext := run.text_eq
    rw [String.ofList_toList] at htext
    cases ls with
    | nil => exact absurd htext.symm hs.ne_empty
    | cons l ls =>
      rw [String.toList_append, List.append_assoc, hlex]
      exact run.start hs.head l rfl
  closed := hs.isClosed tail hz htail hstop

end IsPlainText

theorem IsPropertyName.isProperty {s : String} (h : IsPropertyName s) : IsProperty s := by
  have hplain := h.isPlainText
  have hhead := hplain.isHead (z := ':') "" (by decide) (by decide +kernel) (by simp; decide)
  have htrim := hplain.trim_eq "" "" (by decide) (by decide)
  rw [String.append_empty] at hhead
  rw [String.empty_append, String.append_empty] at htrim
  exact ⟨hhead, fun hc => by simpa [isPropertyChar] using h.2 _ hc, htrim⟩

theorem IsPlainText.isSelector {s : String} (h : IsPlainText s) : IsSelector s := by
  refine ⟨h.isHead " " (by decide) (by decide +kernel) (by simp; decide), ?_⟩
  simpa using h.trim_eq "" " " (by decide) (by decide)

theorem IsPlainText.isValue {s : String} (h : IsPlainText s) (important : Bool) :
    IsValue (s ++ importantMark important) := by
  refine ⟨?_, by rw [splitImportant_value h]⟩
  cases important with
  | false =>
    have hclosed :=
      h.isClosed_padded (z := ';') "" (by decide) (by decide +kernel) (by simp; decide)
    simpa [importantMark] using hclosed
  | true =>
    have hclosed := h.isClosed_padded (z := ';') " !important" (by decide) (by decide +kernel)
      (by simp; decide)
    simpa [importantMark, String.append_assoc] using hclosed

theorem trim_preludeText {params : String} (h : params = "" ∨ IsPlainText params) (r : String)
    (hr : isAllBlank r = true) : trim (preludeText params ++ r) = params := by
  rcases h with rfl | h
  · have none : ∀ cs : List Char, cs.all isBlank = true → cs.dropWhile isBlank = [] := by
      intro cs hcs
      simpa using dropWhile_append_blank (s := []) (List.all_eq_true.1 hcs) (by simp)
    simp [preludeText, trim, none r.toList hr, dropEndWhile]
  · have hne : params.isEmpty = false := by simpa using h.ne_empty
    simpa [preludeText, hne] using h.trim_eq " " r (by decide) hr

private theorem isParams_of_plain {params : String} (h : params = "" ∨ IsPlainText params)
    (bare : Bool) : IsParams bare params := by
  have closed : ∀ (tail : String) (z : Char), isTerminator z = true → IsClosed z tail →
      (∀ c ∈ (tail.toList ++ [z]).head?, isStop c = true) →
        IsClosed z (preludeText params ++ tail) := by
    intro tail z hz htail hstop
    rcases h with rfl | h
    · simpa [preludeText] using htail
    · have hne : params.isEmpty = false := by simpa using h.ne_empty
      simpa [preludeText, hne] using h.isClosed_padded tail hz htail hstop
  cases bare with
  | true =>
    have hclosed := closed "" ';' (by decide) (by decide +kernel) (by simp; decide)
    have htrim := trim_preludeText h "" (by decide)
    rw [String.append_empty] at hclosed htrim
    exact ⟨hclosed, htrim⟩
  | false =>
    exact ⟨closed " " '\x7b' (by decide) (by decide +kernel) (by simp; decide),
      trim_preludeText h " " (by decide)⟩

theorem IsAtName.isBareName {name : String} (h : IsAtName name) : IsBareName name := by
  have letter : ∀ c, isAtLetter c = true → isNameStart c = true := by
    intro c hc
    simp only [isAtLetter, Bool.or_eq_true] at hc
    rcases hc with hc | hc <;> simp [isNameStart, hc]
  refine ⟨?_, fun c hc => ?_⟩
  · obtain ⟨hhead, -⟩ := h
    cases hcs : name.toList with
    | nil => simp [hcs] at hhead
    | cons c cs =>
      have hc := letter c (by simpa [hcs] using hhead)
      have hslash : c ≠ '\\' := by rintro rfl; exact absurd hc (by decide)
      have hdash : c ≠ '-' := by rintro rfl; exact absurd hc (by decide)
      rw [startsName_cons, if_neg hslash, if_neg hdash]
      exact hc
  · rcases h.2 c hc with hletter | rfl
    · refine ⟨by simp [isNameChar, letter c hletter], fun hzero => ?_⟩
      obtain rfl : c = '\x00' := Char.toNat_inj.1 hzero
      exact absurd hletter (by decide)
    · decide

/-! ### Canonical trees -/

mutual

theorem Node.IsCanonical.printed_eq (node : Node) (h : node.IsCanonical) :
    node.IsPrintable ∧ node.printed = [node] := by
  match node with
  | .declaration _ none _ => cases h
  | .declaration property (some value) important =>
    refine ⟨⟨h.1.isProperty, h.2.isValue important⟩, ?_⟩
    rw [Node.printed, Node.ofValue, splitImportant_value h.2]
  | .rule selector nodes =>
    obtain ⟨hprint, hnodes⟩ := AllCanonical.printed_eq nodes h.2
    exact ⟨⟨h.1.isSelector, hprint⟩, by rw [Node.printed, hnodes]⟩
  | .atRule name params nodes =>
    obtain ⟨hprint, hnodes⟩ := AllCanonical.printed_eq nodes h.2.2
    exact ⟨⟨h.1.isBareName, isParams_of_plain h.2.1 _, hprint⟩, by rw [Node.printed, hnodes]⟩
  | .comment text => exact ⟨h, rfl⟩
  | .context .. => cases h
  | .atRoot _ => cases h

theorem AllCanonical.printed_eq (nodes : List Node) (h : AllCanonical nodes) :
    AllPrintable nodes ∧ printedAll nodes = nodes := by
  match nodes with
  | [] => exact ⟨trivial, rfl⟩
  | node :: nodes =>
    obtain ⟨hprint₁, hnode⟩ := Node.IsCanonical.printed_eq node h.1
    obtain ⟨hprint₂, hnodes⟩ := AllCanonical.printed_eq nodes h.2
    exact ⟨⟨hprint₁, hprint₂⟩, by rw [printedAll, hnode, hnodes]; rfl⟩

end

theorem Reader.renderAll_reads (nodes : List Node) (depth : Nat) (h : AllCanonical nodes) :
    ReadsAs (renderAll depth nodes) nodes := by
  obtain ⟨hprint, hnodes⟩ := AllCanonical.printed_eq nodes h
  have hread := renderAll_printed nodes depth hprint
  rwa [hnodes] at hread

mutual

theorem Node.hoisted_canonical (node : Node) (h : node.IsCanonical) : node.hoisted = [] := by
  match node with
  | .declaration .. => rfl
  | .comment _ => rfl
  | .rule _ nodes => exact hoistedAll_canonical nodes h.2
  | .atRule _ _ nodes => exact hoistedAll_canonical nodes h.2.2
  | .context .. => cases h
  | .atRoot _ => cases h

theorem hoistedAll_canonical (nodes : List Node) (h : AllCanonical nodes) :
    hoistedAll nodes = [] := by
  match nodes with
  | [] => rfl
  | node :: nodes =>
    rw [hoistedAll, Node.hoisted_canonical node h.1, hoistedAll_canonical nodes h.2]
    rfl

end

theorem parse_toCss (nodes : List Node) (h : AllCanonical nodes) :
    parse (toCss nodes) = .ok nodes := by
  have hcss : toCss nodes = renderAll 0 nodes := by
    rw [toCss, hoistedAll_canonical nodes h, renderQueue, String.append_empty]
  obtain ⟨r, ws, hws, hread, adds⟩ := Reader.renderAll_reads nodes 0 h {} [] [] (by simp) rfl rfl
  obtain ⟨place, hspaces⟩ :=
    Reader.read_spaces (r := r) ws [] hws (by simp) adds.pending adds.brackets
  rw [List.nil_append, List.append_nil] at hread
  rw [hcss, Reader.parse_eq_read, hread, hspaces, Reader.read_nil]
  have hnodes : r.nodes = nodes.reverse := by simpa using adds.nodes
  have hlevels : r.levels = [] := adds.levels
  change Reader.finish { r with place } = .ok nodes
  simp [Reader.finish, Reader.settle, adds.pending, Except.map, hlevels, hnodes, Reader.closeAll]

def nestedTree : List Node :=
  [.atRule "media" "(min-width: 1px)"
    [.rule "&:hover > a[b=c]"
      [.declaration "background" (some "url((a):b)") true, .comment "/ * / **"],
     .atRule "x-y" "" []]]

theorem parse_toCss_nested :
    AllCanonical nestedTree ∧ parse (toCss nestedTree) = .ok nestedTree := by
  have canonical : AllCanonical nestedTree := by decide
  exact ⟨canonical, parse_toCss nestedTree canonical⟩

end UtilityCss
