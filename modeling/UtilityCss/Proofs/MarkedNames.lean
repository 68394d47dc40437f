import UtilityCss.Proofs.RuleOrder

/-!
Class names with a mark of importance. The mark stands before or behind the last part of a name.
Putting it there leaves the other parts as they are, so a marked name has the readings of the name
without it, all of them important.
-/
namespace UtilityCss

/-! ### Parts of a text -/

namespace Text

variable {separator : Char} {n : Nesting} {part part' : List Char} {parts : List (List Char)}

def IsPart (separator : Char) (n : Nesting) (part : List Char) : Prop :=
  segmentFrom separator n part = (part, [])

/-- Texts that are the parts of the one they make with separators between them: all but the last one
end where a separator is seen. -/
def AreParts (separator : Char) : Nesting → List (List Char) → Prop
  | _, [] => False
  | n, [part] => IsPart separator n part
  | n, part :: next :: parts =>
    IsPart separator n part ∧ part.foldl Nesting.step n = {} ∧ AreParts separator {} (next :: parts)

theorem Nesting.step_of_not_isStructural {c : Char} (h : isStructural c = false) :
    Nesting.step {} c = {} := by
  simp only [isStructural, Bool.or_eq_false_iff, beq_eq_false_iff_ne, Option.isSome_eq_false_iff,
    Option.isNone_iff_eq_none] at h
  obtain ⟨⟨⟨hslash, hquote⟩, hopen⟩, hclose⟩ := h
  simp [Nesting.step, hslash, hquote, hopen, hclose]

theorem isStructural_eq_false {p : Char → Bool} {c : Char} (hc : p c = true)
    (hclass : ['\\', '"', '\'', '(', '[', '\x7b', ')', ']', '\x7d'].any p = false) :
    isStructural c = false := by
  by_contra hs
  have hmem : c ∈ ['\\', '"', '\'', '(', '[', '\x7b', ')', ']', '\x7d'] := by
    simp only [isStructural, isQuote, isCloser, Bool.not_eq_false, Bool.or_eq_true, beq_iff_eq]
      at hs
    rcases hs with ((rfl | rfl | rfl) | hopen) | (rfl | rfl) | rfl
    all_goals first | decide | skip
    unfold closer? at hopen
    split at hopen <;> first | decide | simp at hopen
  exact List.any_eq_false.1 hclass c hmem hc

theorem foldl_step_of_not_isStructural {cs : List Char} (h : ∀ c ∈ cs, isStructural c = false) :
    cs.foldl Nesting.step {} = {} := by
  induction cs with
  | nil => rfl
  | cons c cs ih =>
    rw [List.forall_mem_cons] at h
    rw [List.foldl_cons, Nesting.step_of_not_isStructural h.1, ih h.2]

theorem isPart_cons {c : Char} (h : n.splits separator c = false)
    (hpart : IsPart separator (n.step c) part) : IsPart separator n (c :: part) := by
  unfold IsPart at hpart ⊢
  simp only [segmentFrom, h, hpart, Bool.false_eq_true, if_false]

theorem isPart_of_not_mem {cs : List Char} (hseparator : separator ∉ cs) :
    IsPart separator n cs := by
  induction cs generalizing n with
  | nil => rfl
  | cons c cs ih =>
    rw [List.mem_cons, not_or] at hseparator
    exact isPart_cons (by simp [Nesting.splits, Ne.symm hseparator.1]) (ih hseparator.2)

theorem segment_eq_singleton {s : String} (h : IsPart separator {} s.toList) :
    segment separator s = [s] := by
  rw [segment, segments, h]
  simp

theorem areParts_segmentFrom (separator : Char) (n : Nesting) (cs : List Char) :
    AreParts separator n ((segmentFrom separator n cs).1 :: (segmentFrom separator n cs).2) := by
  induction cs generalizing n with
  | nil => rfl
  | cons c cs ih =>
    have hlater := ih (n.step c)
    rw [segmentFrom]
    split
    next hsplits =>
      simp only [Nesting.splits, Bool.and_eq_true, Bool.not_eq_true'] at hsplits
      have hneutral := Nesting.isNeutral_iff.1 hsplits.1.1
      rw [hneutral, Nesting.step_of_not_isStructural hsplits.2] at hlater ⊢
      exact ⟨rfl, rfl, hlater⟩
    next hsplits =>
      have hsplits := Bool.eq_false_iff.2 hsplits
      cases hrest : (segmentFrom separator (n.step c) cs).2 with
      | nil =>
        rw [hrest] at hlater
        exact isPart_cons hsplits hlater
      | cons next parts =>
        rw [hrest] at hlater
        exact ⟨isPart_cons hsplits hlater.1, hlater.2⟩

theorem areParts_iff : AreParts separator {} parts ↔ parts ≠ [] ∧
    (∀ part ∈ parts, IsPart separator {} part) ∧
      ∀ part ∈ parts.dropLast, part.foldl Nesting.step {} = {} := by
  induction parts with
  | nil => simp [AreParts]
  | cons part parts ih =>
    cases parts with
    | nil => simp [AreParts]
    | cons next parts =>
      rw [AreParts, ih, List.dropLast_cons_cons]
      constructor
      · rintro ⟨hpart, hclosed, -, hparts, hrest⟩
        exact ⟨List.cons_ne_nil _ _, List.forall_mem_cons.2 ⟨hpart, hparts⟩,
          List.forall_mem_cons.2 ⟨hclosed, hrest⟩⟩
      · rintro ⟨-, hparts, hclosed⟩
        rw [List.forall_mem_cons] at hparts hclosed
        exact ⟨hparts.1, hclosed.1, List.cons_ne_nil _ _, hparts.2, hclosed.2⟩

theorem segmentFrom_append (h : IsPart separator n part) (cs : List Char) :
    segmentFrom separator n (part ++ cs) =
      (part ++ (segmentFrom separator (part.foldl Nesting.step n) cs).1,
        (segmentFrom separator (part.foldl Nesting.step n) cs).2) := by
  induction part generalizing n with
  | nil => rfl
  | cons c part ih =>
    unfold IsPart at h
    simp only [segmentFrom] at h
    split at h
    · cases h
    next hsplits =>
      have hpart : IsPart separator (n.step c) part := by
        simp only [Prod.mk.injEq, List.cons.injEq, true_and] at h
        exact Prod.ext h.1 h.2
      simp [segmentFrom, hsplits, ih hpart]

private theorem segmentFrom_intercalate (hseparator : isStructural separator = false)
    (h : AreParts separator n (part :: parts)) :
    segmentFrom separator n ([separator].intercalate (part :: parts)) = (part, parts) := by
  induction parts generalizing n part with
  | nil =>
    rw [List.intercalate_singleton]
    exact h
  | cons next parts ih =>
    obtain ⟨hpart, hneutral, hrest⟩ := h
    have hsplits : Nesting.splits {} separator separator = true := by
      simp [Nesting.splits, Nesting.isNeutral, hseparator]
    rw [List.intercalate_cons_cons, List.append_assoc, List.singleton_append,
      segmentFrom_append hpart, hneutral, segmentFrom,
      Nesting.step_of_not_isStructural hseparator, ih hrest]
    simp [hsplits]

theorem segments_intercalate (hseparator : isStructural separator = false)
    (h : AreParts separator {} parts) :
    segments separator ([separator].intercalate parts) = parts := by
  cases parts with
  | nil => exact h.elim
  | cons part parts => rw [segments, segmentFrom_intercalate hseparator h]

theorem intercalate_segmentFrom (separator : Char) (n : Nesting) (cs : List Char) :
    [separator].intercalate ((segmentFrom separator n cs).1 :: (segmentFrom separator n cs).2) =
      cs := by
  induction cs generalizing n with
  | nil => rfl
  | cons c cs ih =>
    have hlater := ih (n.step c)
    rw [segmentFrom]
    split
    next hsplits =>
      simp only [Nesting.splits, Bool.and_eq_true, beq_iff_eq] at hsplits
      simpa [List.intercalate, List.intersperse, hsplits.1.2] using hlater
    next =>
      cases hrest : (segmentFrom separator (n.step c) cs).2 with
      | nil => simpa [hrest, List.intercalate] using hlater
      | cons next parts => simpa [hrest, List.intercalate, List.intersperse] using hlater

private theorem segmentFrom_append_separator (hseparator : isStructural separator = false)
    {cs : List Char} (hclosed : cs.foldl Nesting.step n = {}) (rest : List Char) :
    segmentFrom separator n (cs ++ separator :: rest) =
      ((segmentFrom separator n cs).1,
        (segmentFrom separator n cs).2 ++ segments separator rest) := by
  induction cs generalizing n with
  | nil =>
    have hneutral : n = {} := hclosed
    have hsplits : Nesting.splits {} separator separator = true := by
      simp [Nesting.splits, Nesting.isNeutral, hseparator]
    simp [hneutral, segmentFrom, hsplits, Nesting.step_of_not_isStructural hseparator, segments]
  | cons c cs ih =>
    simp only [List.cons_append, segmentFrom, ih hclosed]
    split <;> rfl

theorem segment_append (hseparator : isStructural separator = false) {s : String}
    (hclosed : s.toList.foldl Nesting.step {} = {}) (rest : String) :
    segment separator (s ++ String.singleton separator ++ rest) =
      segment separator s ++ segment separator rest := by
  have hlist : (s ++ String.singleton separator ++ rest).toList =
      s.toList ++ separator :: rest.toList := by
    simp
  rw [segment, segments, hlist, segmentFrom_append_separator hseparator hclosed, ← List.cons_append,
    List.map_append]
  rfl

theorem segment_colon {s : String} (hs : segment ':' s = [s])
    (hclosed : s.toList.foldl Nesting.step {} = {}) (rest : String) :
    segment ':' (s ++ ":" ++ rest) = s :: segment ':' rest := by
  have hparts : segment ':' (s ++ String.singleton ':' ++ rest) = _ :=
    segment_append (by decide) hclosed rest
  rwa [hs] at hparts

theorem AreParts.setLast {before : List (List Char)} (h : AreParts separator {} (before ++ [part]))
    (hpart : IsPart separator {} part → IsPart separator {} part') :
    AreParts separator {} (before ++ [part']) := by
  induction before with
  | nil => exact hpart h
  | cons first before ih =>
    cases before with
    | nil => exact ⟨h.1, h.2.1, hpart h.2.2⟩
    | cons next before => exact ⟨h.1, h.2.1, ih h.2.2⟩

end Text

/-! ### Marks -/

inductive ImportantMark where
  | leading
  | trailing
  deriving DecidableEq, Repr

namespace ImportantMark

def on (mark : ImportantMark) (base : String) : String :=
  match mark with
  | leading => "!" ++ base
  | trailing => base ++ "!"

def put (mark : ImportantMark) (raw : String) : String :=
  let parts := Text.segment ':' raw
  String.intercalate ":" (parts.dropLast ++ [mark.on (parts.getLastD "")])

end ImportantMark

def markName (marks : String → ImportantMark) (raw : String) : String :=
  (marks raw).put raw

def IsUnmarked (raw : String) : Prop :=
  Text.startsWith "!" ((Text.segment ':' raw).getLastD "") = false ∧
    Text.endsWith "!" ((Text.segment ':' raw).getLastD "") = false

instance (raw : String) : Decidable (IsUnmarked raw) :=
  inferInstanceAs (Decidable (_ ∧ _))

theorem Text.exists_parts (raw : String) : ∃ (before : List (List Char)) (base : List Char),
    Text.AreParts ':' {} (before ++ [base]) ∧ raw.toList = [':'].intercalate (before ++ [base]) ∧
      Text.segment ':' raw = before.map String.ofList ++ [String.ofList base] := by
  have hparts := Text.areParts_segmentFrom ':' {} raw.toList
  have hjoin := Text.intercalate_segmentFrom ':' {} raw.toList
  have hne : Text.segments ':' raw.toList ≠ [] := by simp [Text.segments]
  obtain ⟨before, base, hsegments⟩ := (List.eq_nil_or_concat' _).resolve_left hne
  unfold Text.segments at hsegments
  rw [hsegments] at hparts hjoin
  refine ⟨before, base, hparts, hjoin.symm, ?_⟩
  rw [Text.segment, Text.segments, hsegments, List.map_append, List.map_singleton]

theorem ImportantMark.isPart_on (mark : ImportantMark) {base : String}
    (h : Text.IsPart ':' {} base.toList) : Text.IsPart ':' {} (mark.on base).toList := by
  have hmark : ∀ n : Text.Nesting, n.splits ':' '!' = false := by
    intro n
    simp [Text.Nesting.splits]
  cases mark with
  | leading =>
    have hstep : Text.Nesting.step {} '!' = {} := by decide
    rw [ImportantMark.on, String.toList_append]
    exact Text.isPart_cons (hmark {}) (hstep ▸ h)
  | trailing =>
    rw [ImportantMark.on, String.toList_append]
    unfold Text.IsPart
    rw [Text.segmentFrom_append h]
    simp [Text.segmentFrom, hmark]

theorem ImportantMark.exists_segment (mark : ImportantMark) (raw : String) :
    ∃ before base, Text.segment ':' raw = before ++ [base] ∧
      raw = String.intercalate ":" (before ++ [base]) ∧
      Text.segment ':' (mark.put raw) = before ++ [mark.on base] := by
  obtain ⟨before, base, hparts, hjoin, hsegment⟩ := Text.exists_parts raw
  refine ⟨before.map String.ofList, String.ofList base, hsegment, ?_, ?_⟩
  · apply String.toList_injective
    simpa [Function.comp_def] using hjoin
  · have hput : (mark.put raw).toList =
        [':'].intercalate (before ++ [(mark.on (String.ofList base)).toList]) := by
      simp [ImportantMark.put, hsegment, Function.comp_def]
    have hmarked : Text.AreParts ':' {} (before ++ [(mark.on (String.ofList base)).toList]) :=
      hparts.setLast fun h => mark.isPart_on (by simpa using h)
    rw [Text.segment, hput, Text.segments_intercalate (by decide) hmarked]
    simp

private theorem stripImportant_of_unmarked {base : String}
    (hstart : Text.startsWith "!" base = false)
    (hend : Text.endsWith "!" base = false) : Candidate.stripImportant base = (base, false) := by
  simp only [Text.startsWith, Text.endsWith, Option.isSome_eq_false_iff, Option.isNone_iff_eq_none]
    at hstart hend
  simp [Candidate.stripImportant, hstart, hend]

theorem ImportantMark.stripImportant_on (mark : ImportantMark) {base : String}
    (hend : Text.endsWith "!" base = false) :
    Candidate.stripImportant (mark.on base) = (base, true) := by
  have hfound : (Text.stripEnd? "!" (mark.on base)).or (Text.strip? "!" (mark.on base)) =
      some base := by
    cases mark with
    | leading =>
      have hstrip : Text.strip? "!" ("!" ++ base) = some base := Text.strip?_eq_some_iff.2 rfl
      cases hbehind : Text.stripEnd? "!" ("!" ++ base) with
      | none => simp [ImportantMark.on, hbehind, hstrip]
      | some rest =>
        -- one mark is both before and behind the empty name, and no other
        have hchars := congrArg String.toList (Text.stripEnd?_eq_some_iff.1 hbehind)
        cases hrest : rest.toList with
        | nil =>
          have hempty : rest = base := String.toList_injective (by simpa [hrest] using hchars.symm)
          simp [ImportantMark.on, hbehind, hempty]
        | cons c cs =>
          have htail : '!' = c ∧ base.toList = cs ++ ['!'] := by simpa [hrest] using hchars
          have hbase : base = String.ofList cs ++ "!" := String.toList_injective (by simp [htail.2])
          simp [Text.endsWith, Text.stripEnd?_eq_some_iff.2 hbase] at hend
    | trailing =>
      have hstrip : Text.stripEnd? "!" (base ++ "!") = some base := Text.stripEnd?_eq_some_iff.2 rfl
      simp [ImportantMark.on, hstrip]
  simp [Candidate.stripImportant, hfound]

theorem Candidate.dropPrefix?_concat (keyPrefix : Option String) (before : List String) :
    ∃ rest : Option (List String), ∀ base,
      dropPrefix? keyPrefix (before ++ [base]) = rest.map (· ++ [base]) := by
  cases keyPrefix with
  | none => exact ⟨some before, fun base => rfl⟩
  | some p =>
    cases before with
    | nil => exact ⟨none, fun base => rfl⟩
    | cons first before =>
      refine ⟨if first = p then some before else none, fun base => ?_⟩
      cases before <;> by_cases h : first = p <;> simp [dropPrefix?, h]

def Candidate.marked (raw : String) (c : Candidate) : Candidate :=
  { c with important := true, raw }

theorem DesignSystem.parse_put (d : DesignSystem) (mark : ImportantMark) {raw : String}
    (h : IsUnmarked raw) : d.parse (mark.put raw) = (d.parse raw).map (.marked (mark.put raw)) := by
  obtain ⟨before, base, hraw, -, hput⟩ := mark.exists_segment raw
  have hunmarked : Text.startsWith "!" base = false ∧ Text.endsWith "!" base = false := by
    simpa [IsUnmarked, hraw] using h
  obtain ⟨rest, hrest⟩ := Candidate.dropPrefix?_concat d.theme.keyPrefix before
  unfold DesignSystem.parse Candidate.parse
  rw [hput, hraw, hrest, hrest]
  cases rest with
  | none => rfl
  | some rest =>
    simp only [Option.map_some, List.reverse_append, List.reverse_singleton, List.singleton_append,
      mark.stripImportant_on hunmarked.2, stripImportant_of_unmarked hunmarked.1 hunmarked.2]
    split
    · rfl
    · split
      · rfl
      · simp [Candidate.marked, Function.comp_def]

theorem ImportantMark.put_trailing (raw : String) : trailing.put raw = raw ++ "!" := by
  obtain ⟨before, base, -, hjoin, hsegment⟩ := Text.exists_parts raw
  apply String.toList_injective
  have hbehind : ∀ parts : List (List Char), [':'].intercalate (parts ++ [base ++ ['!']]) =
      [':'].intercalate (parts ++ [base]) ++ ['!'] := by
    intro parts
    induction parts with
    | nil => simp
    | cons part parts ih => cases parts <;> simp_all [List.intercalate, List.intersperse]
  simpa [ImportantMark.put, hsegment, hjoin, ImportantMark.on, Function.comp_def] using
    hbehind before

theorem ImportantMark.eq_of_put {mark mark' : ImportantMark} {raw raw' : String}
    (h : IsUnmarked raw)
    (h' : IsUnmarked raw') (heq : mark.put raw = mark'.put raw') : raw = raw' := by
  obtain ⟨before, base, hraw, hjoin, hput⟩ := mark.exists_segment raw
  obtain ⟨before', base', hraw', hjoin', hput'⟩ := mark'.exists_segment raw'
  rw [heq, hput'] at hput
  obtain ⟨hbefore, hbase⟩ := List.append_inj' hput rfl
  have hlast : Text.endsWith "!" base = false := by simpa [IsUnmarked, hraw] using h.2
  have hlast' : Text.endsWith "!" base' = false := by simpa [IsUnmarked, hraw'] using h'.2
  have hstrip := congrArg Candidate.stripImportant (List.singleton_inj.1 hbase)
  rw [mark.stripImportant_on hlast, mark'.stripImportant_on hlast', Prod.mk.injEq] at hstrip
  rw [hjoin, hjoin', hbefore, hstrip.1]

end UtilityCss
