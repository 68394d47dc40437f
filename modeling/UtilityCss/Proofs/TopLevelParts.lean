import UtilityCss.Proofs.MarkedNames

/-!
The parts of a text between its top-level separators. They are the only texts that make the text
again when they are joined, that cannot be cut any further, and of which only the last one may leave
a bracket, a quote or an escape open. So what leaves nothing open is cut as it is alone.
-/
namespace UtilityCss.Text

variable {separator : Char}

/-- Texts that may stand between the top-level separators of a text. -/
structure AreTopLevel (separator : Char) (parts : List String) : Prop where
  ne_nil : parts ≠ []
  /-- none is cut any further -/
  whole : ∀ part ∈ parts, segment separator part = [part]
  /-- where a separator follows, nothing is open -/
  closed : ∀ part ∈ parts.dropLast, (part.toList.foldl Nesting.step {}).isNeutral = true
  /-- characters with a meaning of their own never separate -/
  separates : isStructural separator = true → parts.length = 1

private theorem segment_eq_singleton_iff {s : String} :
    segment separator s = [s] ↔ IsPart separator {} s.toList := by
  refine ⟨fun h => ?_, segment_eq_singleton⟩
  rw [segment, segments, List.map_cons, List.cons.injEq, List.map_eq_nil_iff] at h
  have hpart : (segmentFrom separator {} s.toList).1 = s.toList := by
    simpa using congrArg String.toList h.1
  exact Prod.ext hpart h.2

private theorem segmentFrom_of_isStructural (h : isStructural separator = true) (n : Nesting)
    (cs : List Char) : segmentFrom separator n cs = (cs, []) := by
  induction cs generalizing n with
  | nil => rfl
  | cons c cs ih =>
    have hsplits : n.splits separator c = false := by
      by_cases hc : c = separator
      · simp [Nesting.splits, hc, h]
      · simp [Nesting.splits, hc]
    simp [segmentFrom, hsplits, ih]

private theorem intercalate_segment (separator : Char) (s : String) :
    (String.singleton separator).intercalate (segment separator s) = s := by
  apply String.toList_injective
  have hjoin := intercalate_segmentFrom separator {} s.toList
  rw [String.toList_intercalate, segment, List.map_map]
  simpa [segments, Function.comp_def] using hjoin

private theorem areTopLevel_segment (separator : Char) (s : String) :
    AreTopLevel separator (segment separator s) := by
  obtain ⟨-, hwhole, hclosed⟩ := areParts_iff.1 (areParts_segmentFrom separator {} s.toList)
  refine ⟨by simp [segment, segments], ?_, ?_, fun hstructural => ?_⟩
  · refine List.forall_mem_map.2 fun part hpart => segment_eq_singleton ?_
    rw [String.toList_ofList]
    exact hwhole part hpart
  · rw [segment, ← List.map_dropLast]
    refine List.forall_mem_map.2 fun part hpart => ?_
    rw [String.toList_ofList]
    exact Nesting.isNeutral_iff.2 (hclosed part hpart)
  · simp [segment, segments, segmentFrom_of_isStructural hstructural]

namespace AreTopLevel

variable {parts : List String}

private theorem areParts (h : AreTopLevel separator parts) :
    AreParts separator {} (parts.map String.toList) := by
  refine areParts_iff.2 ⟨by simpa using h.ne_nil, ?_, ?_⟩
  · exact List.forall_mem_map.2 fun part hpart => segment_eq_singleton_iff.1 (h.whole part hpart)
  · rw [← List.map_dropLast]
    exact List.forall_mem_map.2 fun part hpart => Nesting.isNeutral_iff.1 (h.closed part hpart)

private theorem segment_intercalate (h : AreTopLevel separator parts) :
    segment separator ((String.singleton separator).intercalate parts) = parts := by
  cases hstructural : isStructural separator with
  | true =>
    obtain ⟨part, rfl⟩ := List.length_eq_one_iff.1 (h.separates hstructural)
    rw [String.intercalate_singleton]
    exact h.whole part List.mem_cons_self
  | false =>
    have hcut := segments_intercalate hstructural h.areParts
    rw [segment, String.toList_intercalate, String.toList_singleton, hcut, List.map_map]
    simp [Function.comp_def]

end AreTopLevel

/-- A text is cut into the only top-level parts that make it again when they are joined. In front of
a separator, a text that leaves nothing open is cut as it is alone. -/
theorem segment_decomposes (separator : Char) (s : String) :
    (String.singleton separator).intercalate (segment separator s) = s ∧
      AreTopLevel separator (segment separator s) ∧
      (∀ parts, AreTopLevel separator parts → (String.singleton separator).intercalate parts = s →
        parts = segment separator s) ∧
      (isStructural separator = false → (s.toList.foldl Nesting.step {}).isNeutral = true → ∀ rest,
        segment separator (s ++ String.singleton separator ++ rest) =
          segment separator s ++ segment separator rest) := by
  refine ⟨intercalate_segment separator s, areTopLevel_segment separator s, ?_, ?_⟩
  · rintro parts hparts rfl
    exact hparts.segment_intercalate.symm
  · intro hseparator hneutral rest
    exact segment_append hseparator (Nesting.isNeutral_iff.1 hneutral) rest

theorem segment_decomposes_bracketed :
    AreTopLevel ':' ["hover", "[&:focus]"] ∧
      ["hover", "[&:focus]"] = segment ':' "hover:[&:focus]" ∧
      ("hover:[&:focus]".toList.foldl Nesting.step {}).isNeutral = true ∧
      segment ':' ("hover:[&:focus]" ++ String.singleton ':' ++ "a\\:b:(c:d") =
        segment ':' "hover:[&:focus]" ++ segment ':' "a\\:b:(c:d" := by
  have hparts : AreTopLevel ':' ["hover", "[&:focus]"] := ⟨by simp, by decide, by decide, by decide⟩
  have hneutral : ("hover:[&:focus]".toList.foldl Nesting.step {}).isNeutral = true := by decide
  obtain ⟨-, -, hunique, hcut⟩ := segment_decomposes ':' "hover:[&:focus]"
  exact ⟨hparts, hunique _ hparts (by decide), hneutral, hcut (by decide) hneutral _⟩

end UtilityCss.Text
