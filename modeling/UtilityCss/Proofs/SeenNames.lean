import UtilityCss.Proofs.Compilation
import UtilityCss.Proofs.InvalidNames

/-!
What a compiler keeps of the class names it has seen. With a place for the rules, the names that
mean something are its candidates and the others are remembered as invalid. Without one, no name is
ever looked at, and all of them stay candidates.
-/
namespace UtilityCss

/-! ### Nothing is remembered before the first build -/

theorem Collected.invalid_system (c : Collected) (important : Bool) :
    (c.system important).invalid = [] := by
  apply List.foldlRecOn (motive := fun d : DesignSystem => d.invalid = []) c.variants _ rfl
  intro d hd entry _
  cases hvariant : entry.2 <;> simpa only [DesignSystem.addVariant, hvariant] using hd

theorem Compilation.invalid_system {css : String} {options : CompileOptions}
    (r : Compilation css options) : r.system.invalid = [] := by
  refine r.system_of_lasting (motive := fun d => d.invalid = []) ?_ (Collected.invalid_system _ _)
  exact ⟨fun _ _ _ h => h, fun _ _ h => h, fun _ _ _ h => h⟩

/-! ### What builds keep -/

private theorem lt_of_isLE_of_ne {a b : String} (h : (compare a b).isLE = true)
    (hne : a ≠ b) : a < b := by
  cases hab : compare a b with
  | lt => exact compareOfLessAndEq_eq_lt.1 hab
  | eq => exact absurd (Std.LawfulEqCmp.eq_of_compare hab) hne
  | gt =>
    rw [hab] at h
    exact absurd h Bool.false_ne_true

namespace Compiler

variable {c k : Compiler} {seen batch : List String}

structure Remembers (c k : Compiler) (seen : List String) : Prop where
  ascending : k.candidates.Pairwise (· < ·)
  invalid_seen : ∀ raw ∈ k.system.invalid, raw ∈ seen
  -- no name that is seen gets lost
  seen_kept : ∀ raw ∈ seen, raw ∈ k.candidates ∨ raw ∈ k.system.invalid
  unplaced : c.site = none → k.system.invalid = []

theorem gathered_ascending (h : k.candidates.Pairwise (· < ·)) (batch : List String) :
    (k.gathered batch).Pairwise (· < ·) := by
  have hfresh : (k.fresh batch).Nodup := nodup_eraseDups _
  have hcandidates : k.candidates.Nodup := h.imp fun hlt => ne_of_lt hlt
  have hnodup : (k.gathered batch).Nodup := by
    rw [gathered, (List.mergeSort_perm _ _).nodup_iff]
    apply List.nodup_append'.2
    exact ⟨hcandidates, hfresh, fun raw hraw hmem => (mem_fresh.1 hmem).2.2 hraw⟩
  have hsorted : (k.gathered batch).Pairwise fun a b => (compare a b).isLE = true :=
    pairwise_sortBy _
  exact (hsorted.and hnodup).imp fun hab => lt_of_isLE_of_ne hab.1 hab.2

theorem mem_gathered_or_invalid {raw : String} (hraw : raw ∈ batch) :
    raw ∈ k.gathered batch ∨ raw ∈ k.system.invalid := by
  by_cases hinvalid : raw ∈ k.system.invalid
  · exact .inr hinvalid
  by_cases hcandidate : raw ∈ k.candidates
  · exact .inl (mem_gathered.2 (.inl hcandidate))
  · exact .inl (mem_gathered.2 (.inr (mem_fresh.2 ⟨hraw, hinvalid, hcandidate⟩)))

namespace Remembers

theorem build_nothing (h : c.Remembers k seen) (hfresh : k.fresh batch = []) :
    c.Remembers (k.build batch).compiler (seen ++ batch) := by
  have hgathered : ∀ {raw}, raw ∈ k.gathered batch → raw ∈ k.candidates := by
    intro raw hraw
    simpa [mem_gathered, hfresh] using hraw
  rw [build_of_nothing hfresh]
  exact
    { ascending := h.ascending
      invalid_seen := fun raw hraw => List.mem_append_left _ (h.invalid_seen raw hraw)
      seen_kept := fun raw hraw => by
        rcases List.mem_append.1 hraw with hmem | hmem
        · exact h.seen_kept raw hmem
        · exact (mem_gathered_or_invalid hmem).imp_left hgathered
      unplaced := h.unplaced }

theorem gathered_or_invalid (h : c.Remembers k seen) {raw : String} (hraw : raw ∈ seen ++ batch) :
    raw ∈ k.gathered batch ∨ raw ∈ k.system.invalid := by
  rcases List.mem_append.1 hraw with hmem | hmem
  · exact (h.seen_kept raw hmem).imp_left fun hcandidate => mem_gathered.2 (.inl hcandidate)
  · exact mem_gathered_or_invalid hmem

theorem build_unplaced (h : c.Remembers k seen) (hfresh : k.fresh batch ≠ [])
    (hsite : k.site = none) : c.Remembers (k.build batch).compiler (seen ++ batch) := by
  rw [build_without_site hfresh hsite]
  exact
    { ascending := gathered_ascending h.ascending batch
      invalid_seen := fun raw hraw => List.mem_append_left _ (h.invalid_seen raw hraw)
      seen_kept := fun raw hraw => h.gathered_or_invalid hraw
      unplaced := h.unplaced }

theorem build_placed (ht : c.Tracks k seen) (h : c.Remembers k seen) (hfresh : k.fresh batch ≠ [])
    {address : Address} (hsite : k.site = some address) :
    c.Remembers (k.build batch).compiler (seen ++ batch) := by
  let g := k.system.generate (k.gathered batch)
  have hcandidates : (k.build batch).compiler.candidates =
      (k.gathered batch).filter fun raw => !g.reported.contains raw := by
    rw [build_with_site hfresh hsite]
    dsimp only
    split <;> rfl
  have hinvalid : ∀ raw, raw ∈ (k.build batch).compiler.system.invalid ↔
      raw ∈ k.system.invalid ∨ raw ∈ g.reported := by
    intro raw
    have hsystem : (k.build batch).compiler.system = g.system := by
      rw [build_with_site hfresh hsite]
      dsimp only
      split <;> rfl
    have hmemory : g.system.invalid =
        k.system.invalid ++ g.reported.filter fun raw => !k.system.isInvalid raw := rfl
    rw [hsystem, hmemory, List.mem_append, List.mem_filter]
    simp only [DesignSystem.isInvalid, List.contains_eq_mem, Bool.not_eq_true',
      decide_eq_false_iff_not]
    tauto
  have hgathered : ∀ raw ∈ k.gathered batch, raw ∈ seen ++ batch := by
    intro raw hraw
    rcases mem_gathered.1 hraw with hmem | hmem
    · exact List.mem_append_left _ (ht.candidates_seen raw hmem)
    · exact List.mem_append_right _ (mem_fresh.1 hmem).1
  exact
    { ascending := by
        rw [hcandidates]
        exact (gathered_ascending h.ascending batch).filter _
      invalid_seen := fun raw hraw => by
        rcases (hinvalid raw).1 hraw with hmem | hmem
        · exact List.mem_append_left _ (h.invalid_seen raw hmem)
        · exact hgathered raw (DesignSystem.mem_reported.1 hmem).1
      seen_kept := fun raw hraw => by
        rw [hcandidates, hinvalid]
        have hkept := h.gathered_or_invalid hraw
        by_cases hreported : raw ∈ g.reported
        · exact .inr (.inr hreported)
        · exact hkept.imp (fun hmem => List.mem_filter.2 ⟨hmem, by simpa using hreported⟩) .inl
      unplaced := fun hnone => by
        rw [ht.site, hnone] at hsite
        cases hsite }

theorem build (ht : c.Tracks k seen) (h : c.Remembers k seen) (batch : List String) :
    c.Remembers (k.build batch).compiler (seen ++ batch) := by
  by_cases hfresh : k.fresh batch = []
  · exact h.build_nothing hfresh
  cases hsite : k.site with
  | none => exact h.build_unplaced hfresh hsite
  | some address => exact h.build_placed ht hfresh hsite

theorem buildAll (hc : c.system.variants.Extended) (ht : c.Tracks k seen) (h : c.Remembers k seen)
    (batches : List (List String)) :
    c.Remembers (k.buildAll batches) (seen ++ batches.flatten) := by
  induction batches generalizing k seen with
  | nil => simpa [Compiler.buildAll] using h
  | cons batch batches ih =>
    have hnext := ih (ht.build hc batch).1 (h.build ht batch)
    rwa [List.append_assoc, ← List.flatten_cons] at hnext

end Remembers

/-- After any builds the candidates stand in ascending order, each once. Where the rules have a
place, they are the class names seen so far that mean something, and the names remembered as invalid
are those that mean nothing. Where there is none, they are all names seen so far, and none is
remembered. -/
theorem candidates_exact {css : String} {options : CompileOptions} {c : Compiler}
    (h : (compile css options).result = .ok c) (batches : List (List String)) :
    let k := c.buildAll batches
    let seen := batches.flatten
    k.candidates.Pairwise (· < ·) ∧
    (c.site ≠ none → ∀ raw,
      (raw ∈ k.candidates ↔ raw ∈ seen ∧ (c.system.generate [raw]).rules ≠ []) ∧
      (raw ∈ k.system.invalid ↔ raw ∈ seen ∧ (c.system.generate [raw]).rules = [])) ∧
    (c.site = none → (∀ raw, raw ∈ k.candidates ↔ raw ∈ seen) ∧ k.system.invalid = []) := by
  obtain ⟨r, rfl⟩ := Compilation.compile_iff.1 h
  have hready := compile_ready h
  have hc := hready.variants
  have hempty : r.compiler.system.invalid = [] := r.invalid_system
  have hstart : r.compiler.Remembers r.compiler [] :=
    { ascending := List.Pairwise.nil
      invalid_seen := fun raw hraw => by simp [hempty] at hraw
      seen_kept := fun raw hraw => absurd hraw List.not_mem_nil
      unplaced := fun _ => hempty }
  have htracks := hready.tracks.buildAll hc batches
  have hkept := hstart.buildAll hc hready.tracks batches
  rw [List.nil_append] at htracks hkept
  refine ⟨hkept.ascending, fun hsite raw => ⟨?_, ?_⟩, fun hsite => ⟨fun raw => ?_, ?_⟩⟩
  · constructor
    · intro hmem
      exact ⟨htracks.candidates_seen raw hmem, htracks.candidates_valid hsite raw hmem⟩
    · intro hmem
      exact htracks.seen_candidates raw hmem.1 hmem.2
  · constructor
    · intro hmem
      exact ⟨hkept.invalid_seen raw hmem, Classical.not_not.1 (htracks.invalid raw hmem)⟩
    · intro hmem
      refine (hkept.seen_kept raw hmem.1).resolve_left fun hcandidate => ?_
      exact htracks.candidates_valid hsite raw hcandidate hmem.2
  · constructor
    · exact htracks.candidates_seen raw
    · intro hmem
      refine (hkept.seen_kept raw hmem).resolve_right fun hinvalid => ?_
      simp [hkept.unplaced hsite] at hinvalid
  · exact hkept.unplaced hsite

private theorem generate_flex : ((DesignSystem.ofTheme {}).generate ["flex"]).rules ≠ [] := by
  rw [← List.length_pos_iff]
  decide +kernel

theorem generate_flux : ((DesignSystem.ofTheme {}).generate ["flux"]).rules = [] := by
  rw [← List.length_eq_zero_iff]
  decide +kernel

theorem candidates_exact_placed :
    ∃ c, (compile "@tailwind utilities;" { base := ⟨"/"⟩ }).result = .ok c ∧ c.site ≠ none ∧
      "flex" ∈ (c.buildAll [["flux", "flex"], ["flux"]]).candidates ∧
      "flux" ∉ (c.buildAll [["flux", "flex"], ["flux"]]).candidates ∧
      "flux" ∈ (c.buildAll [["flux", "flex"], ["flux"]]).system.invalid := by
  obtain ⟨c, hc, hsome, hsystem⟩ := compile_placeholder
  have hsite : c.site ≠ none := by simp [hsome]
  obtain ⟨-, hplaced, -⟩ := candidates_exact hc [["flux", "flex"], ["flux"]]
  rw [hsystem] at hplaced
  refine ⟨c, hc, hsite, ?_, ?_, ?_⟩
  · exact (hplaced hsite "flex").1.2 ⟨by simp, generate_flex⟩
  · exact fun hmem => ((hplaced hsite "flux").1.1 hmem).2 generate_flux
  · exact (hplaced hsite "flux").2.2 ⟨by simp, generate_flux⟩

/-- Without a place for the rules, a name that means nothing stays a candidate. -/
theorem compile_keeps_flux : ∃ c,
    (compile ".a \x7b color: red; \x7d" { base := ⟨"/"⟩ }).result = .ok c ∧
      (c.system.generate ["flux"]).rules = [] ∧
      (c.build ["flux"]).compiler.candidates = ["flux"] ∧
      (c.build ["flux"]).compiler.system.invalid = [] := by
  let nodes : List Node := [.rule ".a" [.decl "color" "red"]]
  have hexpand : ∀ t, expandAllCalls t (replaceDirective .utility [] nodes) = .ok nodes := by
    intro t
    cbv
  let run : Compilation ".a \x7b color: red; \x7d" { base := ⟨"/"⟩ } :=
    .plain nodes nodes nodes {} (by cbv) (by cbv) (by cbv) (by cbv) rfl rfl rfl (hexpand _)
  have hsystem : run.compiler.system = DesignSystem.ofTheme {} := Collected.system_of_none rfl
  have hsite : run.compiler.site = none := rfl
  have hfresh : run.compiler.fresh ["flux"] = ["flux"] := by
    rw [fresh, hsystem]
    rfl
  have hgathered : run.compiler.gathered ["flux"] = ["flux"] := by
    rw [gathered, hfresh]
    exact List.mergeSort_singleton _
  refine ⟨run.compiler, run.compile_eq, hsystem ▸ generate_flux, ?_⟩
  rw [build_without_site (by simp [hfresh]) hsite]
  exact ⟨hgathered, rfl⟩

end Compiler

end UtilityCss
