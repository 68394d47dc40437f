import UtilityCss.Proofs.ClassRules
import UtilityCss.Proofs.IncrementalBuild

/-!
Class names that mean nothing. A build reads a class name, and asks for its declarations and
variants, only if the name is not known to be invalid. A name that is refused is remembered, so no
later build looks at it again, whatever the utilities and variants would answer for it.
-/
namespace UtilityCss

namespace DesignSystem

/-- Systems that differ in their utilities and variants only, and not in what these answer for the
class names `asked`. -/
structure Alike (d d' : DesignSystem) (asked : String → Prop) : Prop where
  theme : d'.theme = d.theme
  important : d'.important = d.important
  parse : ∀ raw, asked raw → d'.parse raw = d.parse raw
  declarations : ∀ raw, asked raw → ∀ c ∈ d.parse raw, d'.declarations c = d.declarations c
  calls : ∀ raw, asked raw → ∀ c ∈ d.parse raw, d'.calls c = d.calls c
  applyVariants : ∀ raw, asked raw → ∀ c ∈ d.parse raw,
    d'.applyVariants c.variants = d.applyVariants c.variants
  compare : ∀ raw, asked raw → ∀ c ∈ d.parse raw, ∀ raw', asked raw' → ∀ c' ∈ d.parse raw',
    ∀ v ∈ c.variants, ∀ w ∈ c'.variants,
      d'.variants.compare d'.theme v w = d.variants.compare d.theme v w

variable {d d' : DesignSystem} {asked : String → Prop} {raws : List String}

theorem Alike.mono {fewer : String → Prop} (h : d.Alike d' asked)
    (hfewer : ∀ raw, fewer raw → asked raw) : d.Alike d' fewer where
  theme := h.theme
  important := h.important
  parse raw hraw := h.parse raw (hfewer raw hraw)
  declarations raw hraw := h.declarations raw (hfewer raw hraw)
  calls raw hraw := h.calls raw (hfewer raw hraw)
  applyVariants raw hraw := h.applyVariants raw (hfewer raw hraw)
  compare raw hraw c hc raw' hraw' :=
    h.compare raw (hfewer raw hraw) c hc raw' (hfewer raw' hraw')

def parsedNames (d : DesignSystem) (raws : List String) : List ParsedName :=
  raws.eraseDups.map fun raw => ⟨raw, d.readings raw⟩

def generated (d : DesignSystem) (names : List ParsedName)
    (outcomes : List (ParsedName × List GeneratedRule)) (events : List Event) : Generated :=
  let reported := (names.filter fun name => name.readings.isEmpty).map ParsedName.raw ++
    (outcomes.filter fun (_, rules) => rules.isEmpty).map fun (name, _) => name.raw
  { rules := (sortBy GeneratedRule.compare (outcomes.flatMap Prod.snd)).map GeneratedRule.node
    reported
    system := d.recalling (d.invalid ++ reported.filter fun raw => !d.isInvalid raw)
    events }

theorem generate_eq : d.generate raws =
    let readable := d.readableNames raws
    let ranked := d.rankedVariants (readable.flatMap ParsedName.readings)
    d.generated (d.parsedNames raws)
      (readable.map fun name => (name, d.generatedRules ranked name))
      (readable.flatMap fun name => name.readings.flatMap d.calls) := rfl

theorem mem_readableNames {name : ParsedName} (h : name ∈ d.readableNames raws) :
    (name.raw ∈ raws ∧ name.raw ∉ d.invalid) ∧ name.readings = d.parse name.raw := by
  obtain ⟨hname, hreadable⟩ := List.mem_filter.1 h
  obtain ⟨raw, hraw, rfl⟩ := List.mem_map.1 hname
  simp only [readings] at hreadable ⊢
  split at hreadable
  · simp at hreadable
  next hknown =>
    rw [if_neg hknown]
    simp only [isInvalid, List.contains_iff_mem] at hknown
    exact ⟨⟨List.mem_eraseDups.1 hraw, hknown⟩, rfl⟩

section Generate

variable (h : d.Alike d' fun raw => raw ∈ raws ∧ raw ∉ d.invalid)

include h

theorem Alike.parsedNames (hinvalid : d'.invalid = d.invalid) :
    d'.parsedNames raws = d.parsedNames raws := by
  apply List.map_congr_left
  intro raw hraw
  have hreadings : d'.readings raw = d.readings raw := by
    unfold readings isInvalid
    rw [hinvalid]
    split
    · rfl
    next hknown =>
      simp only [List.contains_iff_mem] at hknown
      exact h.parse raw ⟨List.mem_eraseDups.1 hraw, hknown⟩
  rw [hreadings]

theorem Alike.rankedVariants :
    d'.rankedVariants ((d.readableNames raws).flatMap ParsedName.readings) =
      d.rankedVariants ((d.readableNames raws).flatMap ParsedName.readings) := by
  apply sortBy_congr
  intro v hv w hw
  obtain ⟨c, hc, hv⟩ := List.mem_flatMap.1 (List.mem_eraseDups.1 hv)
  obtain ⟨c', hc', hw⟩ := List.mem_flatMap.1 (List.mem_eraseDups.1 hw)
  obtain ⟨name, hname, hc⟩ := List.mem_flatMap.1 hc
  obtain ⟨name', hname', hc'⟩ := List.mem_flatMap.1 hc'
  obtain ⟨hasked, hreadings⟩ := mem_readableNames hname
  obtain ⟨hasked', hreadings'⟩ := mem_readableNames hname'
  rw [hreadings] at hc
  rw [hreadings'] at hc'
  rw [h.compare _ hasked c hc _ hasked' c' hc' v hv w hw]

theorem Alike.generatedRules {name : ParsedName} (hname : name ∈ d.readableNames raws)
    (ranked : List Variant) : d'.generatedRules ranked name = d.generatedRules ranked name := by
  obtain ⟨hasked, hreadings⟩ := mem_readableNames hname
  unfold DesignSystem.generatedRules
  apply List.flatMap_congr
  intro c hc
  rw [hreadings] at hc
  simp only [rulesOf, h.declarations _ hasked c hc, h.applyVariants _ hasked c hc, h.important]

theorem Alike.allCalls :
    ((d.readableNames raws).flatMap fun name => name.readings.flatMap d'.calls) =
      (d.readableNames raws).flatMap fun name => name.readings.flatMap d.calls := by
  apply List.flatMap_congr
  intro name hname
  obtain ⟨hasked, hreadings⟩ := mem_readableNames hname
  apply List.flatMap_congr
  intro c hc
  exact h.calls _ hasked c (hreadings ▸ hc)

theorem Alike.generate (hinvalid : d'.invalid = d.invalid) :
    d'.generate raws =
      { d.generate raws with system := d'.recalling (d.generate raws).system.invalid } := by
  have hreadable : d'.readableNames raws = d.readableNames raws :=
    congrArg (List.filter fun name : ParsedName => !name.readings.isEmpty) (h.parsedNames hinvalid)
  have houtcomes : ∀ ranked, ((d.readableNames raws).map fun name =>
      (name, d'.generatedRules ranked name)) =
        (d.readableNames raws).map fun name => (name, d.generatedRules ranked name) := by
    intro ranked
    apply List.map_congr_left
    intro name hname
    rw [h.generatedRules hname]
  rw [generate_eq, generate_eq]
  dsimp only
  rw [hreadable, h.parsedNames hinvalid, h.rankedVariants, houtcomes, h.allCalls]
  simp only [generated, recalling, isInvalid, hinvalid]

end Generate

theorem mem_invalid_generate {raw : String} : raw ∈ (d.generate raws).system.invalid ↔
    raw ∈ d.invalid ∨ (raw ∈ raws ∧ raw ∉ d.invalid) ∧ d.ownRules raw = [] := by
  have hinvalid : (d.generate raws).system.invalid =
      d.invalid ++ (d.generate raws).reported.filter fun raw => !d.isInvalid raw := rfl
  rw [hinvalid, List.mem_append, List.mem_filter, mem_reported]
  simp only [isInvalid, List.contains_eq_mem, Bool.not_eq_true', decide_eq_false_iff_not]
  tauto

theorem exists_of_mem_events {e : Event} (h : e ∈ (d.generate raws).events) :
    ∃ raw, (raw ∈ raws ∧ raw ∉ d.invalid) ∧ ∃ c ∈ d.parse raw, e ∈ d.calls c := by
  obtain ⟨name, hname, he⟩ := List.mem_flatMap.1 h
  obtain ⟨c, hc, he⟩ := List.mem_flatMap.1 he
  obtain ⟨hasked, hreadings⟩ := mem_readableNames hname
  exact ⟨name.raw, hasked, c, hreadings ▸ hc, he⟩

def Refuses (d : DesignSystem) (raw : String) : Prop :=
  (d.recalling []).ownRules raw = []

theorem refuses_iff {raw : String} (h : raw ∉ d.invalid) : d.Refuses raw ↔ d.ownRules raw = [] := by
  unfold Refuses
  rw [ownRules_recalling List.not_mem_nil h]

end DesignSystem

namespace Compiler

variable {k : Compiler} {batch : List String} {batches : List (List String)} {raw : String}

/-- The class names that a build reads and asks about. -/
def attempted (k : Compiler) (batch : List String) : List String :=
  if (k.fresh batch).isEmpty || k.site.isNone then []
  else (k.gathered batch).filter fun raw => !k.system.isInvalid raw

def attempts (k : Compiler) : List (List String) → List (List String)
  | [] => []
  | batch :: batches => k.attempted batch :: (k.build batch).compiler.attempts batches

theorem not_mem_invalid_of_attempted (h : raw ∈ k.attempted batch) : raw ∉ k.system.invalid := by
  unfold attempted at h
  split at h
  · simp at h
  · simpa [DesignSystem.isInvalid] using (List.mem_filter.1 h).2

theorem build_cases (k : Compiler) (batch : List String) :
    (k.attempted batch = [] ∧ (k.build batch).compiler.system = k.system ∧
        (k.build batch).events = []) ∨
      ((∀ raw, raw ∈ k.attempted batch ↔ raw ∈ k.gathered batch ∧ raw ∉ k.system.invalid) ∧
        (k.build batch).compiler.system = (k.system.generate (k.gathered batch)).system ∧
        (k.build batch).events = (k.system.generate (k.gathered batch)).events) := by
  by_cases hfresh : k.fresh batch = []
  · left
    rw [build_of_nothing hfresh]
    exact ⟨by simp [attempted, hfresh], rfl, rfl⟩
  cases hsite : k.site with
  | none =>
    left
    rw [build_without_site hfresh hsite]
    exact ⟨by simp [attempted, hsite], rfl, rfl⟩
  | some address =>
    right
    refine ⟨fun raw => ?_, ?_⟩
    · simp [attempted, hfresh, hsite, DesignSystem.isInvalid]
    · rw [build_with_site hfresh hsite]
      dsimp only
      split <;> exact ⟨rfl, rfl⟩

private theorem system_build (k : Compiler) (batch : List String) :
    (k.build batch).compiler.system =
    k.system.recalling (k.build batch).compiler.system.invalid := by
  obtain ⟨-, hsystem, -⟩ | ⟨-, hsystem, -⟩ := k.build_cases batch
  · rw [hsystem]
    rfl
  · rw [hsystem]
    rfl

theorem mem_invalid_build : raw ∈ (k.build batch).compiler.system.invalid ↔
    raw ∈ k.system.invalid ∨ raw ∈ k.attempted batch ∧ k.system.Refuses raw := by
  obtain ⟨hnone, hsystem, -⟩ | ⟨hattempted, hsystem, -⟩ := k.build_cases batch
  · simp [hnone, hsystem]
  · rw [hsystem, DesignSystem.mem_invalid_generate, hattempted]
    apply or_congr_right
    apply and_congr_right
    intro h
    exact (DesignSystem.refuses_iff h.2).symm

theorem invalid_subset_build (k : Compiler) (batch : List String) :
    k.system.invalid ⊆ (k.build batch).compiler.system.invalid :=
  fun _ h => mem_invalid_build.2 (.inl h)

theorem refuses_build : (k.build batch).compiler.system.Refuses raw ↔ k.system.Refuses raw := by
  rw [system_build]
  rfl

theorem invalid_subset_buildAll (k : Compiler) (batches : List (List String)) :
    k.system.invalid ⊆ (k.buildAll batches).system.invalid := by
  induction batches generalizing k with
  | nil => exact List.Subset.refl _
  | cons batch batches ih => exact List.Subset.trans (k.invalid_subset_build batch) (ih _)

theorem refuses_of_mem_invalid (h : raw ∈ (k.buildAll batches).system.invalid) :
    raw ∈ k.system.invalid ∨ k.system.Refuses raw := by
  induction batches generalizing k with
  | nil => exact .inl h
  | cons batch batches ih =>
    obtain hinvalid | hrefuses := ih h
    · obtain hinvalid | ⟨-, hrefuses⟩ := mem_invalid_build.1 hinvalid
      · exact .inl hinvalid
      · exact .inr hrefuses
    · exact .inr (refuses_build.1 hrefuses)

theorem count_attempts_of_mem (h : raw ∈ k.system.invalid) :
    (k.attempts batches).countP (·.contains raw) = 0 := by
  induction batches generalizing k with
  | nil => rfl
  | cons batch batches ih =>
    have hnot : raw ∉ k.attempted batch := fun hmem => not_mem_invalid_of_attempted hmem h
    rw [attempts, List.countP_cons, ih (k.invalid_subset_build batch h)]
    simp [hnot]

/-- The first time that a class name is refused is the last time that it is asked about. -/
theorem count_attempts_le_one (h : k.system.Refuses raw) :
    (k.attempts batches).countP (·.contains raw) ≤ 1 := by
  induction batches generalizing k with
  | nil => simp [attempts]
  | cons batch batches ih =>
    rw [attempts, List.countP_cons]
    by_cases hmem : raw ∈ k.attempted batch
    · rw [count_attempts_of_mem (mem_invalid_build.2 (.inr ⟨hmem, h⟩))]
      simp [hmem]
    · have hnext : (k.build batch).compiler.system.Refuses raw := refuses_build.2 h
      simpa [hmem] using ih hnext

/-- A build asks for nothing but the answers for the class names that it attempts. -/
theorem build_alike {d' : DesignSystem} (hinvalid : d'.invalid = k.system.invalid)
    (h : k.system.Alike d' (· ∈ k.attempted batch)) :
    ({ k with system := d' } : Compiler).build batch =
      { k.build batch with
        compiler := { (k.build batch).compiler with
          system := d'.recalling (k.build batch).compiler.system.invalid } } := by
  let k' : Compiler := { k with system := d' }
  have hfresh' : k'.fresh batch = k.fresh batch := by
    simp only [fresh, k', DesignSystem.isInvalid, hinvalid]
  have hgathered : k'.gathered batch = k.gathered batch := by
    unfold gathered
    rw [hfresh']
  have hsame : d' = d'.recalling k.system.invalid := by rw [← hinvalid]; rfl
  change k'.build batch = _
  by_cases hfresh : k.fresh batch = []
  · rw [build_of_nothing hfresh, build_of_nothing (hfresh'.trans hfresh)]
    simp only [k']
    rw [← hsame]
  cases hsite : k.site with
  | none =>
    rw [build_without_site hfresh hsite, build_without_site (k := k') (by rwa [hfresh']) hsite,
      hgathered]
    simp only [k']
    rw [← hsame]
  | some address =>
    have hasked : k.system.Alike d' fun raw => raw ∈ k.gathered batch ∧ raw ∉ k.system.invalid := by
      apply h.mono
      intro raw hraw
      simpa [attempted, hfresh, hsite, DesignSystem.isInvalid] using hraw
    have hgenerate := hasked.generate hinvalid
    rw [build_with_site hfresh hsite, build_with_site (k := k') (by rwa [hfresh']) hsite, hgathered]
    simp only [k', hgenerate]
    split <;> rfl

/-- The memory of invalid class names never shrinks, and a name that ends up in it is attempted in
at most one build. A build depends on the utilities and variants only through their answers for the
names that it attempts: with other answers for the other names it comes to the same, and so does
generating rules with other answers for the names that are known to be invalid. -/
theorem invalid_attempted_once (k : Compiler) (batches : List (List String)) :
    k.system.invalid ⊆ (k.buildAll batches).system.invalid ∧
    (∀ raw ∈ (k.buildAll batches).system.invalid,
      (k.attempts batches).countP (·.contains raw) ≤ 1) ∧
    (∀ batch, ∀ e ∈ (k.build batch).events,
      ∃ raw ∈ k.attempted batch, ∃ c ∈ k.system.parse raw, e ∈ k.system.calls c) ∧
    (∀ batch d', d'.invalid = k.system.invalid → k.system.Alike d' (· ∈ k.attempted batch) →
      ({ k with system := d' } : Compiler).build batch =
        { k.build batch with
          compiler := { (k.build batch).compiler with
            system := d'.recalling (k.build batch).compiler.system.invalid } }) ∧
    (∀ d d' : DesignSystem, d'.invalid = d.invalid → d.Alike d' (· ∉ d.invalid) → ∀ raws,
      (d'.generate raws).rules = (d.generate raws).rules ∧
        (d'.generate raws).reported = (d.generate raws).reported ∧
        (d'.generate raws).system.invalid = (d.generate raws).system.invalid) := by
  refine ⟨k.invalid_subset_buildAll batches, ?_, ?_, ?_, ?_⟩
  · intro raw hraw
    obtain hknown | hrefuses := refuses_of_mem_invalid hraw
    · rw [count_attempts_of_mem hknown]
      exact Nat.zero_le 1
    · exact count_attempts_le_one hrefuses
  · intro batch e he
    obtain ⟨-, -, hevents⟩ | ⟨hattempted, -, hevents⟩ := k.build_cases batch
    · simp [hevents] at he
    · rw [hevents] at he
      obtain ⟨raw, hraw, hcalls⟩ := DesignSystem.exists_of_mem_events he
      exact ⟨raw, (hattempted raw).2 hraw, hcalls⟩
  · intro batch d' hinvalid h
    exact build_alike hinvalid h
  · intro d d' hinvalid h raws
    have hasked : d.Alike d' fun raw => raw ∈ raws ∧ raw ∉ d.invalid := h.mono fun _ hraw => hraw.2
    rw [hasked.generate hinvalid]
    exact ⟨rfl, rfl, rfl⟩

def fluxUtility (answer : Option (List Node)) : Utility :=
  { kind := .static, resolve := fun c _ => if c.raw = "flux" then answer else none }

def fluxSystem (answer : Option (List Node)) (invalid : List String) : DesignSystem :=
  { theme := {}, utilities := ⟨[("flux", fluxUtility answer)]⟩, variants := {}, invalid }

def fluxCompiler : Compiler :=
  { tree := [placeholder utilitiesKey], system := fluxSystem none [], globs := [], site := some [0]
    css := "" }

theorem eq_fluxUtility {answer : Option (List Node)} {invalid : List String} {root : String}
    {kind : UtilityKind} {u : Utility}
    (h : u ∈ (fluxSystem answer invalid).utilities.ofKind root kind) : u = fluxUtility answer := by
  have hentry : (root, u) = ("flux", fluxUtility answer) :=
    List.mem_singleton.1 (DesignSystem.mem_ofKind h)
  exact congrArg Prod.snd hentry

theorem declarations_fluxSystem {answer : Option (List Node)} {invalid : List String}
    {c : Candidate} (h : c.raw ≠ "flux") : (fluxSystem answer invalid).declarations c =
      match c.kind with
      | .arbitrary property value modifier =>
        ((asColor value modifier {}).map fun value => [Node.decl property value]).toList
      | _ => [] := by
  have hnone : ∀ root kind, ((fluxSystem answer invalid).utilities.ofKind root kind).filterMap
      (fun u => u.resolve c (fluxSystem answer invalid).theme) = [] := by
    intro root kind
    apply List.filterMap_eq_nil_iff.2
    intro u hu
    rw [eq_fluxUtility hu]
    simp [fluxUtility, h]
  unfold DesignSystem.declarations
  cases c.kind with
  | arbitrary => rfl
  | static root => exact hnone root .static
  | functional root => exact hnone root .functional

theorem calls_fluxSystem (answer : Option (List Node)) (invalid : List String) (c : Candidate) :
    (fluxSystem answer invalid).calls c = [] := by
  have hnone : ∀ root kind, ((fluxSystem answer invalid).utilities.ofKind root kind).flatMap
      (fun u => u.calls c) = [] := by
    intro root kind
    apply List.flatMap_eq_nil_iff.2
    intro u hu
    rw [eq_fluxUtility hu]
    rfl
  unfold DesignSystem.calls
  cases c.kind with
  | arbitrary => rfl
  | static root => exact hnone root .static
  | functional root => exact hnone root .functional

private theorem fluxSystem_alike (answer answer' : Option (List Node)) :
    (fluxSystem answer ["flux"]).Alike (fluxSystem answer' ["flux"])
      (· ∉ (fluxSystem answer ["flux"]).invalid) where
  theme := rfl
  important := rfl
  parse raw _ := by
    have hhas : (fluxSystem answer' ["flux"]).utilities.has =
        (fluxSystem answer ["flux"]).utilities.has := rfl
    simp only [DesignSystem.parse, Candidate.parse, Candidate.parseBase, Candidate.parseFunctional,
      hhas]
    rfl
  declarations raw hraw c hc := by
    have hname : c.raw ≠ "flux" := by
      rw [DesignSystem.raw_of_mem_parse hc]
      simpa [fluxSystem] using hraw
    rw [declarations_fluxSystem hname, declarations_fluxSystem hname]
  calls _ _ c _ := by rw [calls_fluxSystem, calls_fluxSystem]
  applyVariants _ _ _ _ := rfl
  compare _ _ _ _ _ _ _ _ _ _ _ _ := rfl

theorem invalid_attempted_once_flux :
    "flux" ∈ (fluxCompiler.buildAll [["flux"], ["flax", "flux"]]).system.invalid ∧
      (fluxCompiler.attempts [["flux"], ["flax", "flux"]]).countP (·.contains "flux") ≤ 1 ∧
      (fluxSystem (some []) []).IsValid "flux" ∧
      ((fluxSystem (some []) ["flux"]).generate ["flux"]).rules =
        ((fluxSystem none ["flux"]).generate ["flux"]).rules := by
  obtain ⟨-, hcount, -, -, hsystems⟩ :=
    invalid_attempted_once fluxCompiler [["flux"], ["flax", "flux"]]
  have hinvalid : (fluxCompiler.buildAll [["flux"], ["flax", "flux"]]).system.invalid =
      ["flux", "flax"] := by cbv
  have hmem : "flux" ∈ (fluxCompiler.buildAll [["flux"], ["flax", "flux"]]).system.invalid := by
    rw [hinvalid]
    exact List.mem_cons_self
  have hvalid : ((fluxSystem (some []) []).generate ["flux"]).rules = [.rule ".flux" []] := by cbv
  have hsame := hsystems (fluxSystem none ["flux"]) (fluxSystem (some []) ["flux"]) rfl
    (fluxSystem_alike none (some [])) ["flux"]
  refine ⟨hmem, hcount "flux" hmem, ?_, hsame.1⟩
  simp [DesignSystem.IsValid, hvalid]

end Compiler

end UtilityCss
