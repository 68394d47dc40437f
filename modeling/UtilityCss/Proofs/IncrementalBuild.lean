import UtilityCss.Proofs.CompiledTree

/-!
Building class names batch by batch. A build prints anew only if a batch holds a new class name that
means something, and what has been printed last always depends on all class names seen so far and on
nothing else.
-/
namespace UtilityCss

namespace DesignSystem

variable {d : DesignSystem}

/-- A class name that has rules. -/
def IsValid (d : DesignSystem) (raw : String) : Prop :=
  (d.generate [raw]).rules ≠ []

theorem isValid_iff {raw : String} : d.IsValid raw ↔ d.ownRules raw ≠ [] := by
  have hlength : (d.generate [raw]).rules.length = (d.ownRules raw).length := by
    rw [generate_rules, placedRules_eq]
    simp [(sortBy_perm _ _).length_eq, List.eraseDups_cons]
  rw [IsValid, ne_eq, ne_eq, ← List.length_eq_zero_iff, hlength, List.length_eq_zero_iff]

private theorem isValid_of_mem_placedRules {raws : List String} {r : GeneratedRule}
    (h : r ∈ d.placedRules raws) : d.IsValid r.raw := by
  have hmem := (sortBy_perm _ _).mem_iff.1 h
  obtain ⟨own, hown, rfl⟩ := List.mem_map.1 hmem
  obtain ⟨raw, _, hown⟩ := List.mem_flatMap.1 hown
  have hraw := raw_of_mem_ownRules hown
  rw [isValid_iff]
  intro hnil
  rw [← hraw] at hown
  rw [show (own.ranked (d.variantsOf raws)).raw = own.raw from rfl] at hnil
  simp [hnil] at hown

private theorem exists_mem_placedRules {raws : List String} {raw : String} (hraw : raw ∈ raws)
    (h : d.IsValid raw) : ∃ r ∈ d.placedRules raws, r.raw = raw := by
  obtain ⟨own, hown⟩ := List.exists_mem_of_ne_nil _ (isValid_iff.1 h)
  refine ⟨own.ranked (d.variantsOf raws), ?_, raw_of_mem_ownRules hown⟩
  refine (sortBy_perm _ _).mem_iff.2 (List.mem_map_of_mem ?_)
  exact List.mem_flatMap.2 ⟨raw, List.mem_eraseDups.2 hraw, hown⟩

theorem generate_eq_of_valid (hd : d.variants.Extended) {raws raws' : List String}
    (h : ∀ raw, d.IsValid raw → (raw ∈ raws ↔ raw ∈ raws')) :
    (d.generate raws).rules = (d.generate raws').rules := by
  -- both are the rules of the names in both lists
  let both := raws.filter fun raw => raws'.contains raw
  have hrestrict : ∀ names : List String, both ⊆ names →
      (∀ raw ∈ names, d.IsValid raw → raw ∈ both) →
      (d.generate names).rules = (d.generate both).rules := by
    intro names hsub hvalid
    have hfilter := filter_placedRules hd hsub
    rw [List.filter_eq_self.2, ← generate_rules, ← generate_rules] at hfilter
    · exact hfilter
    · intro r hr
      refine List.contains_iff_mem.2 (hvalid _ (exists_reading_of_mem_placedRules hr).1 ?_)
      exact isValid_of_mem_placedRules hr
  have hboth : ∀ {raw}, raw ∈ both ↔ raw ∈ raws ∧ raw ∈ raws' := by
    intro raw
    simp [both]
  rw [hrestrict raws, hrestrict raws']
  · exact fun raw hraw => (hboth.1 hraw).2
  · exact fun raw hraw hvalid => hboth.2 ⟨(h raw hvalid).2 hraw, hraw⟩
  · exact fun raw hraw => (hboth.1 hraw).1
  · exact fun raw hraw hvalid => hboth.2 ⟨hraw, (h raw hvalid).1 hraw⟩

/-- The number of rules tells whether there is a new name that means something. -/
theorem length_generate_eq_iff (hd : d.variants.Extended) {fewer all : List String}
    (h : fewer ⊆ all) :
    (d.generate all).rules.length = (d.generate fewer).rules.length ↔
      ∀ raw ∈ all, d.IsValid raw → raw ∈ fewer := by
  constructor
  · intro hlength raw hraw hvalid
    obtain ⟨r, hr, rfl⟩ := exists_mem_placedRules hraw hvalid
    have hfilter := filter_placedRules hd h
    rw [generate_rules, generate_rules, ← hfilter, List.length_map, List.length_map] at hlength
    have hall := List.length_filter_eq_length_iff.1 hlength.symm
    exact List.contains_iff_mem.1 (hall r hr)
  · intro hvalid
    rw [generate_eq_of_valid hd fun raw hraw =>
      ⟨fun hmem => hvalid raw hmem hraw, fun hmem => h hmem⟩]

def recalling (d : DesignSystem) (invalid : List String) : DesignSystem :=
  { d with invalid }

theorem readings_recalling {invalid : List String} {raw : String} (h : raw ∉ invalid)
    (hd : raw ∉ d.invalid) : (d.recalling invalid).readings raw = d.readings raw := by
  have hleft : (d.recalling invalid).isInvalid raw = false := by
    simpa [isInvalid, recalling] using h
  have hright : d.isInvalid raw = false := by
    simpa [isInvalid] using hd
  simp only [readings, hleft, hright]
  rfl

theorem ownRules_recalling {invalid : List String} {raw : String} (h : raw ∉ invalid)
    (hd : raw ∉ d.invalid) : (d.recalling invalid).ownRules raw = d.ownRules raw := by
  unfold ownRules
  rw [readings_recalling h hd]
  rfl

theorem generate_recalling {invalid raws : List String} (h : ∀ raw ∈ raws, raw ∉ invalid)
    (hd : ∀ raw ∈ raws, raw ∉ d.invalid) :
    ((d.recalling invalid).generate raws).rules = (d.generate raws).rules := by
  have hown : raws.eraseDups.map (d.recalling invalid).ownRules =
      raws.eraseDups.map d.ownRules := by
    refine List.map_congr_left fun raw hraw => ?_
    have hraw := List.mem_eraseDups.1 hraw
    exact ownRules_recalling (h raw hraw) (hd raw hraw)
  have hreadings : raws.eraseDups.map (d.recalling invalid).readings =
      raws.eraseDups.map d.readings := by
    refine List.map_congr_left fun raw hraw => ?_
    have hraw := List.mem_eraseDups.1 hraw
    exact readings_recalling (h raw hraw) (hd raw hraw)
  rw [generate_rules, generate_rules]
  unfold placedRules variantsOf
  simp only [List.flatMap_def, hown, hreadings]
  rfl

theorem IsValid.not_mem_invalid {raw : String} (h : d.IsValid raw) : raw ∉ d.invalid := by
  intro hmem
  have hinvalid : d.isInvalid raw = true := List.contains_iff_mem.2 hmem
  exact isValid_iff.1 h (by simp [ownRules, readings, hinvalid])

end DesignSystem

namespace Compiler

/-- The compiled tree with the rules of some class names in their place. -/
def placed (c : Compiler) (raws : List String) : List Node :=
  match c.site with
  | none => c.tree
  | some address => address.modify (Node.withChildren (c.system.generate raws).rules) c.tree

/-- How the compiler `k` that has seen some class names stands to the compiler `c` it came from. -/
structure Tracks (c k : Compiler) (seen : List String) : Prop where
  site : k.site = c.site
  system : k.system = c.system.recalling k.system.invalid
  known : ∀ raw ∈ c.system.invalid, raw ∈ k.system.invalid
  invalid : ∀ raw ∈ k.system.invalid, ¬c.system.IsValid raw
  candidates_seen : ∀ raw ∈ k.candidates, raw ∈ seen
  seen_candidates : ∀ raw ∈ seen, c.system.IsValid raw → raw ∈ k.candidates
  tree : k.tree = c.placed seen
  css : k.css = toCss (c.placed seen)
  -- without a place for the rules, class names are never looked at
  candidates_valid : c.site ≠ none → ∀ raw ∈ k.candidates, c.system.IsValid raw
  ruleCount : c.site ≠ none → k.ruleCount = (c.system.generate seen).rules.length

def buildAll (c : Compiler) (batches : List (List String)) : Compiler :=
  batches.foldl (fun c batch => (c.build batch).compiler) c

variable {c k : Compiler} {seen batch : List String}

theorem placed_congr (hc : c.system.variants.Extended) {raws raws' : List String}
    (h : ∀ raw, c.system.IsValid raw → (raw ∈ raws ↔ raw ∈ raws')) :
    c.placed raws = c.placed raws' := by
  unfold placed
  rw [DesignSystem.generate_eq_of_valid hc h]

def fresh (k : Compiler) (batch : List String) : List String :=
  (batch.filter fun raw => !k.system.isInvalid raw && !k.candidates.contains raw).eraseDups

theorem mem_fresh {raw : String} :
    raw ∈ k.fresh batch ↔ raw ∈ batch ∧ raw ∉ k.system.invalid ∧ raw ∉ k.candidates := by
  simp [fresh, DesignSystem.isInvalid]

theorem build_of_nothing (h : k.fresh batch = []) : k.build batch = ⟨k, true, []⟩ := by
  unfold build
  rw [if_pos]
  exact List.isEmpty_iff.2 h

namespace Tracks

theorem mem_candidates (h : c.Tracks k seen) {raw : String} (hvalid : c.system.IsValid raw) :
    raw ∈ k.candidates ∨ raw ∈ k.fresh batch ↔ raw ∈ seen ++ batch := by
  rw [List.mem_append, mem_fresh]
  have hinvalid : raw ∉ k.system.invalid := fun hmem => h.invalid raw hmem hvalid
  constructor
  · rintro (hmem | hmem)
    · exact .inl (h.candidates_seen raw hmem)
    · exact .inr hmem.1
  · rintro (hmem | hmem)
    · exact .inl (h.seen_candidates raw hmem hvalid)
    · by_cases hcandidate : raw ∈ k.candidates
      · exact .inl hcandidate
      · exact .inr ⟨hmem, hinvalid, hcandidate⟩

theorem extend (hc : c.system.variants.Extended) (h : c.Tracks k seen)
    (hbatch : ∀ raw ∈ batch, c.system.IsValid raw → raw ∈ seen) : c.Tracks k (seen ++ batch) := by
  have hsame : ∀ raw, c.system.IsValid raw → (raw ∈ seen ++ batch ↔ raw ∈ seen) := by
    intro raw hvalid
    rw [List.mem_append]
    exact ⟨fun hmem => hmem.elim id fun hmem => hbatch raw hmem hvalid, .inl⟩
  exact
    { site := h.site
      system := h.system
      known := h.known
      invalid := h.invalid
      candidates_seen := fun raw hraw => List.mem_append_left _ (h.candidates_seen raw hraw)
      seen_candidates := fun raw hraw hvalid =>
        h.seen_candidates raw ((hsame raw hvalid).1 hraw) hvalid
      tree := by rw [placed_congr hc hsame, h.tree]
      css := by rw [placed_congr hc hsame, h.css]
      candidates_valid := h.candidates_valid
      ruleCount := fun hsite => by
        rw [DesignSystem.generate_eq_of_valid hc hsame, h.ruleCount hsite] }

theorem build_nothing (hc : c.system.variants.Extended) (h : c.Tracks k seen)
    (hfresh : k.fresh batch = []) :
    c.Tracks (k.build batch).compiler (seen ++ batch) ∧
      ((k.build batch).cached = true ↔
        c.site = none ∨ ∀ raw ∈ batch, c.system.IsValid raw → raw ∈ seen) := by
  have hbatch : ∀ raw ∈ batch, c.system.IsValid raw → raw ∈ seen := by
    intro raw hraw hvalid
    have hmem := (h.mem_candidates hvalid).2 (List.mem_append_right seen hraw)
    rw [hfresh] at hmem
    exact h.candidates_seen raw (hmem.resolve_right (by simp))
  rw [build_of_nothing hfresh]
  exact ⟨h.extend hc hbatch, iff_of_true rfl (.inr hbatch)⟩

end Tracks

def gathered (k : Compiler) (batch : List String) : List String :=
  (k.candidates ++ k.fresh batch).mergeSort fun a b => (compare a b).isLE

theorem mem_gathered {raw : String} :
    raw ∈ k.gathered batch ↔ raw ∈ k.candidates ∨ raw ∈ k.fresh batch := by
  simp [gathered]

theorem build_without_site (hfresh : k.fresh batch ≠ []) (hsite : k.site = none) :
    k.build batch = ⟨{ k with candidates := k.gathered batch }, true, []⟩ := by
  unfold build
  rw [if_neg]
  · simp only [hsite]
    rfl
  · simpa [fresh] using hfresh

theorem build_with_site (hfresh : k.fresh batch ≠ []) {address : Address}
    (hsite : k.site = some address) :
    k.build batch =
      let g := k.system.generate (k.gathered batch)
      let k' := { k with
        system := g.system
        candidates := (k.gathered batch).filter fun raw => !g.reported.contains raw }
      if g.rules.length = k.ruleCount then ⟨k', true, g.events⟩
      else
        let tree := address.modify (Node.withChildren g.rules) k.tree
        ⟨{ k' with tree, css := toCss tree, ruleCount := g.rules.length }, false, g.events⟩ := by
  unfold build
  rw [if_neg]
  · simp only [hsite]
    rfl
  · simpa [fresh] using hfresh

namespace Tracks

theorem placed_of_none (hsite : c.site = none) (raws : List String) : c.placed raws = c.tree := by
  simp [placed, hsite]

theorem placed_of_some {address : Address} (hsite : c.site = some address) (raws : List String) :
    c.placed raws = address.modify (Node.withChildren (c.system.generate raws).rules) c.tree := by
  simp [placed, hsite]

theorem build_unplaced (h : c.Tracks k seen) (hfresh : k.fresh batch ≠ []) (hsite : c.site = none) :
    c.Tracks (k.build batch).compiler (seen ++ batch) ∧ (k.build batch).cached = true := by
  rw [build_without_site hfresh (h.site.trans hsite)]
  refine ⟨?_, rfl⟩
  exact
    { site := h.site
      system := h.system
      known := h.known
      invalid := h.invalid
      candidates_seen := fun raw hraw => by
        rcases mem_gathered.1 hraw with hmem | hmem
        · exact List.mem_append_left _ (h.candidates_seen raw hmem)
        · exact List.mem_append_right _ (mem_fresh.1 hmem).1
      seen_candidates := fun raw hraw hvalid => mem_gathered.2 ((h.mem_candidates hvalid).2 hraw)
      tree := by rw [h.tree, placed_of_none hsite, placed_of_none hsite]
      css := by rw [h.css, placed_of_none hsite, placed_of_none hsite]
      candidates_valid := fun hsome => absurd hsite hsome
      ruleCount := fun hsome => absurd hsite hsome }

section Placed

variable {address : Address} (h : c.Tracks k seen) (hsite : c.site = some address)

include h hsite

theorem not_mem_invalid {raw : String} (hraw : raw ∈ k.gathered batch) :
    raw ∉ k.system.invalid := by
  rcases mem_gathered.1 hraw with hmem | hmem
  · intro hinvalid
    exact h.invalid raw hinvalid (h.candidates_valid (by simp [hsite]) raw hmem)
  · exact (mem_fresh.1 hmem).2.1

theorem not_mem_known {raw : String} (hraw : raw ∈ k.gathered batch) : raw ∉ c.system.invalid :=
  fun hknown => h.not_mem_invalid hsite hraw (h.known raw hknown)

theorem generate_gathered (hc : c.system.variants.Extended) (batch : List String) :
    (k.system.generate (k.gathered batch)).rules = (c.system.generate (seen ++ batch)).rules := by
  rw [h.system, DesignSystem.generate_recalling]
  · refine DesignSystem.generate_eq_of_valid hc fun raw hvalid => ?_
    rw [mem_gathered, h.mem_candidates hvalid]
  · exact fun raw hraw => h.not_mem_invalid hsite hraw
  · exact fun raw hraw => h.not_mem_known hsite hraw

theorem mem_reported_gathered (batch : List String) (raw : String) :
    raw ∈ (k.system.generate (k.gathered batch)).reported ↔
      raw ∈ k.gathered batch ∧ ¬c.system.IsValid raw := by
  rw [DesignSystem.mem_reported]
  refine and_congr_right fun hraw => ?_
  have hown := DesignSystem.ownRules_recalling (h.not_mem_invalid hsite hraw)
    (h.not_mem_known hsite hraw)
  rw [← h.system] at hown
  rw [DesignSystem.isValid_iff, hown]
  exact Classical.not_not.symm

theorem gather {k' : Compiler} (hk : k'.site = k.site)
    (hsystem : k'.system = (k.system.generate (k.gathered batch)).system)
    (hcandidates : k'.candidates = (k.gathered batch).filter fun raw =>
      !(k.system.generate (k.gathered batch)).reported.contains raw)
    (htree : k'.tree = c.placed (seen ++ batch)) (hcss : k'.css = toCss (c.placed (seen ++ batch)))
    (hcount : k'.ruleCount = (c.system.generate (seen ++ batch)).rules.length) :
    c.Tracks k' (seen ++ batch) := by
  have hcandidate : ∀ {raw}, raw ∈ k'.candidates ↔ raw ∈ k.gathered batch ∧
      c.system.IsValid raw := by
    intro raw
    rw [hcandidates, List.mem_filter]
    refine and_congr_right fun hraw => ?_
    have hreported := h.mem_reported_gathered hsite batch raw
    by_cases hvalid : c.system.IsValid raw <;> simp_all
  have hinvalid : ∀ {raw}, raw ∈ k'.system.invalid ↔ raw ∈ k.system.invalid ∨
      raw ∈ k.gathered batch ∧ ¬c.system.IsValid raw ∧ raw ∉ k.system.invalid := by
    intro raw
    have hmemory : k'.system.invalid = k.system.invalid ++
        (k.system.generate (k.gathered batch)).reported.filter fun raw =>
          !k.system.isInvalid raw := by
      rw [hsystem]
      rfl
    rw [hmemory, List.mem_append, List.mem_filter, h.mem_reported_gathered hsite batch]
    simp [DesignSystem.isInvalid, and_assoc]
  exact
    { site := hk.trans h.site
      system := by
        have hsame : (k.system.generate (k.gathered batch)).system =
            k.system.recalling (k.system.generate (k.gathered batch)).system.invalid := rfl
        rw [hsystem, hsame, h.system]
        rfl
      known := fun raw hraw => hinvalid.2 (.inl (h.known raw hraw))
      invalid := fun raw hraw => (hinvalid.1 hraw).elim (h.invalid raw) fun hmem => hmem.2.1
      candidates_seen := fun raw hraw =>
        (h.mem_candidates (hcandidate.1 hraw).2).1 (mem_gathered.1 (hcandidate.1 hraw).1)
      seen_candidates := fun raw hraw hvalid =>
        hcandidate.2 ⟨mem_gathered.2 ((h.mem_candidates hvalid).2 hraw), hvalid⟩
      tree := htree
      css := hcss
      candidates_valid := fun _ raw hraw => (hcandidate.1 hraw).2
      ruleCount := fun _ => hcount }

theorem build_placed (hc : c.system.variants.Extended) (hfresh : k.fresh batch ≠ []) :
    c.Tracks (k.build batch).compiler (seen ++ batch) ∧
      ((k.build batch).cached = true ↔ ∀ raw ∈ batch, c.system.IsValid raw → raw ∈ seen) := by
  have hrules := h.generate_gathered hsite hc batch
  have hcount := h.ruleCount (by simp [hsite])
  have hlength := DesignSystem.length_generate_eq_iff hc (List.subset_append_left seen batch)
  have hnew : (∀ raw ∈ seen ++ batch, c.system.IsValid raw → raw ∈ seen) ↔
      ∀ raw ∈ batch, c.system.IsValid raw → raw ∈ seen := by
    simp only [List.mem_append, or_imp, forall_and]
    exact and_iff_right fun raw hraw _ => hraw
  rw [build_with_site hfresh (h.site.trans hsite)]
  dsimp only
  rw [hrules, hcount]
  by_cases heq : (c.system.generate (seen ++ batch)).rules.length =
      (c.system.generate seen).rules.length
  · rw [if_pos heq]
    have hbatch := hnew.1 (hlength.1 heq)
    have hextended := h.extend hc hbatch
    exact ⟨h.gather hsite rfl rfl rfl hextended.tree hextended.css heq.symm,
      iff_of_true rfl hbatch⟩
  · rw [if_neg heq]
    have htree :
        address.modify (Node.withChildren (c.system.generate (seen ++ batch)).rules) k.tree =
        c.placed (seen ++ batch) := by
      rw [h.tree, placed_of_some hsite, placed_of_some hsite, Address.modify_modify]
      congr 1
      funext node
      cases node <;> rfl
    refine ⟨h.gather hsite rfl rfl rfl htree (by rw [htree]) rfl, iff_of_false Bool.noConfusion ?_⟩
    exact fun hbatch => heq (hlength.2 (hnew.2 hbatch))

end Placed

theorem build (hc : c.system.variants.Extended) (h : c.Tracks k seen) (batch : List String) :
    c.Tracks (k.build batch).compiler (seen ++ batch) ∧
      ((k.build batch).cached = true ↔
        c.site = none ∨ ∀ raw ∈ batch, c.system.IsValid raw → raw ∈ seen) := by
  by_cases hfresh : k.fresh batch = []
  · exact h.build_nothing hc hfresh
  · cases hsite : c.site with
    | none =>
      obtain ⟨htracks, hcached⟩ := h.build_unplaced hfresh hsite
      exact ⟨htracks, iff_of_true hcached (.inl rfl)⟩
    | some address =>
      obtain ⟨htracks, hcached⟩ := h.build_placed hsite hc hfresh
      refine ⟨htracks, hcached.trans ?_⟩
      simp

theorem buildAll (hc : c.system.variants.Extended) (h : c.Tracks k seen)
    (batches : List (List String)) : c.Tracks (k.buildAll batches) (seen ++ batches.flatten) := by
  induction batches generalizing k seen with
  | nil => simpa [Compiler.buildAll] using h
  | cons batch batches ih =>
    have hnext := ih (h.build hc batch).1
    rwa [List.append_assoc, ← List.flatten_cons] at hnext

end Tracks

theorem Ready.tracks (h : c.Ready) : c.Tracks c [] := by
  have hrules : (c.system.generate []).rules = [] := by
    simp [DesignSystem.generate_rules, DesignSystem.placedRules, sortBy]
  have hplaced : c.placed [] = c.tree := by
    unfold placed
    split
    · rfl
    next address hsite =>
      obtain ⟨entries, hget, _⟩ := h.site_empty hsite
      refine Address.modify_eq_self fun node hnode => ?_
      rw [hget] at hnode
      cases hnode
      rw [hrules]
      rfl
  exact
    { site := rfl
      system := rfl
      known := fun _ hraw => hraw
      invalid := fun raw hraw hvalid => hvalid.not_mem_invalid hraw
      candidates_seen := fun raw hraw => by simp [h.candidates] at hraw
      seen_candidates := fun raw hraw => by simp at hraw
      tree := hplaced.symm
      css := by rw [hplaced, h.css]
      candidates_valid := fun _ raw hraw => by simp [h.candidates] at hraw
      ruleCount := fun _ => by rw [hrules, h.ruleCount]; rfl }

/-- Building is exact. After any batches, the text printed last is that of the compiled tree with
the rules of all class names seen so far in the place for them, or the text of the compiled tree if
there is no such place. So it does not matter how the names were divided into batches. A build
prints nothing anew exactly if there is no place or no new name of the batch means something. -/
theorem build_exact {css : String} {options : CompileOptions} {c : Compiler}
    (h : (compile css options).result = .ok c) (batches : List (List String))
    (batch : List String) :
    let k := c.buildAll batches
    let text := (k.build batch).compiler.css
    let seen := batches.flatten ++ batch
    (c.site = none → text = c.css ∧ c.css = toCss c.tree) ∧
    (∀ address, c.site = some address →
      (∃ entries, address.get? c.tree = some (.context entries []) ∧
        (entries.lookup utilitiesKey).isSome) ∧
      text = toCss (address.modify (Node.withChildren (c.system.generate seen).rules) c.tree)) ∧
    (∀ batches', (∀ raw, raw ∈ batches'.flatten ↔ raw ∈ seen) → (c.buildAll batches').css = text) ∧
    ((k.build batch).cached = true ↔
      c.site = none ∨ ∀ raw ∈ batch, (c.system.generate [raw]).rules ≠ [] → raw ∈ batches.flatten) ∧
    ((k.build batch).cached = true → text = k.css) := by
  have hready := compile_ready h
  have hc := hready.variants
  have hbefore : c.Tracks (c.buildAll batches) batches.flatten :=
    hready.tracks.buildAll hc batches
  obtain ⟨hafter, hcached⟩ := hbefore.build hc batch
  refine ⟨fun hsite => ?_, fun address hsite => ⟨hready.site_empty hsite, ?_⟩, ?_, hcached, ?_⟩
  · rw [hafter.css, Tracks.placed_of_none hsite]
    exact ⟨hready.css.symm, hready.css⟩
  · rw [hafter.css, Tracks.placed_of_some hsite]
  · intro batches' hsame
    rw [hafter.css, (hready.tracks.buildAll hc batches').css]
    exact congrArg toCss (placed_congr hc fun raw _ => hsame raw)
  · intro htrue
    rw [hafter.css, hbefore.css]
    rcases hcached.1 htrue with hsite | hbatch
    · rw [Tracks.placed_of_none hsite, Tracks.placed_of_none hsite]
    · refine congrArg toCss (placed_congr hc fun raw hvalid => ?_)
      rw [List.mem_append]
      exact ⟨fun hmem => hmem.elim id fun hmem => hbatch raw hmem hvalid, .inl⟩

private theorem collect_placeholder : collect ⟨"/"⟩ [.atRule "tailwind" "utilities" []] =
    .ok ([placeholder utilitiesKey], { utilitiesPlaced := true }) := by
  have hname : Directive.ofName "tailwind" = .tailwind := by cbv
  have htrim : Text.trim "utilities" = "utilities" := by cbv
  have hvisit : ∀ scope, Collected.visit ⟨"/"⟩ (.atRule "tailwind" "utilities" []) scope {} =
      .ok (.replace [placeholder utilitiesKey], { utilitiesPlaced := true }) := by
    intro scope
    simp only [Collected.visit, hname, Collected.placeUtilities, htrim]
    rfl
  simp only [collect, walkExcept, walk, walkFrom, walkNode, hvisit, Walked.ofAnswer]
  rfl

theorem compile_placeholder :
    ∃ c, (compile "@tailwind utilities;" { base := ⟨"/"⟩ }).result = .ok c ∧ c.site = some [0] ∧
      c.system = .ofTheme {} := by
  let read : List Node := [.atRule "tailwind" "utilities" []]
  let left : List Node := [placeholder utilitiesKey]
  have hparse : parse "@tailwind utilities;" = .ok read := by cbv
  have himports : substituteImports .missing ⟨"/"⟩ read = .ok read := by cbv
  have hmedia : forwardMediaOptions read = .ok ⟨read, false⟩ := by cbv
  have hcollect : collect ⟨"/"⟩ read = .ok (left, { utilitiesPlaced := true }) :=
    collect_placeholder
  have hdefine : ∀ d : DesignSystem, d.defineUtilities [] = pure d := by
    intro d
    unfold DesignSystem.defineUtilities
    rfl
  have happly : ∀ d, substituteAllApply d left = pure left := fun _ => rfl
  have hutilities : replaceDirective .utility [] left = left := rfl
  have hcalls : ∀ t, expandAllCalls t left = .ok left := fun _ => rfl
  have htheme : ∀ t, placeTheme t left = left := by
    intro t
    cbv
  unfold compile
  simp only [hparse, himports, hmedia, hcollect, Traced.result_bind, Traced.ofExcept,
    Except.bind, runModules, Traced.result_pure, hdefine, happly, hutilities, hcalls, htheme]
  exact ⟨_, rfl, rfl, Collected.system_of_none rfl⟩

theorem build_exact_repeated :
    ∃ c, (compile "@tailwind utilities;" { base := ⟨"/"⟩ }).result = .ok c ∧ c.site = some [0] ∧
      ((c.buildAll [["flex"], ["flux"]]).build ["flex", "hover:flex"]).compiler.css =
        toCss (Address.modify (Node.withChildren
          (c.system.generate ["flex", "flux", "flex", "hover:flex"]).rules) [0] c.tree) := by
  obtain ⟨c, hc, hsite, -⟩ := compile_placeholder
  exact ⟨c, hc, hsite,
    ((build_exact hc [["flex"], ["flux"]] ["flex", "hover:flex"]).2.1 [0] hsite).2⟩

end Compiler

end UtilityCss
