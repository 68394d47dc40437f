import UtilityCss.Compiler
import UtilityCss.Proofs.Registration
import UtilityCss.Proofs.StableOrder

/-!
The order of generated rules. Ranks are given to the variants of one run, so they differ from run to
run, but they compare as the variants do. So two rules stand in the same order in every run that has
both, and more class names only put more rules between them.
-/
namespace UtilityCss

open Std (TransCmp OrientedCmp LawfulEqCmp)

theorem VariantRegistry.Extended.addVariant {d : DesignSystem} (h : d.variants.Extended)
    (name : String) (variant : CustomVariant) : (d.addVariant name variant).variants.Extended := by
  cases variant with
  | selectors selectors => exact .ofSelectors name selectors h
  | body nodes => exact .ofBody name nodes h

theorem DesignSystem.variants_ofTheme (theme : Theme) :
    (ofTheme theme).variants = .builtin theme := by
  simp only [ofTheme]

theorem DesignSystem.extended_ofTheme (theme : Theme) : (ofTheme theme).variants.Extended := by
  rw [variants_ofTheme]
  exact .builtin theme

/-! ### Ranks -/

theorem compare_idxOf {α : Type} [BEq α] [LawfulBEq α] {cmp : α → α → Ordering} {xs : List α}
    (hself : ∀ a ∈ xs, cmp a a = .eq)
    (hxs : xs.Pairwise fun a b => cmp a b = .lt ∧ cmp b a = .gt) {a b : α} (ha : a ∈ xs)
    (hb : b ∈ xs) : compare (xs.idxOf a) (xs.idxOf b) = cmp a b := by
  induction xs with
  | nil => simp at ha
  | cons x xs ih =>
    obtain ⟨hx, hxs⟩ := List.pairwise_cons.1 hxs
    by_cases hax : a = x
    · by_cases hbx : b = x
      · simp [hax, hbx, hself x]
      · have hb := (List.mem_cons.1 hb).resolve_left hbx
        simp [hax, List.idxOf_cons, beq_eq_false_iff_ne.2 (Ne.symm hbx), (hx b hb).1,
          Nat.compare_eq_lt]
    · have ha := (List.mem_cons.1 ha).resolve_left hax
      by_cases hbx : b = x
      · simp [hbx, List.idxOf_cons, beq_eq_false_iff_ne.2 (Ne.symm hax), (hx a ha).2,
          Nat.compare_eq_gt]
      · have hb := (List.mem_cons.1 hb).resolve_left hbx
        have hrest := ih (fun y hy => hself y (List.mem_cons_of_mem _ hy)) hxs ha hb
        simpa [List.idxOf_cons, beq_eq_false_iff_ne.2 (Ne.symm hax),
          beq_eq_false_iff_ne.2 (Ne.symm hbx), Nat.compare_eq_ite_lt] using hrest

namespace DesignSystem

variable {d : DesignSystem}

def rankCompare (d : DesignSystem) (a b : Variant) : Ordering :=
  (d.variants.compare d.theme a b).then (a.order b)

private theorem rankCompare_self (v : Variant) : d.rankCompare v v = .eq := by
  have horder : v.order v = .eq := Std.ReflCmp.compare_self
  simp [rankCompare, VariantRegistry.compare_self, horder]

theorem mem_rankedVariants {readings : List Candidate} {v : Variant} :
    v ∈ d.rankedVariants readings ↔ ∃ c ∈ readings, v ∈ c.variants := by
  simp [rankedVariants]

private theorem rankedVariants_ascend (hd : d.variants.Ordered) {readings : List Candidate}
    (hadmits : ∀ c ∈ readings, ∀ v ∈ c.variants, d.variants.Admits v) :
    (d.rankedVariants readings).Pairwise fun a b =>
      d.rankCompare a b = .lt ∧ d.rankCompare b a = .gt := by
  have htrans := VariantRegistry.rankOrder_trans hd d.theme
  let all := (readings.flatMap Candidate.variants).eraseDups
  have hall : ∀ v ∈ all, d.variants.Admits v := by
    intro v hv
    obtain ⟨c, hc, hvc⟩ := List.mem_flatMap.1 (List.mem_eraseDups.1 hv)
    exact hadmits c hc v hvc
  let admitted := all.attachWith d.variants.Admits hall
  have hmap : (sortBy (d.variants.rankOrder d.theme) admitted).map Subtype.val =
      d.rankedVariants readings := by
    have h : (sortBy (d.variants.rankOrder d.theme) admitted).map Subtype.val =
        sortBy d.rankCompare (admitted.map Subtype.val) :=
      map_sortBy admitted fun a _ b _ => rfl
    rwa [List.attachWith_map_subtype_val] at h
  have hnodup : (d.rankedVariants readings).Nodup :=
    (List.mergeSort_perm all _).nodup_iff.2 (nodup_eraseDups _)
  rw [← hmap] at hnodup ⊢
  rw [List.nodup_iff_pairwise_ne, List.pairwise_map] at hnodup
  rw [List.pairwise_map]
  refine (hnodup.and (pairwise_sortBy admitted)).imp fun {a b} ⟨hne, hle⟩ => ?_
  have hlt : d.variants.rankOrder d.theme a b = .lt := by
    cases hab : d.variants.rankOrder d.theme a b with
    | lt => rfl
    | eq => exact absurd (congrArg Subtype.val (VariantRegistry.eq_of_rankOrder hab)) hne
    | gt => simp [hab] at hle
  have hgt : d.variants.rankOrder d.theme b a = .gt := OrientedCmp.gt_of_lt hlt
  exact ⟨hlt, hgt⟩

/-- The ranks of two variants compare as the variants do, whatever else is ranked. -/
theorem compare_rank (hd : d.variants.Ordered) {readings : List Candidate}
    (hadmits : ∀ c ∈ readings, ∀ v ∈ c.variants, d.variants.Admits v) {v w : Variant}
    (hv : v ∈ d.rankedVariants readings) (hw : w ∈ d.rankedVariants readings) :
    compare ((d.rankedVariants readings).idxOf v) ((d.rankedVariants readings).idxOf w) =
      d.rankCompare v w :=
  compare_idxOf (fun v _ => rankCompare_self v) (rankedVariants_ascend hd hadmits) hv hw

end DesignSystem

def ranksIn (ranked variants : List Variant) : List Nat :=
  (variants.filterMap ranked.idxOf?).mergeSort fun a b => b ≤ a

private theorem idxOf?_of_mem {ranked : List Variant} {v : Variant} (h : v ∈ ranked) :
    ranked.idxOf? v = some (ranked.idxOf v) := by
  induction ranked with
  | nil => simp at h
  | cons w ranked ih =>
    rw [List.idxOf?_cons, List.idxOf_cons]
    by_cases hw : w = v
    · simp [hw]
    · have hv := (List.mem_cons.1 h).resolve_left (Ne.symm hw)
      simp [beq_eq_false_iff_ne.2 hw, ih hv]

private theorem filterMap_idxOf? {ranked variants : List Variant} (h : ∀ v ∈ variants, v ∈ ranked) :
    variants.filterMap ranked.idxOf? = variants.map ranked.idxOf := by
  induction variants with
  | nil => rfl
  | cons v vs ih =>
    have hv := idxOf?_of_mem (h v List.mem_cons_self)
    simp only [List.filterMap_cons, hv, ih fun w hw => h w (List.mem_cons_of_mem _ hw),
      List.map_cons]

private theorem compareLex_map {α : Type} {f g : α → Nat} {xs ys : List α}
    (h : ∀ a ∈ xs, ∀ b ∈ ys, compare (f a) (f b) = compare (g a) (g b)) :
    List.compareLex compare (xs.map f) (ys.map f) =
      List.compareLex compare (xs.map g) (ys.map g) := by
  induction xs generalizing ys with
  | nil => cases ys <;> rfl
  | cons x xs ih =>
    cases ys with
    | nil => rfl
    | cons y ys =>
      simp only [List.map_cons, List.compareLex_cons_cons]
      rw [h x List.mem_cons_self y List.mem_cons_self, ih]
      intro a ha b hb
      exact h a (List.mem_cons_of_mem _ ha) b (List.mem_cons_of_mem _ hb)

theorem ranksIn_eq {ranked variants : List Variant} (h : ∀ v ∈ variants, v ∈ ranked) :
    ranksIn ranked variants =
      (sortBy (fun v w => compare (ranked.idxOf w) (ranked.idxOf v)) variants).map
        ranked.idxOf := by
  rw [ranksIn, filterMap_idxOf? h, sortBy]
  refine (List.map_mergeSort fun v _ w _ => ?_).symm
  rw [Bool.eq_iff_iff, Nat.isLE_compare, decide_eq_true_iff]

theorem compareLex_ranksIn {ranked ranked' vs ws : List Variant}
    (hvs : ∀ v ∈ vs, v ∈ ranked ∧ v ∈ ranked') (hws : ∀ w ∈ ws, w ∈ ranked ∧ w ∈ ranked')
    (h : ∀ v w, v ∈ ranked → v ∈ ranked' → w ∈ ranked → w ∈ ranked' →
      compare (ranked.idxOf v) (ranked.idxOf w) = compare (ranked'.idxOf v) (ranked'.idxOf w)) :
    List.compareLex compare (ranksIn ranked vs) (ranksIn ranked ws) =
      List.compareLex compare (ranksIn ranked' vs) (ranksIn ranked' ws) := by
  let down (v w : Variant) : Ordering := compare (ranked'.idxOf w) (ranked'.idxOf v)
  have hsorted : ∀ us : List Variant, (∀ u ∈ us, u ∈ ranked ∧ u ∈ ranked') →
      ranksIn ranked us = (sortBy down us).map ranked.idxOf ∧
        ranksIn ranked' us = (sortBy down us).map ranked'.idxOf := by
    intro us hus
    refine ⟨?_, ranksIn_eq fun u hu => (hus u hu).2⟩
    rw [ranksIn_eq fun u hu => (hus u hu).1]
    congr 1
    refine sortBy_congr fun a ha b hb => ?_
    exact h b a (hus b hb).1 (hus b hb).2 (hus a ha).1 (hus a ha).2
  rw [(hsorted vs hvs).1, (hsorted vs hvs).2, (hsorted ws hws).1, (hsorted ws hws).2]
  refine compareLex_map fun a ha b hb => ?_
  have ha' := hvs a ((sortBy_perm down vs).mem_iff.1 ha)
  have hb' := hws b ((sortBy_perm down ws).mem_iff.1 hb)
  exact h a b ha'.1 ha'.2 hb'.1 hb'.2

/-! ### Rules -/

instance : TransCmp GeneratedRule.compare := by
  let byRanks (a b : GeneratedRule) : Ordering := List.compareLex compare a.ranks b.ranks
  let byProperty (a b : GeneratedRule) : Ordering :=
    VariantRegistry.compareOrders a.properties.head? b.properties.head?
  let byCount (a b : GeneratedRule) : Ordering := compare b.properties.length a.properties.length
  let byName (a b : GeneratedRule) : Ordering := compare a.raw b.raw
  have hranks : TransCmp byRanks := transCmp_comap GeneratedRule.ranks
  have hproperty : TransCmp byProperty :=
    transCmp_comap fun r : GeneratedRule => r.properties.head?
  have hcount : TransCmp byCount :=
    { eq_swap := fun {a b} => by
        simp only [byCount]
        exact OrientedCmp.eq_swap
      isLE_trans := fun {a b c} hab hbc => by
        simp only [byCount] at hab hbc ⊢
        exact TransCmp.isLE_trans hbc hab }
  have hname : TransCmp byName := transCmp_comap GeneratedRule.raw
  exact inferInstanceAs
    (TransCmp (compareLex byRanks (compareLex byProperty (compareLex byCount byName))))

theorem GeneratedRule.raw_eq_of_compare {a b : GeneratedRule} (h : a.compare b = .eq) :
    a.raw = b.raw := by
  simp only [GeneratedRule.compare, Ordering.then_eq_eq] at h
  exact LawfulEqCmp.eq_of_compare h.2.2.2

/-- A rule with what does not depend on the other rules. -/
structure OwnRule where
  node : Node
  variants : List Variant
  properties : List Nat
  raw : String

def OwnRule.ranked (variants : List Variant) (r : OwnRule) : GeneratedRule :=
  { node := r.node, ranks := ranksIn variants r.variants, properties := r.properties, raw := r.raw }

def OwnRule.compareIn (variants : List Variant) (a b : OwnRule) : Ordering :=
  (a.ranked variants).compare (b.ranked variants)

instance (variants : List Variant) : TransCmp (OwnRule.compareIn variants) :=
  transCmp_comap (OwnRule.ranked variants)

theorem classOf_filter_raw (variants : List Variant) (x : OwnRule) (rules : List OwnRule) :
    classOf (OwnRule.compareIn variants) x (rules.filter fun r => r.raw == x.raw) =
      classOf (OwnRule.compareIn variants) x rules := by
  rw [classOf, List.filter_filter]
  refine List.filter_congr fun r _ => ?_
  by_cases h : x.compareIn variants r = .eq
  · have hraw : x.raw = r.raw := GeneratedRule.raw_eq_of_compare h
    simp [h, hraw]
  · simp [h]

namespace DesignSystem

def readings (d : DesignSystem) (raw : String) : List Candidate :=
  if d.isInvalid raw then [] else d.parse raw

def ownRules (d : DesignSystem) (raw : String) : List OwnRule :=
  (d.readings raw).flatMap fun c =>
    (d.rulesOf c).map fun (node, properties) => { node, variants := c.variants, properties, raw }

def variantsOf (d : DesignSystem) (raws : List String) : List Variant :=
  d.rankedVariants (raws.eraseDups.flatMap d.readings)

def placedRules (d : DesignSystem) (raws : List String) : List GeneratedRule :=
  sortBy GeneratedRule.compare
    ((raws.eraseDups.flatMap d.ownRules).map (OwnRule.ranked (d.variantsOf raws)))

variable {d : DesignSystem} {raws : List String}

def readableNames (d : DesignSystem) (raws : List String) : List ParsedName :=
  (raws.eraseDups.map fun raw => ParsedName.mk raw (d.readings raw)).filter fun name =>
    !name.readings.isEmpty

theorem generatedRules_eq (ranked : List Variant) (raw : String) :
    d.generatedRules ranked ⟨raw, d.readings raw⟩ =
      (d.ownRules raw).map (OwnRule.ranked ranked) := by
  simp only [generatedRules, ownRules, List.map_flatMap, List.map_map]
  rfl

theorem flatMap_readableNames {α : Type} (f : ParsedName → List α)
    (hf : ∀ raw, d.readings raw = [] → f ⟨raw, d.readings raw⟩ = []) :
    (d.readableNames raws).flatMap f =
      raws.eraseDups.flatMap fun raw => f ⟨raw, d.readings raw⟩ := by
  unfold readableNames
  induction raws.eraseDups with
  | nil => rfl
  | cons raw raws ih =>
    rw [List.map_cons, List.filter_cons, List.flatMap_cons]
    cases h : d.readings raw with
    | nil =>
      have hraw : f ⟨raw, []⟩ = [] := h ▸ hf raw h
      simpa [h, hraw] using ih
    | cons c cs => simpa [h] using ih

theorem generate_rules : (d.generate raws).rules = (d.placedRules raws).map GeneratedRule.node := by
  have hranked : (d.readableNames raws).flatMap ParsedName.readings =
      raws.eraseDups.flatMap d.readings :=
    flatMap_readableNames _ fun raw h => h
  have hrules : ∀ ranked, (d.readableNames raws).flatMap (d.generatedRules ranked) =
      (raws.eraseDups.flatMap d.ownRules).map (OwnRule.ranked ranked) := by
    intro ranked
    rw [flatMap_readableNames _ fun raw h => by simp [generatedRules, h], List.map_flatMap]
    simp only [generatedRules_eq]
  have hgenerate : (d.generate raws).rules =
      (sortBy GeneratedRule.compare ((d.readableNames raws).flatMap
        (d.generatedRules (d.rankedVariants
          ((d.readableNames raws).flatMap ParsedName.readings))))).map GeneratedRule.node := by
    unfold generate
    simp only [List.flatMap_map]
    rfl
  rw [hgenerate, hranked, hrules]
  rfl

theorem raw_of_mem_ownRules {raw : String} {r : OwnRule} (h : r ∈ d.ownRules raw) :
    r.raw = raw := by
  simp only [ownRules, List.mem_flatMap, List.mem_map] at h
  obtain ⟨c, _, _, _, rfl⟩ := h
  rfl

private theorem filter_ownRules {names : List String} (hnames : names.Nodup) (raw : String) :
    (names.flatMap d.ownRules).filter (fun r => r.raw == raw) =
      if raw ∈ names then d.ownRules raw else [] := by
  induction names with
  | nil => rfl
  | cons name names ih =>
    obtain ⟨hname, hnames⟩ := List.nodup_cons.1 hnames
    rw [List.flatMap_cons, List.filter_append, ih hnames]
    by_cases hraw : raw = name
    · subst raw
      have hall : (d.ownRules name).filter (fun r => r.raw == name) = d.ownRules name :=
        List.filter_eq_self.2 fun r hr => by simp [raw_of_mem_ownRules hr]
      simp [hall, hname]
    · have hnone : (d.ownRules name).filter (fun r => r.raw == raw) = [] :=
        List.filter_eq_nil_iff.2 fun r hr => by simp [raw_of_mem_ownRules hr, Ne.symm hraw]
      simp [hnone, hraw]

theorem filter_ownRules_eraseDups (raws : List String) (raw : String) :
    (raws.eraseDups.flatMap d.ownRules).filter (fun r => r.raw == raw) =
      if raw ∈ raws then d.ownRules raw else [] := by
  simp only [filter_ownRules (nodup_eraseDups raws), List.mem_eraseDups]

theorem placedRules_eq : d.placedRules raws =
    (sortBy (OwnRule.compareIn (d.variantsOf raws)) (raws.eraseDups.flatMap d.ownRules)).map
      (OwnRule.ranked (d.variantsOf raws)) := by
  symm
  exact map_sortBy _ fun _ _ _ _ => rfl

theorem exists_reading {raw : String} {r : OwnRule} (h : r ∈ d.ownRules raw) :
    ∃ c ∈ d.readings raw, r.variants = c.variants ∧ (r.node, r.properties) ∈ d.rulesOf c := by
  simp only [ownRules, List.mem_flatMap, List.mem_map] at h
  obtain ⟨c, hc, rule, hrule, rfl⟩ := h
  exact ⟨c, hc, rfl, hrule⟩

theorem readings_subset (raw : String) : d.readings raw ⊆ d.parse raw := by
  unfold readings
  split
  · exact List.nil_subset _
  · exact List.Subset.refl _

theorem mem_variantsOf {raw : String} {r : OwnRule} (hraw : raw ∈ raws) (hr : r ∈ d.ownRules raw)
    {v : Variant} (hv : v ∈ r.variants) : v ∈ d.variantsOf raws := by
  obtain ⟨c, hc, hvariants, _⟩ := exists_reading hr
  rw [variantsOf, mem_rankedVariants]
  refine ⟨c, ?_, hvariants ▸ hv⟩
  exact List.mem_flatMap.2 ⟨raw, List.mem_eraseDups.2 hraw, hc⟩

private theorem compare_rank_eq (hd : d.variants.Extended) {raws' : List String} {v w : Variant}
    (hv : v ∈ d.variantsOf raws) (hv' : v ∈ d.variantsOf raws') (hw : w ∈ d.variantsOf raws)
    (hw' : w ∈ d.variantsOf raws') :
    compare ((d.variantsOf raws).idxOf v) ((d.variantsOf raws).idxOf w) =
      compare ((d.variantsOf raws').idxOf v) ((d.variantsOf raws').idxOf w) := by
  have hadmits : ∀ names : List String, ∀ c ∈ names.eraseDups.flatMap d.readings,
      ∀ v ∈ c.variants, d.variants.Admits v := by
    intro names c hc v hv
    obtain ⟨raw, _, hc⟩ := List.mem_flatMap.1 hc
    exact admits_of_mem_parse (readings_subset raw hc) hv
  have hleft := compare_rank hd.ordered (hadmits raws) hv hw
  have hright := compare_rank hd.ordered (hadmits raws') hv' hw'
  exact hleft.trans hright.symm

/-- Two rules compare alike in every run that has both. -/
theorem compareIn_eq (hd : d.variants.Extended) {raws' : List String} {a b : OwnRule}
    (ha : ∀ v ∈ a.variants, v ∈ d.variantsOf raws ∧ v ∈ d.variantsOf raws')
    (hb : ∀ v ∈ b.variants, v ∈ d.variantsOf raws ∧ v ∈ d.variantsOf raws') :
    a.compareIn (d.variantsOf raws) b = a.compareIn (d.variantsOf raws') b := by
  have hranks := compareLex_ranksIn ha hb fun v w hv hv' hw hw' =>
    compare_rank_eq hd hv hv' hw hw'
  simp only [OwnRule.compareIn, OwnRule.ranked, GeneratedRule.compare, hranks]

theorem filter_placedRules (hd : d.variants.Extended) {raws' : List String} (h : raws' ⊆ raws) :
    ((d.placedRules raws).filter fun r => raws'.contains r.raw).map GeneratedRule.node =
      (d.placedRules raws').map GeneratedRule.node := by
  let own (names : List String) : List OwnRule := names.eraseDups.flatMap d.ownRules
  let cmp := OwnRule.compareIn (d.variantsOf raws)
  have hclass : ∀ x, classOf cmp x ((own raws).filter fun r => raws'.contains r.raw) =
      classOf cmp x (own raws') := by
    intro x
    rw [← classOf_filter_raw, ← classOf_filter_raw _ x (own raws')]
    congr 1
    rw [List.filter_filter, filter_ownRules_eraseDups]
    split
    next hx =>
      have hraws := filter_ownRules_eraseDups (d := d) raws x.raw
      rw [if_pos (h hx)] at hraws
      rw [← hraws]
      refine List.filter_congr fun r _ => ?_
      by_cases hr : r.raw = x.raw <;> simp [hr, hx]
    next hx =>
      refine List.filter_eq_nil_iff.2 fun r _ hr => hx ?_
      simp only [Bool.and_eq_true, beq_iff_eq, List.contains_iff_mem] at hr
      exact hr.1 ▸ hr.2
  have hcmp : ∀ a ∈ own raws', ∀ b ∈ own raws',
      cmp a b = a.compareIn (d.variantsOf raws') b := by
    have hvariants : ∀ r ∈ own raws', ∀ v ∈ r.variants,
        v ∈ d.variantsOf raws ∧ v ∈ d.variantsOf raws' := by
      intro r hr v hv
      obtain ⟨raw, hraw, hr⟩ := List.mem_flatMap.1 hr
      have hraw := List.mem_eraseDups.1 hraw
      exact ⟨mem_variantsOf (h hraw) hr hv, mem_variantsOf hraw hr hv⟩
    intro a ha b hb
    exact compareIn_eq hd (hvariants a ha) (hvariants b hb)
  calc ((d.placedRules raws).filter fun r => raws'.contains r.raw).map GeneratedRule.node
    _ = ((sortBy cmp (own raws)).filter fun r => raws'.contains r.raw).map OwnRule.node := by
      rw [placedRules_eq, List.filter_map, List.map_map]
      rfl
    _ = (sortBy cmp (own raws')).map OwnRule.node := by rw [filter_sortBy hclass]
    _ = (sortBy (OwnRule.compareIn (d.variantsOf raws')) (own raws')).map OwnRule.node := by
      rw [sortBy_congr hcmp]
    _ = (d.placedRules raws').map GeneratedRule.node := by
      rw [placedRules_eq, List.map_map]
      rfl

theorem exists_reading_of_mem_placedRules {r : GeneratedRule} (h : r ∈ d.placedRules raws) :
    r.raw ∈ raws ∧ ∃ c ∈ d.parse r.raw, (r.node, r.properties) ∈ d.rulesOf c := by
  have hmem := (sortBy_perm _ _).mem_iff.1 h
  obtain ⟨own, hown, rfl⟩ := List.mem_map.1 hmem
  obtain ⟨raw, hraw, hown⟩ := List.mem_flatMap.1 hown
  obtain ⟨c, hc, _, hrule⟩ := exists_reading hown
  obtain rfl := raw_of_mem_ownRules hown
  exact ⟨List.mem_eraseDups.1 hraw, c, readings_subset _ hc, hrule⟩

theorem mem_reported {raw : String} :
    raw ∈ (d.generate raws).reported ↔ raw ∈ raws ∧ d.ownRules raw = [] := by
  have hreported : (d.generate raws).reported =
      ((raws.eraseDups.map fun raw => ParsedName.mk raw (d.readings raw)).filter fun name =>
        name.readings.isEmpty).map ParsedName.raw ++
      (((d.readableNames raws).map fun name => (name, d.generatedRules (d.rankedVariants
        ((d.readableNames raws).flatMap ParsedName.readings)) name)).filter
          fun outcome => outcome.2.isEmpty).map fun outcome => outcome.1.raw := rfl
  rw [hreported, List.mem_append]
  constructor
  · rintro (h | h)
    · obtain ⟨name, hname, rfl⟩ := List.mem_map.1 h
      obtain ⟨hname, hempty⟩ := List.mem_filter.1 hname
      obtain ⟨raw, hraw, rfl⟩ := List.mem_map.1 hname
      refine ⟨List.mem_eraseDups.1 hraw, ?_⟩
      have hreadings : d.readings raw = [] := List.isEmpty_iff.1 hempty
      simp [ownRules, hreadings]
    · obtain ⟨outcome, hmem, rfl⟩ := List.mem_map.1 h
      obtain ⟨hmem, hempty⟩ := List.mem_filter.1 hmem
      obtain ⟨name, hname, rfl⟩ := List.mem_map.1 hmem
      obtain ⟨raw, hraw, rfl⟩ := List.mem_map.1 (List.mem_filter.1 hname).1
      refine ⟨List.mem_eraseDups.1 hraw, ?_⟩
      simpa [generatedRules_eq] using hempty
  · rintro ⟨hraw, hown⟩
    have hmem : ParsedName.mk raw (d.readings raw) ∈
        raws.eraseDups.map fun raw => ParsedName.mk raw (d.readings raw) :=
      List.mem_map_of_mem (List.mem_eraseDups.2 hraw)
    by_cases hreadings : d.readings raw = []
    · exact .inl (List.mem_map.2 ⟨_, List.mem_filter.2 ⟨hmem, by simp [hreadings]⟩, rfl⟩)
    · refine .inr (List.mem_map.2 ⟨_, List.mem_filter.2 ⟨List.mem_map_of_mem
        (List.mem_filter.2 ⟨hmem, by simpa using hreadings⟩), ?_⟩, rfl⟩)
      simp [generatedRules_eq, hown]

/-- Generating rules for fewer class names gives the same rules in the same order, without those of
the other names, and reports the same names. So it does not matter how often or in which order names
are given, and more names never move a rule. -/
theorem generate_restrict (hd : d.variants.Extended) {fewer all : List String}
    (h : ∀ raw ∈ fewer, raw ∈ all) :
    ((d.generate all).rules = (d.placedRules all).map GeneratedRule.node ∧
      ∀ r ∈ d.placedRules all,
        r.raw ∈ all ∧ ∃ c ∈ d.parse r.raw, (r.node, r.properties) ∈ d.rulesOf c) ∧
    ((d.placedRules all).filter fun r => fewer.contains r.raw).map GeneratedRule.node =
      (d.generate fewer).rules ∧
    (∀ raw ∈ fewer, raw ∈ (d.generate all).reported ↔ raw ∈ (d.generate fewer).reported) ∧
    ((∀ raw ∈ all, raw ∈ fewer) → (d.generate all).rules = (d.generate fewer).rules) ∧
    (d.generate fewer).rules.Sublist (d.generate all).rules := by
  have hfilter := filter_placedRules hd h
  rw [← generate_rules] at hfilter
  refine ⟨⟨generate_rules, fun r hr => exists_reading_of_mem_placedRules hr⟩, hfilter, ?_, ?_, ?_⟩
  · intro raw hraw
    rw [mem_reported, mem_reported]
    exact and_congr_left fun _ => ⟨fun _ => hraw, h raw⟩
  · intro hall
    rw [← hfilter, generate_rules, List.filter_eq_self.2]
    intro r hr
    exact List.contains_iff_mem.2 (hall _ (exists_reading_of_mem_placedRules hr).1)
  · rw [← hfilter, generate_rules]
    exact List.filter_sublist.map _

theorem generate_restrict_repeated :
    let d := { (DesignSystem.ofTheme {}).addVariant "tall"
      (.selectors ["@media (height > 9in)"]) with
      invalid := ["flux"] }
    d.variants.Extended ∧
    (∀ raw ∈ ["flex", "flux", "flex"], raw ∈ ["hover:flex", "flux", "tall:p-1", "flex"]) ∧
    ((d.placedRules ["hover:flex", "flux", "tall:p-1", "flex"]).filter fun r =>
        ["flex", "flux", "flex"].contains r.raw).map GeneratedRule.node =
      (d.generate ["flex", "flux", "flex"]).rules := by
  intro d
  have hd : d.variants.Extended := by
    dsimp only [d]
    exact (extended_ofTheme {}).addVariant "tall" _
  exact ⟨hd, by decide, (generate_restrict hd (by decide)).2.1⟩

end DesignSystem

end UtilityCss
