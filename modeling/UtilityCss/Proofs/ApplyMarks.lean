import UtilityCss.Proofs.Compilation
import UtilityCss.Proofs.ContentMarks
import UtilityCss.Proofs.MarkedNames

/-!
Importance in applied class names. The mark behind all names is put on what they stand for, the mark
on one name only on what its utility declares, before the variants are put around it. So the two
differ in the declarations that variants add. The mark on a name is also a part of it, and names
decide the order of rules that nothing else tells apart.
-/
namespace UtilityCss

/-! ### Utilities and variants that do not look at marks -/

def Utility.IgnoresMarks (u : Utility) : Prop :=
  ∀ c raw theme, u.resolve (c.marked raw) theme = u.resolve c theme

theorem Utility.ReadsBase.ignoresMarks {u : Utility} (h : u.ReadsBase) : u.IgnoresMarks :=
  fun c raw theme => h c c.variants true raw theme

namespace DesignSystem

/-- No utility and no variant looks at marks of importance. -/
structure IgnoresMarks (d : DesignSystem) : Prop where
  utilities : ∀ entry ∈ d.utilities.definitions, entry.2.IgnoresMarks
  variants : d.variants.Encloses
  inline : d.variants.Keeps .inline

theorem ignoresMarks_ofTheme (theme : Theme) : (ofTheme theme).IgnoresMarks where
  utilities entry hentry := (Utility.builtin_readBase entry hentry).ignoresMarks
  variants := by
    rw [variants_ofTheme]
    exact VariantRegistry.builtin_encloses theme
  inline := by
    rw [variants_ofTheme]
    exact VariantRegistry.builtin_keeps (fun _ h => h) theme

/-! ### The rules of a marked name -/

variable {d : DesignSystem}

theorem IgnoresMarks.declarations (h : d.IgnoresMarks) (c : Candidate) (raw : String) :
    d.declarations (c.marked raw) = d.declarations c := by
  have hofKind : ∀ root kind, (d.utilities.ofKind root kind).filterMap
      (fun u => u.resolve (c.marked raw) d.theme) =
        (d.utilities.ofKind root kind).filterMap fun u => u.resolve c d.theme := by
    intro root kind
    apply List.filterMap_congr
    intro u hu
    exact h.utilities _ (mem_ofKind hu) c raw d.theme
  unfold DesignSystem.declarations
  rw [show (c.marked raw).kind = c.kind from rfl]
  split
  · rfl
  · exact hofKind _ _
  · exact hofKind _ _

theorem IgnoresMarks.applyVariants (h : d.IgnoresMarks) {variants : List Variant}
    (hv : ∀ v ∈ variants, d.variants.Admits v) : Enclosing (d.applyVariants variants) := by
  induction variants with
  | nil => exact .inr ⟨_, .id, fun _ _ => rfl⟩
  | cons v vs ih =>
    rw [List.forall_mem_cons] at hv
    exact (h.variants.applyVariant h.inline d.theme hv.1 0).bind (ih hv.2)

/-- The declarations that variants add of their own are important. -/
def AddsImportant (d : DesignSystem) (variants : List Variant) : Prop :=
  ∀ node, d.applyVariants variants (.rule "" []) = some node → node.IsImportant

instance (variants : List Variant) : Decidable (d.AddsImportant variants) :=
  match h : d.applyVariants variants (.rule "" []) with
  | none => .isTrue fun node heq => by simp [h] at heq
  | some node => decidable_of_iff node.IsImportant (by simp [AddsImportant, h])

end DesignSystem

theorem Compilation.ignoresMarks {css : String} {options : CompileOptions}
    (r : Compilation css options) : r.system.IgnoresMarks := by
  have hs : Shape.inline.Uniform := fun _ h => h
  have hspliced := spliceFrom_has hs (fun _ => trivial) (parse_has r.parse_eq) r.splice_eq
  have hcollected := collect_has (AllHave.forwardAllOptions hs hspliced r.forward_eq) r.collect_eq
  have hstart := DesignSystem.ignoresMarks_ofTheme r.collected.theme
  have hvariants : r.system.variants.Encloses ∧ r.system.variants.Keeps .inline := by
    refine r.system_of_lasting
      (motive := fun d => d.variants.Encloses ∧ d.variants.Keeps .inline)
      ⟨fun _ _ _ h => h, fun _ _ h => h, fun _ name selectors h =>
        ⟨h.1.ofSelectors name selectors, h.2.ofSelectors hs name selectors⟩⟩ ?_
    refine List.foldlRecOn (motive := fun d : DesignSystem =>
      d.variants.Encloses ∧ d.variants.Keeps .inline) r.collected.variants _ ?_ ?_
    · dsimp only
      exact ⟨hstart.variants, hstart.inline⟩
    · rintro d hd ⟨name, variant⟩ hentry
      cases variant with
      | selectors selectors =>
        exact ⟨hd.1.ofSelectors name selectors, hd.2.ofSelectors hs name selectors⟩
      | body body =>
        have hbody := hcollected.variants name body hentry
        exact ⟨hd.1.ofBody name hbody, hd.2.ofBody hs name hbody⟩
  exact ⟨fun entry hentry => (r.utilities_readBase entry hentry).ignoresMarks,
    hvariants.1, hvariants.2⟩

theorem Node.unwrapClass_class (name : String) (nodes : List Node) :
    Node.unwrapClass (.rule ("." ++ name) nodes) = nodes := by
  have hclass : Text.startsWith "." ("." ++ name) = true := by
    rw [Text.startsWith, Text.strip?_eq_some_iff.2 rfl]
    rfl
  rw [Node.unwrapClass, if_pos hclass]

structure OwnRule.IsMarked (d : DesignSystem) (put : String → String) (r r' : OwnRule) : Prop where
  variants : r'.variants = r.variants
  properties : r'.properties = r.properties
  raw : r'.raw = put r.raw
  content : markAllImportant r'.node.unwrapClass = markAllImportant r.node.unwrapClass
  important : d.AddsImportant r.variants → AllImportant r'.node.unwrapClass

theorem forall₂_flatMap {α β γ : Type} {R : β → γ → Prop} {f : α → List β} {g : α → List γ}
    {xs : List α} (h : ∀ x ∈ xs, List.Forall₂ R (f x) (g x)) :
    List.Forall₂ R (xs.flatMap f) (xs.flatMap g) := by
  induction xs with
  | nil => exact .nil
  | cons x xs ih =>
    rw [List.forall_mem_cons] at h
    exact List.rel_append h.1 (ih h.2)

namespace DesignSystem

variable {d : DesignSystem}

theorem IgnoresMarks.rulesOf (h : d.IgnoresMarks) {c : Candidate}
    (hv : ∀ v ∈ c.variants, d.variants.Admits v) (raw : String) :
    List.Forall₂ (fun rule rule' => rule'.2 = rule.2 ∧
        markAllImportant rule'.1.unwrapClass = markAllImportant rule.1.unwrapClass ∧
        (d.AddsImportant c.variants → AllImportant rule'.1.unwrapClass))
      (d.rulesOf c) (d.rulesOf (c.marked raw)) := by
  simp only [DesignSystem.rulesOf, h.declarations]
  rcases h.applyVariants hv with hnone | ⟨f, hf, hsome⟩
  · simp [Candidate.marked, hnone]
  · simp only [Candidate.marked, hsome, Option.map_some, Bool.true_or, if_true]
    rw [List.filterMap_eq_map', List.filterMap_eq_map', List.forall₂_map_left_iff,
      List.forall₂_map_right_iff, List.forall₂_same]
    intro nodes _
    simp only [Node.unwrapClass_class]
    refine ⟨?_, hf.alike ?_, fun hadds => ?_⟩
    · split <;> simp [propertySort_mark]
    · split <;> simp
    · have hempty : AllImportant (f []) := hadds (.rule "" (f [])) (hsome "" [])
      exact hf.important (fun _ => allImportant_mark nodes) hempty

end DesignSystem

/-! ### Marking several names -/

namespace DesignSystem

variable {d : DesignSystem}

/-- Class names with a way to mark them: the mark is not confused with another part of a name, and
the marked names are not remembered otherwise than the names themselves. -/
structure Markable (d : DesignSystem) (names : List String)
    (marks : String → ImportantMark) : Prop where
  unmarked : ∀ raw ∈ names, IsUnmarked raw
  invalid : ∀ raw ∈ names, d.isInvalid (markName marks raw) = d.isInvalid raw

variable {names : List String} {marks : String → ImportantMark}

theorem Markable.eraseDups (h : d.Markable names marks) :
    (names.map (markName marks)).eraseDups = names.eraseDups.map (markName marks) :=
  eraseDups_map fun a ha b hb => ImportantMark.eq_of_put (h.unmarked a ha) (h.unmarked b hb)

theorem Markable.readings (h : d.Markable names marks) {raw : String} (hraw : raw ∈ names) :
    d.readings (markName marks raw) = (d.readings raw).map (.marked (markName marks raw)) := by
  unfold DesignSystem.readings
  rw [h.invalid raw hraw, markName, d.parse_put (marks raw) (h.unmarked raw hraw)]
  split <;> rfl

theorem Markable.rules (h : d.Markable names marks) (hd : d.IgnoresMarks) {raw : String}
    (hraw : raw ∈ names) :
    List.Forall₂ (OwnRule.IsMarked d (markName marks)) (d.ownRules raw)
      (d.ownRules (markName marks raw)) := by
  unfold DesignSystem.ownRules
  rw [h.readings hraw, List.flatMap_map]
  apply forall₂_flatMap
  intro c hc
  have hv : ∀ v ∈ c.variants, d.variants.Admits v :=
    fun v hv => admits_of_mem_parse (readings_subset raw hc) hv
  rw [List.forall₂_map_left_iff, List.forall₂_map_right_iff]
  refine (hd.rulesOf hv (markName marks raw)).imp ?_
  rintro rule rule' ⟨hproperties, hcontent, himportant⟩
  exact ⟨rfl, hproperties, rfl, hcontent, himportant⟩

theorem Markable.ownRules (h : d.Markable names marks) (hd : d.IgnoresMarks) :
    List.Forall₂ (OwnRule.IsMarked d (markName marks)) (names.eraseDups.flatMap d.ownRules)
      ((names.map (markName marks)).eraseDups.flatMap d.ownRules) := by
  rw [h.eraseDups, List.flatMap_map]
  apply forall₂_flatMap
  intro raw hraw
  exact h.rules hd (List.mem_eraseDups.1 hraw)

theorem Markable.variantsOf (h : d.Markable names marks) :
    d.variantsOf (names.map (markName marks)) = d.variantsOf names := by
  have hvariants : ((names.map (markName marks)).eraseDups.flatMap d.readings).flatMap
      Candidate.variants = (names.eraseDups.flatMap d.readings).flatMap Candidate.variants := by
    rw [h.eraseDups, List.flatMap_map, List.flatMap_assoc, List.flatMap_assoc]
    apply List.flatMap_congr
    intro raw hraw
    rw [h.readings (List.mem_eraseDups.1 hraw), List.flatMap_map]
    rfl
  simp only [DesignSystem.variantsOf, rankedVariants, hvariants]

end DesignSystem

/-! ### The order of marked names -/

def GeneratedRule.Ties (a b : GeneratedRule) : Prop :=
  a.ranks = b.ranks ∧ a.properties.head? = b.properties.head? ∧
    a.properties.length = b.properties.length

instance (a b : GeneratedRule) : Decidable (a.Ties b) :=
  inferInstanceAs (Decidable (_ ∧ _ ∧ _))

theorem VariantRegistry.eq_of_compareOrders {a b : Option Nat} (h : compareOrders a b = .eq) :
    a = b := by
  cases a <;> cases b <;> simp_all [compareOrders]

theorem GeneratedRule.compare_congr {a b a' b' : GeneratedRule} (ha : a'.ranks = a.ranks)
    (hb : b'.ranks = b.ranks) (ha' : a'.properties = a.properties)
    (hb' : b'.properties = b.properties)
    (h : a.Ties b → Ord.compare a'.raw b'.raw = Ord.compare a.raw b.raw) :
    a'.compare b' = a.compare b := by
  unfold GeneratedRule.compare
  rw [ha, hb, ha', hb']
  cases hranks : List.compareLex Ord.compare a.ranks b.ranks with
  | lt | gt => rfl
  | eq =>
    cases hproperty : VariantRegistry.compareOrders a.properties.head? b.properties.head? with
    | lt | gt => rfl
    | eq =>
      cases hcount : Ord.compare b.properties.length a.properties.length with
      | lt | gt => rfl
      | eq =>
        have hlength := (Nat.compare_eq_eq.1 hcount).symm
        exact h ⟨Std.LawfulEqCmp.eq_of_compare hranks,
          VariantRegistry.eq_of_compareOrders hproperty, hlength⟩

theorem OwnRule.IsMarked.compareIn {d : DesignSystem} {put : String → String} {a b a' b' : OwnRule}
    {variants : List Variant} (ha : IsMarked d put a a') (hb : IsMarked d put b b')
    (h : (a.ranked variants).Ties (b.ranked variants) →
      compare (put a.raw) (put b.raw) = compare a.raw b.raw) :
    a.compareIn variants b = a'.compareIn variants b' := by
  symm
  apply GeneratedRule.compare_congr
  · simp only [OwnRule.ranked, ha.variants]
  · simp only [OwnRule.ranked, hb.variants]
  · exact ha.properties
  · exact hb.properties
  · intro htie
    simpa only [OwnRule.ranked, ha.raw, hb.raw] using h htie

theorem flatMap_eq_of_forall₂ {α β γ : Type} {R : α → β → Prop} {f : α → List γ} {g : β → List γ}
    {xs : List α} {ys : List β} (h : List.Forall₂ R xs ys) (hfg : ∀ a b, R a b → g b = f a) :
    ys.flatMap g = xs.flatMap f := by
  induction h with
  | nil => rfl
  | cons hab _ ih => rw [List.flatMap_cons, List.flatMap_cons, hfg _ _ hab, ih]

theorem exists_of_forall₂ {α β : Type} {R : α → β → Prop} {xs : List α} {ys : List β}
    (h : List.Forall₂ R xs ys) {y : β} (hy : y ∈ ys) : ∃ x ∈ xs, R x y := by
  induction h with
  | nil => simp at hy
  | cons hab _ ih =>
    rcases List.mem_cons.1 hy with rfl | hy
    · exact ⟨_, List.mem_cons_self, hab⟩
    · obtain ⟨x, hx, hxy⟩ := ih hy
      exact ⟨x, List.mem_cons_of_mem _ hx, hxy⟩

namespace DesignSystem

variable {d : DesignSystem} {names : List String} {marks : String → ImportantMark}

def applied (d : DesignSystem) (names : List String) : List Node :=
  (d.placedRules names).flatMap fun r => r.node.unwrapClass

theorem applied_eq : d.applied names =
    (sortBy (OwnRule.compareIn (d.variantsOf names)) (names.eraseDups.flatMap d.ownRules)).flatMap
      fun r => r.node.unwrapClass := by
  rw [applied, placedRules_eq, List.flatMap_map]
  rfl

theorem result_expandApply {params : String} {nodes : List Node} :
    (d.expandApply params).result = .ok nodes ↔
      (∀ raw ∈ (splitApplyImportant (Text.words params)).1, d.ownRules raw ≠ []) ∧
        (if (splitApplyImportant (Text.words params)).2
          then markAllImportant (d.applied (splitApplyImportant (Text.words params)).1)
          else d.applied (splitApplyImportant (Text.words params)).1) = nodes := by
  have hrules : ∀ names, (d.generate names).rules.flatMap Node.unwrapClass = d.applied names := by
    intro names
    rw [generate_rules, List.flatMap_map]
    rfl
  have hreported : ∀ names, (d.generate names).reported = [] ↔
      ∀ raw ∈ names, d.ownRules raw ≠ [] := by
    intro names
    rw [List.eq_nil_iff_forall_not_mem]
    simp only [mem_reported, not_and]
  unfold expandApply
  dsimp only
  rw [← hreported, ← hrules]
  cases (d.generate (splitApplyImportant (Text.words params)).1).reported with
  | nil =>
    simp [Traced.report, Traced.result_bind, Except.bind]
  | cons raw rest =>
    simp [Traced.report, Traced.result_bind, Except.bind, Traced.fail]

/-- Names that alone tell apart two rules keep their order when they are marked. -/
def KeepsTies (d : DesignSystem) (names : List String) (marks : String → ImportantMark) : Prop :=
  ∀ raw ∈ names, ∀ raw' ∈ names, ∀ r ∈ d.ownRules raw, ∀ r' ∈ d.ownRules raw',
    (r.ranked (d.variantsOf names)).Ties (r'.ranked (d.variantsOf names)) →
      compare (markName marks raw) (markName marks raw') = compare raw raw'

instance (names : List String) (marks : String → ImportantMark) :
    Decidable (d.KeepsTies names marks) :=
  inferInstanceAs (Decidable (∀ raw ∈ _, ∀ raw' ∈ _, ∀ r ∈ _, ∀ r' ∈ _, _ → _))

theorem Markable.applied_perm (h : d.Markable names marks) (hd : d.IgnoresMarks) :
    (markAllImportant (d.applied (names.map (markName marks)))).Perm
      (markAllImportant (d.applied names)) := by
  rw [applied_eq, applied_eq, markAllImportant_flatMap, markAllImportant_flatMap]
  refine ((sortBy_perm _ _).flatMap_right _).trans
    (.trans ?_ ((sortBy_perm _ _).flatMap_right _).symm)
  rw [flatMap_eq_of_forall₂ (h.ownRules hd) fun r r' hr => hr.content]

theorem Markable.applied_of_keepsTies (h : d.Markable names marks) (hd : d.IgnoresMarks)
    (hties : d.KeepsTies names marks) :
    markAllImportant (d.applied (names.map (markName marks))) =
      markAllImportant (d.applied names) := by
  rw [applied_eq, applied_eq, markAllImportant_flatMap, markAllImportant_flatMap, h.variantsOf]
  refine flatMap_eq_of_forall₂ (forall₂_sortBy (h.ownRules hd) ?_) fun r r' hr => hr.content
  intro a ha b hb a' b' hmarked hmarked'
  obtain ⟨raw, hraw, ha⟩ := List.mem_flatMap.1 ha
  obtain ⟨raw', hraw', hb⟩ := List.mem_flatMap.1 hb
  apply hmarked.compareIn hmarked'
  rw [raw_of_mem_ownRules ha, raw_of_mem_ownRules hb]
  exact hties raw (List.mem_eraseDups.1 hraw) raw' (List.mem_eraseDups.1 hraw') a ha b hb

theorem Markable.applied_allImportant (h : d.Markable names marks) (hd : d.IgnoresMarks)
    (hadds : ∀ raw ∈ names, ∀ c ∈ d.readings raw, d.AddsImportant c.variants) :
    AllImportant (d.applied (names.map (markName marks))) := by
  have hown : ∀ r ∈ names.eraseDups.flatMap d.ownRules, d.AddsImportant r.variants := by
    intro r hr
    obtain ⟨raw, hraw, hr⟩ := List.mem_flatMap.1 hr
    obtain ⟨c, hc, hvariants, _⟩ := exists_reading hr
    exact hvariants ▸ hadds raw (List.mem_eraseDups.1 hraw) c hc
  rw [applied_eq, allImportant_iff]
  intro n hn
  obtain ⟨r', hr', hn⟩ := List.mem_flatMap.1 hn
  rw [(sortBy_perm _ _).mem_iff] at hr'
  obtain ⟨r, hr, hmarked⟩ := exists_of_forall₂ (h.ownRules hd) hr'
  exact allImportant_iff.1 (hmarked.important (hown r hr)) n hn

end DesignSystem

private theorem append_mark_lt_append_mark {xs ys : List Char} (hxs : ∀ c ∈ xs, '!' < c)
    (hys : ∀ c ∈ ys, '!' < c) : xs ++ ['!'] < ys ++ ['!'] ↔ xs < ys := by
  induction xs generalizing ys with
  | nil =>
    cases ys with
    | nil => simp
    | cons y ys => simp [List.cons_lt_cons_iff, hys y List.mem_cons_self]
  | cons x xs ih =>
    rw [List.forall_mem_cons] at hxs
    cases ys with
    | nil =>
      have hne : x ≠ '!' := hxs.1.ne'
      simp [List.cons_lt_cons_iff, hne, hxs.1.not_gt]
    | cons y ys =>
      rw [List.forall_mem_cons] at hys
      simp only [List.cons_append, List.cons_lt_cons_iff, ih hxs.2 hys.2]

/-- A mark comes before the other characters of a name, as the end of the name does. -/
theorem compare_append_mark {a b : String} (ha : ∀ c ∈ a.toList, '!' < c)
    (hb : ∀ c ∈ b.toList, '!' < c) : compare (a ++ "!") (b ++ "!") = compare a b := by
  have hlt : a ++ "!" < b ++ "!" ↔ a < b := by
    rw [String.lt_iff_toList_lt, String.lt_iff_toList_lt, String.toList_append,
      String.toList_append]
    exact append_mark_lt_append_mark ha hb
  have heq : a ++ "!" = b ++ "!" ↔ a = b := by
    rw [← String.toList_inj, ← String.toList_inj, String.toList_append, String.toList_append,
      List.append_left_inj]
  change compareOfLessAndEq _ _ = compareOfLessAndEq _ _
  simp only [compareOfLessAndEq, hlt, heq]

namespace DesignSystem

variable {d : DesignSystem} {names : List String} {marks : String → ImportantMark}

private theorem keepsTies_trailing
    (h : ∀ raw ∈ names, marks raw = .trailing ∧ ∀ c ∈ raw.toList, '!' < c) :
    d.KeepsTies names marks := by
  intro raw hraw raw' hraw' _ _ _ _ _
  obtain ⟨hmark, hchars⟩ := h raw hraw
  obtain ⟨hmark', hchars'⟩ := h raw' hraw'
  rw [markName, markName, hmark, hmark', ImportantMark.put_trailing, ImportantMark.put_trailing,
    compare_append_mark hchars hchars']

/-- One mark behind all applied names, and marks on each of them on either side, are accepted alike.
Both stand for the same nodes once the declarations that variants add are made important too, up to
the order of rules that only their names tell apart. Where the marks keep that order, as they do if
all stand behind their names, the two expansions are the same exactly if every declaration of the
second is important, as it is unless a variant adds one that is not. -/
theorem expandApply_marks (hd : d.IgnoresMarks) (h : d.Markable names marks) {plain marked : String}
    (hplain : Text.words plain = names ++ ["!important"])
    (hmarked : Text.words marked = names.map (markName marks))
    (hlast : (Text.words marked).getLast? ≠ some "!important") :
    ((∃ nodes, (d.expandApply plain).result = .ok nodes) ↔
        ∃ nodes, (d.expandApply marked).result = .ok nodes) ∧
      ∀ nodes nodes', (d.expandApply plain).result = .ok nodes →
        (d.expandApply marked).result = .ok nodes' →
        AllImportant nodes ∧ (markAllImportant nodes').Perm nodes ∧
          (d.KeepsTies names marks →
            markAllImportant nodes' = nodes ∧ (nodes' = nodes ↔ AllImportant nodes')) ∧
          ((∀ raw ∈ names, marks raw = .trailing ∧ ∀ c ∈ raw.toList, '!' < c) →
            d.KeepsTies names marks) ∧
          ((∀ raw ∈ names, ∀ c ∈ d.readings raw, d.AddsImportant c.variants) →
            AllImportant nodes') := by
  have hall : splitApplyImportant (Text.words plain) = (names, true) := by
    simp [splitApplyImportant, hplain]
  have heach : splitApplyImportant (Text.words marked) =
      (names.map (markName marks), false) := by
    rw [splitApplyImportant, if_neg hlast, hmarked]
  simp only [result_expandApply, hall, heach, if_true, Bool.false_eq_true, if_false]
  have hown : ∀ raw ∈ names, d.ownRules (markName marks raw) ≠ [] ↔ d.ownRules raw ≠ [] := by
    intro raw hraw
    rw [← List.length_pos_iff, ← List.length_pos_iff, (h.rules hd hraw).length_eq]
  refine ⟨?_, ?_⟩
  · simp only [exists_and_left, exists_eq', and_true, List.forall_mem_map]
    exact forall₂_congr fun raw hraw => (hown raw hraw).symm
  · rintro _ _ ⟨-, rfl⟩ ⟨-, rfl⟩
    have hties := h.applied_of_keepsTies hd
    refine ⟨allImportant_mark _, h.applied_perm hd, fun hkeeps => ⟨hties hkeeps, ?_⟩,
      keepsTies_trailing, h.applied_allImportant hd⟩
    rw [← hties hkeeps, eq_comm, markAllImportant_eq_self]

def mixedNames : List String :=
  ["hover:flex", "p-[1px]", "p-[2px]"]

def mixedMarks (raw : String) : ImportantMark :=
  if raw = "hover:flex" then .trailing else .leading

theorem expandApply_marks_mixed : ∃ nodes,
    ((ofTheme {}).expandApply "hover:flex p-[1px] p-[2px] !important").result = .ok nodes ∧
      ((ofTheme {}).expandApply "hover:flex! !p-[1px] !p-[2px]").result = .ok nodes ∧
      AllImportant nodes := by
  have hplain : Text.words "hover:flex p-[1px] p-[2px] !important" =
      mixedNames ++ ["!important"] := by
    decide +kernel
  have hmarked : Text.words "hover:flex! !p-[1px] !p-[2px]" =
      mixedNames.map (markName mixedMarks) := by
    decide +kernel
  have hlast : (Text.words "hover:flex! !p-[1px] !p-[2px]").getLast? ≠ some "!important" := by
    decide +kernel
  have hnames : (ofTheme {}).Markable mixedNames mixedMarks :=
    ⟨by decide +kernel, by decide +kernel⟩
  obtain ⟨haccepted, hsame⟩ :=
    expandApply_marks (ignoresMarks_ofTheme {}) hnames hplain hmarked hlast
  have hvalid : ∀ raw ∈ mixedNames, 0 < ((ofTheme {}).ownRules raw).length := by decide +kernel
  have hsplit : (splitApplyImportant (mixedNames ++ ["!important"])).1 = mixedNames := by
    decide +kernel
  obtain ⟨nodes, hnodes⟩ : ∃ nodes, ((ofTheme {}).expandApply
      "hover:flex p-[1px] p-[2px] !important").result = .ok nodes := by
    refine ⟨_, result_expandApply.2 ⟨fun raw hraw => ?_, rfl⟩⟩
    rw [hplain, hsplit] at hraw
    exact List.length_pos_iff.1 (hvalid raw hraw)
  obtain ⟨nodes', hnodes'⟩ := haccepted.1 ⟨nodes, hnodes⟩
  obtain ⟨himportant, -, hties, -, hadds⟩ := hsame nodes nodes' hnodes hnodes'
  have hequal : nodes' = nodes := (hties (by decide +kernel)).2.2 (hadds (by decide +kernel))
  exact ⟨nodes, hnodes, hequal ▸ hnodes', himportant⟩

/-- The variant `before` adds a declaration that only the mark behind all names reaches. Marks on
different sides exchange two names that tie. -/
theorem expandApply_marks_apart :
    ((ofTheme {}).expandApply "before:flex !important").result.toOption.map toCss = some
        "&::before \x7b\n  content: var(--tw-content) !important;\n  display: flex !important;\n\x7d\n" ∧
      ((ofTheme {}).expandApply "before:flex!").result.toOption.map toCss = some
        "&::before \x7b\n  content: var(--tw-content);\n  display: flex !important;\n\x7d\n" ∧
      ¬(ofTheme {}).KeepsTies ["p-[1px]", "p-[2px]"]
        fun raw => if raw = "p-[1px]" then .trailing else .leading := by
  decide +kernel

end DesignSystem

end UtilityCss
