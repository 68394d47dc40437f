import UtilityCss.DesignSystem
import UtilityCss.Proofs.NameReading
import UtilityCss.Proofs.VariantOrder

/-!
Registering variants. Whatever is registered, with groups inside groups, places are shared only in
groups. The built-in variants are registrations as well, so what holds of each of them is found by
one pass over a list. No compound is registered in a group or behind one, so the order of every
registry that starts from the built-in variants is total.
-/
namespace UtilityCss

open Std (TransCmp OrientedCmp LawfulEqCmp)

inductive Registration where
  | variant (name : String) (kind : VariantKind) (apply : VariantApply)
      (wraps compounds : Compounds)
  | group (compare : Option VariantCompare) (members : List Registration)

namespace VariantRegistry

theorem mem_of_lookup {α β : Type} [BEq α] [LawfulBEq α] {entries : List (α × β)} {k : α} {b : β}
    (h : entries.lookup k = some b) : (k, b) ∈ entries := by
  obtain ⟨before, after, rfl, _⟩ := List.lookup_eq_some_iff.1 h
  simp

private theorem lookup_replace {α : Type} (definitions : List (String × α))
    (name k : String) (d : α) :
    (definitions.map fun (n, old) => (n, if n = name then d else old)).lookup k =
      if k = name then (definitions.lookup k).map fun _ => d else definitions.lookup k := by
  induction definitions with
  | nil => simp
  | cons entry rest ih =>
    obtain ⟨n, old⟩ := entry
    simp only [List.map_cons, List.lookup_cons, ih]
    by_cases hk : k = n
    · by_cases hn : n = name <;> simp_all
    · simp only [beq_eq_false_iff_ne.2 hk]

variable (r : VariantRegistry) (name : String) (kind : VariantKind) (apply : VariantApply)
  (wraps compounds : Compounds)

def placeFor : Nat :=
  (r.order? name).getD r.nextOrder

@[simp] theorem get?_set (k : String) :
    (r.set name kind apply wraps compounds).get? k =
      if k = name then some ⟨kind, r.placeFor name, apply, wraps, compounds⟩ else r.get? k := by
  unfold set placeFor
  cases h : r.order? name with
  | some order =>
    have hname : (r.definitions.lookup name).isSome := by
      cases hget : r.definitions.lookup name <;> simp_all [order?, get?]
    simp only [get?, lookup_replace, Option.getD_some]
    split
    · subst k
      obtain ⟨d, hd⟩ := Option.isSome_iff_exists.1 hname
      simp [hd]
    · rfl
  | none =>
    have hname : r.definitions.lookup name = none := by
      cases hget : r.definitions.lookup name <;> simp_all [order?, get?]
    simp only [get?, List.lookup_append, List.lookup_cons, List.lookup_nil, Option.getD_none]
    by_cases hk : k = name
    · simp [hk, hname]
    · simp [hk, beq_eq_false_iff_ne.2 hk]

@[simp] theorem groupOrder_set :
    (r.set name kind apply wraps compounds).groupOrder = r.groupOrder := by
  unfold set
  split <;> rfl

@[simp] theorem comparisons_set :
    (r.set name kind apply wraps compounds).comparisons = r.comparisons := by
  unfold set
  split <;> rfl

theorem lastOrder_le_set : r.lastOrder ≤ (r.set name kind apply wraps compounds).lastOrder := by
  unfold set
  split
  · exact Nat.le_refl _
  · exact Nat.le_max_left _ _

theorem placeFor_le_set (h : ∀ order, r.order? name = some order → order ≤ r.lastOrder) :
    r.placeFor name ≤ (r.set name kind apply wraps compounds).lastOrder := by
  unfold set placeFor
  split
  next order horder => simpa [horder] using h order horder
  next horder => simp [horder]

end VariantRegistry

namespace VariantRegistry

variable {r : VariantRegistry} {groups : List Nat}

/-- Variants share a place only in a group. -/
structure Shares (r : VariantRegistry) (groups : List Nat) : Prop where
  shared : ∀ a b d d', r.get? a = some d → r.get? b = some d' → a ≠ b → d.order = d'.order →
    d.order ∈ groups
  order_le : ∀ a d, r.get? a = some d → d.order ≤ r.lastOrder
  -- a group that is being registered is counted before its first variant is
  open_group : ∀ order, r.groupOrder = some order → order ∈ groups

private theorem placeFor_of_get? {name : String} {d : VariantDefinition}
    (h : r.get? name = some d) : r.placeFor name = d.order := by
  simp [placeFor, order?, h]

private theorem placeFor_of_new {name : String} (h : r.get? name = none) :
    r.placeFor name = r.nextOrder := by
  simp [placeFor, order?, h]

/-- A place that a variant gets and that another one has is the place of a group. -/
theorem Shares.placeFor_mem (h : r.Shares groups) {name other : String} {d : VariantDefinition}
    (hd : r.get? other = some d) (hne : name ≠ other) (heq : r.placeFor name = d.order) :
    d.order ∈ groups := by
  cases hname : r.get? name with
  | some old =>
    have hold := placeFor_of_get? hname
    exact h.shared other name d old hd hname (Ne.symm hne) (heq.symm.trans hold)
  | none =>
    rw [placeFor_of_new hname] at heq
    cases hgroup : r.groupOrder with
    | some order =>
      have : order = d.order := by simpa [nextOrder, hgroup] using heq
      exact this ▸ h.open_group order hgroup
    | none =>
      have hle := h.order_le other d hd
      simp [nextOrder, hgroup] at heq
      omega

theorem Shares.set (h : r.Shares groups) (name : String) (kind : VariantKind)
    (apply : VariantApply) (wraps compounds : Compounds) :
    (r.set name kind apply wraps compounds).Shares groups where
  shared a b d d' ha hb hab heq := by
    simp only [get?_set] at ha hb
    split at ha
    next hname =>
      cases ha
      rw [if_neg (fun hb' => hab (hname.trans hb'.symm))] at hb
      exact heq ▸ h.placeFor_mem hb (fun h' => hab (hname.trans h')) heq
    next hname =>
      split at hb
      next hname' =>
        cases hb
        exact h.placeFor_mem ha (Ne.symm hname) heq.symm
      next => exact h.shared a b d d' ha hb hab heq
  order_le a d ha := by
    simp only [get?_set] at ha
    split at ha
    next =>
      cases ha
      refine placeFor_le_set r name kind apply wraps compounds fun order horder => ?_
      obtain ⟨old, hold, rfl⟩ := Option.map_eq_some_iff.1 horder
      exact h.order_le name old hold
    next => exact Nat.le_trans (h.order_le a d ha) (lastOrder_le_set ..)
  open_group order horder := h.open_group order (by simpa using horder)

theorem Shares.ordered (h : r.Shares groups)
    (happart : ∀ a d, r.get? a = some d → d.kind = .compound → d.order ∉ groups)
    (htotal : ∀ order f, r.comparisons.lookup order = some f →
      ∀ theme, TransCmp fun a b => f a b theme) : r.Ordered where
  compounds_apart a b horder hkind hb := by
    by_cases hab : a = b
    · rwa [← hab]
    obtain ⟨d, hd, hdk⟩ := Option.map_eq_some_iff.1 hkind
    obtain ⟨_, hk⟩ := Option.isSome_iff_exists.1 hb
    obtain ⟨d', hd', _⟩ := Option.map_eq_some_iff.1 hk
    have heq : d.order = d'.order := by simpa [order?, hd, hd'] using horder
    exact absurd (h.shared a b d d' hd hd' hab heq) (happart a d hd hdk)
  comparisons_total := htotal

def opened (r : VariantRegistry) (compare : Option VariantCompare) : VariantRegistry :=
  { r with
    groupOrder := some r.nextOrder
    comparisons := match compare with
      | some f => (r.nextOrder, f) :: r.comparisons
      | none => r.comparisons }

mutual

def register (r : VariantRegistry) : Registration → VariantRegistry
  | .variant name kind apply wraps compounds => r.set name kind apply wraps compounds
  | .group compare members => r.group compare fun r => r.registerAll members

def registerAll (r : VariantRegistry) : List Registration → VariantRegistry
  | [] => r
  | x :: xs => (r.register x).registerAll xs

end

mutual

def groupsOf (r : VariantRegistry) : Registration → List Nat
  | .variant .. => []
  | .group compare members => r.nextOrder :: (r.opened compare).groupsOfAll members

def groupsOfAll (r : VariantRegistry) : List Registration → List Nat
  | [] => []
  | x :: xs => r.groupsOf x ++ (r.register x).groupsOfAll xs

end

theorem Shares.mono {more : List Nat} (h : r.Shares groups) (hsub : groups ⊆ more) :
    r.Shares more where
  shared a b d d' ha hb hab heq := hsub (h.shared a b d d' ha hb hab heq)
  order_le := h.order_le
  open_group order horder := hsub (h.open_group order horder)

theorem Shares.opened (h : r.Shares groups) (compare : Option VariantCompare) :
    (r.opened compare).Shares (r.nextOrder :: groups) where
  shared a b d d' ha hb hab heq := List.mem_cons_of_mem _ (h.shared a b d d' ha hb hab heq)
  order_le := h.order_le
  open_group order horder := by
    cases horder
    exact List.mem_cons_self

theorem Shares.group (compare : Option VariantCompare) {members : VariantRegistry → VariantRegistry}
    (h : (members (r.opened compare)).Shares groups) : (r.group compare members).Shares groups where
  shared := h.shared
  order_le a d ha := Nat.le_trans (h.order_le a d ha) (Nat.le_max_left _ _)
  open_group _ horder := nomatch horder

mutual

theorem Shares.register : ∀ (x : Registration) {r : VariantRegistry} {groups : List Nat},
    r.Shares groups → (r.register x).Shares (r.groupsOf x ++ groups)
  | .variant name kind apply wraps compounds, r, groups, h => by
    rw [VariantRegistry.register, groupsOf, List.nil_append]
    exact h.set name kind apply wraps compounds
  | .group compare members, r, groups, h => by
    rw [VariantRegistry.register, groupsOf]
    apply Shares.group
    apply (Shares.registerAll members (h.opened compare)).mono
    intro order horder
    simp only [List.mem_append, List.mem_cons] at horder ⊢
    tauto

theorem Shares.registerAll : ∀ (xs : List Registration) {r : VariantRegistry} {groups : List Nat},
    r.Shares groups → (r.registerAll xs).Shares (r.groupsOfAll xs ++ groups)
  | [], r, groups, h => by
    rw [VariantRegistry.registerAll, groupsOfAll, List.nil_append]
    exact h
  | x :: xs, r, groups, h => by
    rw [VariantRegistry.registerAll, groupsOfAll]
    apply (Shares.registerAll xs (Shares.register x h)).mono
    intro order horder
    simp only [List.mem_append] at horder ⊢
    tauto

end

/-! ### What every registration satisfies -/

def Each (r : VariantRegistry) (Q : String → VariantDefinition → Prop) : Prop :=
  ∀ name d, r.get? name = some d → Q name d

end VariantRegistry

mutual

def Registration.Each (Q : String → VariantDefinition → Prop) : Registration → Prop
  | .variant name kind apply wraps compounds => ∀ order,
      Q name ⟨kind, order, apply, wraps, compounds⟩
  | .group _ members => Registration.EachOf Q members

def Registration.EachOf (Q : String → VariantDefinition → Prop) : List Registration → Prop
  | [] => True
  | x :: xs => x.Each Q ∧ Registration.EachOf Q xs

end

theorem Registration.eachOf_iff {Q : String → VariantDefinition → Prop} {xs : List Registration} :
    Registration.EachOf Q xs ↔ ∀ x ∈ xs, x.Each Q := by
  induction xs with
  | nil => simp [EachOf]
  | cons x xs ih => simp [EachOf, ih]

namespace VariantRegistry

variable {Q : String → VariantDefinition → Prop} {r : VariantRegistry} {groups : List Nat}

theorem Each.set (h : r.Each Q) {name : String} {kind : VariantKind} {apply : VariantApply}
    {wraps compounds : Compounds} (hd : ∀ order, Q name ⟨kind, order, apply, wraps, compounds⟩) :
    (r.set name kind apply wraps compounds).Each Q := by
  intro k d hk
  rw [get?_set] at hk
  split at hk
  next hname =>
    cases hk
    exact hname ▸ hd _
  · exact h k d hk

mutual

theorem Each.register : ∀ {x : Registration} {r : VariantRegistry}, r.Each Q → x.Each Q →
    (r.register x).Each Q
  | .variant .., _, h, hx => h.set hx
  | .group _ members, r, h, hx => by
    intro k d hk
    exact Each.registerAll (r := r.opened _) h hx k d hk

theorem Each.registerAll : ∀ {xs : List Registration} {r : VariantRegistry}, r.Each Q →
    Registration.EachOf Q xs → (r.registerAll xs).Each Q
  | [], _, h, _ => h
  | x :: _, r, h, hxs => by
    have hfirst : (r.register x).Each Q := h.register hxs.1
    exact hfirst.registerAll hxs.2

end

/-! ### Places without compounds in groups -/

/-- How the places of a registry are shared: only in groups, where no compound variant stands. -/
structure Placed (r : VariantRegistry) (groups : List Nat) : Prop extends r.Shares groups where
  compound_apart : ∀ a d, r.get? a = some d → d.kind = .compound → d.order ∉ groups
  le_or_open : ∀ order ∈ groups, order ≤ r.lastOrder ∨ r.groupOrder = some order
  comparisons_total : ∀ order f, (order, f) ∈ r.comparisons →
    ∀ theme, TransCmp fun a b => f a b theme

theorem Placed.ordered (h : r.Placed groups) : r.Ordered :=
  h.toShares.ordered h.compound_apart fun order f hf =>
    h.comparisons_total order f (mem_of_lookup hf)

theorem Placed.empty : ({} : VariantRegistry).Placed [] where
  shared a b d d' h := by simp [get?] at h
  compound_apart a d h := by simp [get?] at h
  order_le a d h := by simp [get?] at h
  open_group order h := by simp at h
  le_or_open order h := by simp at h
  comparisons_total order f h := by simp at h

theorem Placed.of_mem_iff {others : List Nat} (h : r.Placed groups)
    (hmem : ∀ order, order ∈ others ↔ order ∈ groups) : r.Placed others where
  toShares := h.toShares.mono fun order horder => (hmem order).2 horder
  compound_apart a d ha hk hd := h.compound_apart a d ha hk ((hmem _).1 hd)
  le_or_open order horder := h.le_or_open order ((hmem order).1 horder)
  comparisons_total := h.comparisons_total

/-- Compounds are registered before the first group. -/
theorem Placed.set (h : r.Placed groups) (name : String) (kind : VariantKind)
    (apply : VariantApply) (wraps compounds : Compounds) (hkind : kind = .compound → groups = []) :
    (r.set name kind apply wraps compounds).Placed groups where
  toShares := h.toShares.set name kind apply wraps compounds
  compound_apart a d ha hk := by
    simp only [get?_set] at ha
    split at ha
    · cases ha
      simp [hkind hk]
    · exact h.compound_apart a d ha hk
  le_or_open order horder := by
    rw [groupOrder_set]
    exact (h.le_or_open order horder).imp_left fun hle => Nat.le_trans hle (lastOrder_le_set ..)
  comparisons_total order f hf := h.comparisons_total order f (by simpa using hf)

theorem Placed.opened (h : r.Placed groups) {compare : Option VariantCompare}
    (hcompare : ∀ f ∈ compare, ∀ theme, TransCmp fun a b => f a b theme) :
    (r.opened compare).Placed (r.nextOrder :: groups) where
  toShares := h.toShares.opened compare
  compound_apart a d ha hk hmem := by
    have hapart := h.compound_apart a d ha hk
    rcases List.mem_cons.1 hmem with hnext | hmem
    · cases hopen : r.groupOrder with
      | some order =>
        rw [nextOrder, hopen, Option.getD_some] at hnext
        exact hapart (hnext ▸ h.open_group order hopen)
      | none =>
        have hle := h.order_le a d ha
        rw [nextOrder, hopen, Option.getD_none] at hnext
        omega
    · exact hapart hmem
  le_or_open order horder := by
    rcases List.mem_cons.1 horder with rfl | horder
    · exact .inr rfl
    · refine (h.le_or_open order horder).imp_right fun hopen => ?_
      simp [VariantRegistry.opened, nextOrder, hopen]
  comparisons_total order f hf := by
    cases compare with
    | none => exact h.comparisons_total order f hf
    | some g =>
      rcases List.mem_cons.1 hf with heq | hf
      · cases heq
        exact hcompare _ rfl
      · exact h.comparisons_total order f hf

theorem Placed.group {compare : Option VariantCompare} {members : VariantRegistry → VariantRegistry}
    (h : (members (r.opened compare)).Placed groups)
    (hopen : ∀ order, (members (r.opened compare)).groupOrder = some order → order = r.nextOrder) :
    (r.group compare members).Placed groups where
  toShares := h.toShares.group compare
  compound_apart := h.compound_apart
  le_or_open order horder := by
    refine .inl ?_
    rcases h.le_or_open order horder with hle | hgroup
    · exact Nat.le_trans hle (Nat.le_max_left _ _)
    · exact hopen order hgroup ▸ Nat.le_max_right _ _
  comparisons_total := h.comparisons_total

mutual

private theorem groupOrder_register : ∀ (x : Registration) {r : VariantRegistry} {order : Nat},
    (r.register x).groupOrder = some order → r.groupOrder = some order
  | .variant name kind apply wraps compounds, r, order, h => by
    rw [VariantRegistry.register, groupOrder_set] at h
    exact h
  | .group .., _, _, h => nomatch h

theorem groupOrder_registerAll : ∀ (xs : List Registration) {r : VariantRegistry} {order : Nat},
    (r.registerAll xs).groupOrder = some order → r.groupOrder = some order
  | [], _, _, h => h
  | x :: xs, _, _, h => groupOrder_register x (groupOrder_registerAll xs h)

end

end VariantRegistry

mutual

/-- Registrations that may stand anywhere: of no compound, and of groups with total comparisons. -/
def Registration.IsPlain : Registration → Prop
  | .variant _ kind .. => kind ≠ .compound
  | .group compare members =>
    (∀ f ∈ compare, ∀ theme, TransCmp fun a b => f a b theme) ∧ Registration.ArePlain members

def Registration.ArePlain : List Registration → Prop
  | [] => True
  | x :: xs => x.IsPlain ∧ Registration.ArePlain xs

end

theorem Registration.arePlain_iff {xs : List Registration} :
    Registration.ArePlain xs ↔ ∀ x ∈ xs, x.IsPlain := by
  induction xs with
  | nil => simp [ArePlain]
  | cons x xs ih => simp [ArePlain, ih]

def Registration.isVariant : Registration → Bool
  | .variant .. => true
  | .group .. => false

namespace VariantRegistry

variable {r : VariantRegistry} {groups : List Nat}

theorem Placed.registerVariants {xs : List Registration} (h : r.Placed [])
    (hxs : ∀ x ∈ xs, x.isVariant = true) : (r.registerAll xs).Placed [] := by
  induction xs generalizing r with
  | nil => exact h
  | cons x xs ih =>
    rw [List.forall_mem_cons] at hxs
    cases x with
    | variant name kind apply wraps compounds =>
      exact ih (h.set name kind apply wraps compounds fun _ => rfl) hxs.2
    | group => cases hxs.1

mutual

theorem Placed.register : ∀ {x : Registration} {r : VariantRegistry} {groups : List Nat},
    r.Placed groups → x.IsPlain → (r.register x).Placed (r.groupsOf x ++ groups)
  | .variant name kind apply wraps compounds, r, groups, h, hx => by
    rw [VariantRegistry.register, groupsOf, List.nil_append]
    exact h.set name kind apply wraps compounds fun hkind => absurd hkind hx
  | .group compare members, r, groups, h, hx => by
    rw [VariantRegistry.register, groupsOf]
    have hmembers := Placed.registerAll (h.opened hx.1) hx.2
    refine (hmembers.group fun order horder => ?_).of_mem_iff fun order => ?_
    · have hopened := groupOrder_registerAll members horder
      exact (Option.some.inj hopened).symm
    · simp only [List.mem_append, List.mem_cons]
      tauto

theorem Placed.registerAll : ∀ {xs : List Registration} {r : VariantRegistry} {groups : List Nat},
    r.Placed groups → Registration.ArePlain xs →
      (r.registerAll xs).Placed (r.groupsOfAll xs ++ groups)
  | [], r, groups, h, _ => by
    rw [VariantRegistry.registerAll, groupsOfAll, List.nil_append]
    exact h
  | x :: xs, r, groups, h, hxs => by
    rw [VariantRegistry.registerAll, groupsOfAll]
    refine (Placed.registerAll (Placed.register h hxs.1) hxs.2).of_mem_iff fun order => ?_
    simp only [List.mem_append]
    tauto

end

end VariantRegistry

/-! ### The built-in variants -/

def compareIndices (descending : Bool) (i j : Nat) : Ordering :=
  if descending then compare j i else compare i j

instance (descending : Bool) : TransCmp (compareIndices descending) := by
  cases descending
  · exact inferInstanceAs (TransCmp fun i j : Nat => compare i j)
  · exact inferInstanceAs (TransCmp fun i j : Nat => compare j i)

def compareKeys (keys : List String) (descending : Bool) (a b : String) : Ordering :=
  match keys.idxOf? a, keys.idxOf? b with
  | some i, some j => compareIndices descending i j
  | some _, none => .lt
  | none, some _ => .gt
  | none, none => compare a b

instance (keys : List String) (descending : Bool) : TransCmp (compareKeys keys descending) where
  eq_swap {a b} := by
    unfold compareKeys
    cases keys.idxOf? a <;> cases keys.idxOf? b <;> simp only [Ordering.swap]
    · exact OrientedCmp.eq_swap
    · exact OrientedCmp.eq_swap
  isLE_trans {a b c} hab hbc := by
    unfold compareKeys at *
    cases ha : keys.idxOf? a <;> cases hb : keys.idxOf? b <;> cases hc : keys.idxOf? c <;>
      simp only [ha, hb, hc] at hab hbc ⊢ <;> try contradiction
    · exact TransCmp.isLE_trans hab hbc
    · rfl
    · rfl
    · exact TransCmp.isLE_trans hab hbc

private theorem compareBreakpoints_eq (descending : Bool) (theme : Theme) (a b : Variant) :
    compareBreakpoints descending a b theme =
      (compareKeys (theme.suffixes "--breakpoint") descending
        ((breakpointKey? a).getD "") ((breakpointKey? b).getD "")).then
          (compareOptions compare a.root? b.root?) := rfl

theorem compareBreakpoints_trans (descending : Bool) (theme : Theme) :
    TransCmp fun a b => compareBreakpoints descending a b theme := by
  let byKey (a b : Variant) : Ordering := compareKeys (theme.suffixes "--breakpoint") descending
    ((breakpointKey? a).getD "") ((breakpointKey? b).getD "")
  let byRoot (a b : Variant) : Ordering := compareOptions compare a.root? b.root?
  have hkey : TransCmp byKey := transCmp_comap fun v : Variant => (breakpointKey? v).getD ""
  have hroot : TransCmp byRoot := transCmp_comap Variant.root?
  have heq : (fun a b => compareBreakpoints descending a b theme) = compareLex byKey byRoot := by
    funext a b
    exact compareBreakpoints_eq descending theme a b
  rw [heq]
  infer_instance

namespace Registration

def nesting (name : String) (selectors : List String) : Registration :=
  .variant name .static (VariantRegistry.wrapIn selectors) .never (.ofSelectors selectors)

def beforeBreakpoints : List Registration :=
  let rule : Compounds := { styleRules := true }
  List.flatten
    [[.variant "*" .static (VariantRegistry.wrapIn [":where(& > *)"]) .never .never,
        .variant "**" .static (VariantRegistry.wrapIn [":where(& *)"]) .never .never,
        .variant "not" .compound negate .both .both,
        .variant "group" .compound (relational "group" " *") rule rule,
        .variant "peer" .compound (relational "peer" " ~ *") rule rule],
      pseudoElements.map fun (name, list) => nesting name list,
      [.variant "before" .static (VariantRegistry.contentElement "&::before") .never .never,
        .variant "after" .static (VariantRegistry.contentElement "&::after") .never .never],
      pseudoClasses.map fun (name, selector) => nesting name [selector],
      [.variant "hover" .static VariantRegistry.hover .never rule],
      interactiveClasses.map fun (name, selector) => nesting name [selector],
      [.variant "has" .compound hasInside rule rule,
        .variant "aria" .functional (attributeTest "aria" fun s => s ++ "=\"true\"") .never rule,
        .variant "data" .functional (attributeTest "data" id) .never rule],
      countingClasses.map fun (name, pseudo) =>
        .variant name .functional (counting pseudo) .never rule,
      [.variant "supports" .functional supports .never { atRules := true }],
      preferenceQueries.map fun (name, selector) => nesting name [selector]]

def fromBreakpoints (theme : Theme) : List Registration :=
  let query : Compounds := { atRules := true }
  let widths : List Registration := (theme.suffixes "--breakpoint").map fun name =>
    .variant name .static (widthQuery ">=") .never query
  [.group (some (compareBreakpoints true))
    [.variant "max" .functional (widthQuery "<") .never query],
    .group (some (compareBreakpoints false))
      (widths ++ [.variant "min" .functional (widthQuery ">=") .never query])] ++
  environmentQueries.map fun (name, selector) => nesting name [selector]

end Registration

namespace VariantRegistry

variable {r : VariantRegistry}

theorem registerAll_append (r : VariantRegistry) (xs ys : List Registration) :
    r.registerAll (xs ++ ys) = (r.registerAll xs).registerAll ys := by
  induction xs generalizing r with
  | nil => rfl
  | cons x xs ih => exact ih (r.register x)

private theorem registerAll_map {α : Type} (r : VariantRegistry) (f : α → Registration)
    (xs : List α) : r.registerAll (xs.map f) = xs.foldl (fun r x => r.register (f x)) r := by
  induction xs generalizing r with
  | nil => rfl
  | cons x xs ih => exact ih (r.register (f x))

theorem builtin_eq_registerAll (theme : Theme) :
    builtin theme = ({} : VariantRegistry).registerAll
      (Registration.beforeBreakpoints ++ Registration.fromBreakpoints theme) := by
  simp only [Registration.beforeBreakpoints, Registration.fromBreakpoints, List.flatten_cons,
    List.flatten_nil, registerAll_append, registerAll_map, registerAll, register]
  rfl

private theorem builtin_placed (theme : Theme) : ∃ groups, (builtin theme).Placed groups := by
  rw [builtin_eq_registerAll, registerAll_append]
  have hbefore : ∀ x ∈ Registration.beforeBreakpoints, x.isVariant = true := by decide +kernel
  refine ⟨_, (Placed.empty.registerVariants hbefore).registerAll ?_⟩
  have hcompare : ∀ descending, ∀ f ∈ some (compareBreakpoints descending),
      ∀ theme, TransCmp fun a b => f a b theme := by
    rintro descending _ ⟨⟩
    exact compareBreakpoints_trans descending
  simp only [Registration.arePlain_iff, Registration.fromBreakpoints, List.forall_mem_append,
    List.forall_mem_map, List.forall_mem_cons, Registration.IsPlain, Registration.nesting, ne_eq,
    reduceCtorEq, not_false_eq_true, List.not_mem_nil, false_implies, implies_true, and_true]
  exact ⟨hcompare true, hcompare false⟩

/-- The registries that stylesheets and modules make: the built-in variants, and then variants of
their own, which may take the place of built-in ones. -/
inductive Extended : VariantRegistry → Prop
  | builtin (theme : Theme) : Extended (builtin theme)
  | ofSelectors {r : VariantRegistry} (name : String) (selectors : List String) :
    Extended r → Extended (r.ofSelectors name selectors)
  | ofBody {r : VariantRegistry} (name : String) (body : List Node) :
    Extended r → Extended (r.ofBody name body)

theorem Extended.ordered (h : r.Extended) : r.Ordered := by
  have hplaced : ∃ groups, r.Placed groups := by
    induction h with
    | builtin theme => exact builtin_placed theme
    | ofSelectors name selectors _ ih => exact ih.imp fun _ h => h.set _ _ _ _ _ (by simp)
    | ofBody name body _ ih => exact ih.imp fun _ h => h.set _ _ _ _ _ (by simp)
  obtain ⟨groups, hgroups⟩ := hplaced
  exact hgroups.ordered

end VariantRegistry

/-! ### What a registry reads -/

theorem Variant.parse?_admits {r : VariantRegistry} {s : String} {v : Variant}
    (h : Variant.parse? r s = some v) : r.Admits v := by
  replace h := parse?_reads h
  induction h with
  | selector _ hv =>
    obtain ⟨selector, relative, rfl⟩ := exists_of_ofSelector? hv
    exact trivial
  | static _ _ hkind => exact hkind
  | functional _ _ hkind => exact hkind
  | compound _ _ hkind _ _ _ ih => exact ⟨hkind, ih⟩

theorem DesignSystem.admits_of_mem_parse {d : DesignSystem} {raw : String} {c : Candidate}
    (hc : c ∈ d.parse raw) {v : Variant} (hv : v ∈ c.variants) : d.variants.Admits v := by
  obtain ⟨base, rawVariants, -, hparsed, -⟩ := Candidate.exists_of_mem_parse hc
  obtain ⟨s, _, hs⟩ := exists_of_mem_mapM hparsed hv
  exact Variant.parse?_admits hs

end UtilityCss
