import Mathlib
import UtilityCss.Variant.Builtin
import UtilityCss.Variant.Parser

/-!
The order of variants in the output is a total preorder on the variants that a registry can read,
and together with the order by parts it is linear. Both need that a compound variant shares its
place with no other kind of variant: within a place, compounds are compared by what they are put
around, and all others by the comparison of the place.
-/
namespace UtilityCss

open Std (TransCmp OrientedCmp LawfulEqCmp)

/-- Lexicographic comparison is transitive if its second stage is transitive where the first one
does not decide. -/
theorem isLE_then_trans {α : Type} {cmp : α → α → Ordering} [TransCmp cmp] {x y z : α}
    {p q s : Ordering}
    (h : cmp x y = .eq → cmp y z = .eq → p.isLE = true → q.isLE = true → s.isLE = true)
    (hxy : ((cmp x y).then p).isLE = true) (hyz : ((cmp y z).then q).isLE = true) :
    ((cmp x z).then s).isLE = true := by
  cases h₁ : cmp x y with
  | gt => simp [h₁] at hxy
  | lt =>
    have hle : (cmp y z).isLE = true := by
      cases h₂ : cmp y z <;> simp_all
    simp [TransCmp.lt_of_lt_of_isLE h₁ hle]
  | eq =>
    cases h₂ : cmp y z with
    | gt => simp [h₂] at hyz
    | lt => simp [TransCmp.lt_of_eq_of_lt h₁ h₂]
    | eq =>
      have hp : p.isLE = true := by simpa [h₁] using hxy
      have hq : q.isLE = true := by simpa [h₂] using hyz
      simpa [TransCmp.eq_trans h₁ h₂] using h h₁ h₂ hp hq

theorem then_eq_swap {α : Type} {cmp : α → α → Ordering} [OrientedCmp cmp] {x y : α}
    {p q : Ordering} (h : cmp x y = .eq → p = q.swap) :
    (cmp x y).then p = ((cmp y x).then q).swap := by
  rw [Ordering.swap_then, ← OrientedCmp.eq_swap]
  cases hxy : cmp x y with
  | eq => rw [h hxy]
  | _ => rfl

theorem transCmp_comap {α β : Type} {cmp : β → β → Ordering} [TransCmp cmp] (f : α → β) :
    TransCmp fun a b => cmp (f a) (f b) where
  eq_swap := OrientedCmp.eq_swap
  isLE_trans := TransCmp.isLE_trans

instance {α : Type} {cmp : α → α → Ordering} [TransCmp cmp] : TransCmp (compareOptions cmp) where
  eq_swap {a b} := by
    cases a <;> cases b <;> simp only [compareOptions, Ordering.swap]
    exact OrientedCmp.eq_swap
  isLE_trans {a b c} hab hbc := by
    cases a with
    | none => cases c <;> rfl
    | some a =>
      cases b with
      | none => simp [compareOptions] at hab
      | some b =>
        cases c with
        | none => simp [compareOptions] at hbc
        | some c =>
          simp only [compareOptions] at hab hbc ⊢
          exact TransCmp.isLE_trans hab hbc

instance {α : Type} {cmp : α → α → Ordering} [LawfulEqCmp cmp] :
    LawfulEqCmp (compareOptions cmp) where
  compare_self {a} := by cases a <;> simp [compareOptions]
  eq_of_compare {a b} h := by cases a <;> cases b <;> simp_all [compareOptions]

open VariantRegistry (compareOrders)

instance : TransCmp compareOrders where
  eq_swap {a b} := by
    cases a <;> cases b <;> simp only [compareOrders, Ordering.swap]
    exact OrientedCmp.eq_swap
  isLE_trans {a b c} hab hbc := by
    cases c with
    | none => cases a <;> rfl
    | some c =>
      cases b with
      | none => simp [compareOrders] at hbc
      | some b =>
        cases a with
        | none => simp [compareOrders] at hab
        | some a =>
          simp only [compareOrders] at hab hbc ⊢
          exact TransCmp.isLE_trans hab hbc

instance : LawfulEqCmp compareOrders where
  compare_self {a} := by cases a <;> simp [compareOrders]
  eq_of_compare {a b} h := by cases a <;> cases b <;> simp_all [compareOrders]

/-! ### The order by parts -/

def Modifier.form : Modifier → Nat
  | .named _ => 0
  | .arbitrary _ => 1

def VariantValue.form : VariantValue → Nat
  | .named _ => 0
  | .arbitrary _ => 1

theorem Modifier.order_eq :
    Modifier.order = compareLex (compareOn Modifier.form) (compareOn Modifier.text) := by
  funext a b
  cases a <;> cases b <;> rfl

theorem VariantValue.order_eq :
    VariantValue.order =
      compareLex (compareOn VariantValue.form) (compareOn VariantValue.text) := by
  funext a b
  cases a <;> cases b <;> rfl

instance : TransCmp Modifier.order := by
  rw [Modifier.order_eq]
  infer_instance

instance : TransCmp VariantValue.order := by
  rw [VariantValue.order_eq]
  infer_instance

instance : LawfulEqCmp Modifier.order where
  eq_of_compare {a b} h := by cases a <;> cases b <;> simp_all [Modifier.order]

instance : LawfulEqCmp VariantValue.order where
  eq_of_compare {a b} h := by cases a <;> cases b <;> simp_all [VariantValue.order]

namespace Variant

def orderParts : Variant → Variant → Ordering
  | .arbitrary s r, .arbitrary s' r' => (compare s s').then (compare r.toNat r'.toNat)
  | .static root, .static root' => compare root root'
  | .functional root value modifier, .functional root' value' modifier' =>
    (compare root root').then
      ((compareOptions VariantValue.order value value').then
        (compareOptions Modifier.order modifier modifier'))
  | .compound root modifier inner, .compound root' modifier' inner' =>
    (compare root root').then
      ((compareOptions Modifier.order modifier modifier').then (inner.order inner'))
  | _, _ => .eq

theorem order_eq (a b : Variant) : a.order b = (compare a.form b.form).then (a.orderParts b) := by
  cases a <;> cases b <;> simp [order, orderParts, form]

theorem order_swap (a b : Variant) : a.order b = (b.order a).swap := by
  induction a generalizing b with
  | arbitrary s r =>
    cases b with
    | arbitrary s' r' =>
      have hs : compare s s' = (compare s' s).swap := OrientedCmp.eq_swap
      have hr : compare r.toNat r'.toNat = (compare r'.toNat r.toNat).swap := OrientedCmp.eq_swap
      simp only [order, Ordering.swap_then, hs, hr]
    | _ => rfl
  | static root =>
    cases b with
    | static root' =>
      simp only [order]
      exact OrientedCmp.eq_swap
    | _ => rfl
  | functional root value modifier =>
    cases b with
    | functional root' value' modifier' =>
      have hroot : compare root root' = (compare root' root).swap := OrientedCmp.eq_swap
      have hvalue : compareOptions VariantValue.order value value' =
          (compareOptions VariantValue.order value' value).swap := OrientedCmp.eq_swap
      have hmodifier : compareOptions Modifier.order modifier modifier' =
          (compareOptions Modifier.order modifier' modifier).swap := OrientedCmp.eq_swap
      simp only [order, Ordering.swap_then, hroot, hvalue, hmodifier]
    | _ => rfl
  | compound root modifier inner ih =>
    cases b with
    | compound root' modifier' inner' =>
      have hroot : compare root root' = (compare root' root).swap := OrientedCmp.eq_swap
      have hmodifier : compareOptions Modifier.order modifier modifier' =
          (compareOptions Modifier.order modifier' modifier).swap := OrientedCmp.eq_swap
      simp only [order, Ordering.swap_then, hroot, hmodifier, ih inner']
    | _ => rfl

private theorem order_trans {a b c : Variant} (hab : (a.order b).isLE = true)
    (hbc : (b.order c).isLE = true) : (a.order c).isLE = true := by
  induction a generalizing b c with
  | arbitrary s r =>
    rw [order_eq] at hab hbc ⊢
    refine isLE_then_trans (fun h₁ h₂ hab hbc => ?_) hab hbc
    cases b <;> cases c <;> simp [form] at h₁ h₂
    exact isLE_then_trans (fun _ _ => TransCmp.isLE_trans) hab hbc
  | static root =>
    rw [order_eq] at hab hbc ⊢
    refine isLE_then_trans (fun h₁ h₂ hab hbc => ?_) hab hbc
    cases b <;> cases c <;> simp [form] at h₁ h₂
    simp only [orderParts] at hab hbc ⊢
    exact TransCmp.isLE_trans hab hbc
  | functional root value modifier =>
    rw [order_eq] at hab hbc ⊢
    refine isLE_then_trans (fun h₁ h₂ hab hbc => ?_) hab hbc
    cases b <;> cases c <;> simp [form] at h₁ h₂
    refine isLE_then_trans (fun _ _ hab hbc => ?_) hab hbc
    exact isLE_then_trans (fun _ _ => TransCmp.isLE_trans) hab hbc
  | compound root modifier inner ih =>
    rw [order_eq] at hab hbc ⊢
    refine isLE_then_trans (fun h₁ h₂ hab hbc => ?_) hab hbc
    cases b <;> cases c <;> simp [form] at h₁ h₂
    refine isLE_then_trans (fun _ _ hab hbc => ?_) hab hbc
    exact isLE_then_trans (fun _ _ => ih) hab hbc

instance : TransCmp order where
  eq_swap := order_swap _ _
  isLE_trans := order_trans

instance : LawfulEqCmp order where
  eq_of_compare {a b} h := by
    induction a generalizing b with
    | arbitrary s r =>
      cases b with
      | arbitrary s' r' =>
        simp only [order, Ordering.then_eq_eq, Std.compare_eq_iff_eq] at h
        obtain ⟨rfl, hr⟩ := h
        cases r <;> cases r' <;> simp_all
      | _ => simp [order, form] at h
    | static root =>
      cases b <;> simp [order, form] at h
      rw [h]
    | functional root value modifier =>
      cases b <;> simp [order, form] at h
      obtain ⟨rfl, rfl, rfl⟩ := h
      rfl
    | compound root modifier inner ih =>
      cases b <;> simp [order, form] at h
      obtain ⟨rfl, rfl, hinner⟩ := h
      rw [ih hinner]

end Variant

/-! ### The order of a registry -/

namespace VariantRegistry

/-- The variants that a registry can read: every name is registered with the kind of the variant. -/
def Admits (r : VariantRegistry) : Variant → Prop
  | .arbitrary .. => True
  | .static root => r.kind? root = some .static
  | .functional root .. => r.kind? root = some .functional
  | .compound root _ inner => r.kind? root = some .compound ∧ r.Admits inner

/-- What makes the order of a registry total: a compound variant shares its place with compounds
only, and the comparisons of groups are total preorders. -/
structure Ordered (r : VariantRegistry) : Prop where
  compounds_apart : ∀ a b, r.order? a = r.order? b → r.kind? a = some .compound →
    (r.kind? b).isSome → r.kind? b = some .compound
  comparisons_total : ∀ order f, r.comparisons.lookup order = some f →
    ∀ theme, TransCmp fun a b => f a b theme

def place? (r : VariantRegistry) (v : Variant) : Option Nat :=
  v.root?.bind r.order?

def compareGroup (r : VariantRegistry) (theme : Theme) (order : Nat) (a b : Variant) : Ordering :=
  match r.comparisons.lookup order with
  | some f => f a b theme
  | none =>
    (Ord.compare (a.root?.getD "") (b.root?.getD "")).then
      (compareOptions Ord.compare (a.value?.map VariantValue.text) (b.value?.map VariantValue.text))

def compareInPlace (r : VariantRegistry) (theme : Theme) : Variant → Variant → Ordering
  | .arbitrary s _, .arbitrary s' _ => Ord.compare s s'
  | .compound _ modifier inner, .compound _ modifier' inner' =>
    (r.compare theme inner inner').then
      (compareOptions Ord.compare (modifier.map Modifier.text) (modifier'.map Modifier.text))
  | a, b => r.compareWithin theme a b

variable {r : VariantRegistry} {theme : Theme} {a b c : Variant}

theorem compareGroup_trans (hr : r.Ordered) (theme : Theme) (order : Nat) :
    TransCmp (r.compareGroup theme order) := by
  unfold compareGroup
  cases h : r.comparisons.lookup order with
  | some f => exact hr.comparisons_total order f h theme
  | none =>
    have hroot : TransCmp fun a b : Variant => Ord.compare (a.root?.getD "") (b.root?.getD "") :=
      transCmp_comap fun v : Variant => v.root?.getD ""
    have hvalue : TransCmp fun a b : Variant => compareOptions Ord.compare
        (a.value?.map VariantValue.text) (b.value?.map VariantValue.text) :=
      transCmp_comap fun v : Variant => v.value?.map VariantValue.text
    exact inferInstanceAs (TransCmp (compareLex
      (fun a b : Variant => Ord.compare (a.root?.getD "") (b.root?.getD ""))
      (fun a b : Variant => compareOptions Ord.compare
        (a.value?.map VariantValue.text) (b.value?.map VariantValue.text))))

theorem compareWithin_eq {order : Nat} (ha : r.place? a = some order) :
    r.compareWithin theme a b = r.compareGroup theme order a b := by
  have hroot : r.order? (a.root?.getD "") = some order := by
    cases h : a.root? <;> simp_all [place?]
  unfold compareWithin compareGroup
  dsimp only
  rw [hroot]
  rfl

theorem exists_place? (ha : r.Admits a) (h : a.root?.isSome) :
    ∃ order, r.place? a = some order := by
  cases a with
  | arbitrary s rel => simp [Variant.root?] at h
  | static root | functional root | compound root =>
    cases hget : r.get? root <;> simp_all [Admits, kind?, place?, order?, Variant.root?]

theorem compare_eq (ha : r.Admits a) (hb : r.Admits b) (h : a ≠ b) :
    r.compare theme a b =
      (compareOrders (r.place? a) (r.place? b)).then (r.compareInPlace theme a b) := by
  unfold compare
  rw [if_neg h]
  cases a with
  | arbitrary s rel =>
    cases b with
    | arbitrary s' rel' => rfl
    | _ =>
      obtain ⟨order, horder⟩ := exists_place? hb rfl
      rw [horder]
      rfl
  | _ =>
    cases b with
    | arbitrary s' rel' =>
      obtain ⟨order, horder⟩ := exists_place? ha rfl
      rw [horder]
      rfl
    | _ => rfl

def sortOf : Variant → Nat
  | .arbitrary .. => 0
  | .compound .. => 1
  | _ => 2

theorem sortOf_eq_one (hr : r.Ordered) {root : String} {m : Option Modifier} {inner : Variant}
    (ha : r.Admits (.compound root m inner)) (hb : r.Admits b)
    (hplace : r.place? (.compound root m inner) = r.place? b) : sortOf b = 1 := by
  cases b with
  | compound => rfl
  | arbitrary s rel =>
    obtain ⟨order, horder⟩ := exists_place? ha rfl
    rw [hplace] at horder
    exact nomatch horder
  | static root' =>
    have hkind : r.kind? root' = some .static := hb
    have := hr.compounds_apart root root' hplace ha.1 (by simp [hkind])
    simp [hkind] at this
  | functional root' value m' =>
    have hkind : r.kind? root' = some .functional := hb
    have := hr.compounds_apart root root' hplace ha.1 (by simp [hkind])
    simp [hkind] at this

theorem sortOf_eq (hr : r.Ordered) (ha : r.Admits a) (hb : r.Admits b)
    (hplace : r.place? a = r.place? b) : sortOf a = sortOf b := by
  cases a with
  | compound root m inner => exact (sortOf_eq_one hr ha hb hplace).symm
  | arbitrary s rel =>
    cases b with
    | arbitrary => rfl
    | _ =>
      obtain ⟨order, horder⟩ := exists_place? hb rfl
      rw [← hplace] at horder
      exact nomatch horder
  | _ =>
    cases b with
    | compound root m inner => exact sortOf_eq_one hr hb ha hplace.symm
    | arbitrary s rel =>
      obtain ⟨order, horder⟩ := exists_place? ha rfl
      rw [hplace] at horder
      exact nomatch horder
    | _ => rfl

theorem compareInPlace_eq_group {order : Nat} (hsort : sortOf a = 2)
    (hplace : r.place? a = some order) :
    r.compareInPlace theme a b = r.compareGroup theme order a b := by
  rw [← compareWithin_eq hplace]
  cases a <;> simp [sortOf] at hsort <;> rfl

theorem compare_self : r.compare theme a a = .eq := by
  unfold compare
  simp

def compareOnly (r : VariantRegistry) (theme : Theme) (p : Variant → Prop) (a b : Subtype p) :
    Ordering :=
  r.compare theme a.1 b.1

section Step

-- What compounds are put around satisfies `q`, on which the comparison is known to be total.
variable {p q : Variant → Prop} (hr : r.Ordered) (hp : ∀ v, p v → r.Admits v)
  (hq : ∀ root m inner, p (.compound root m inner) → q inner)

include hr hp hq

theorem compareInPlace_swap [TransCmp (r.compareOnly theme q)] (ha : p a) (hb : p b)
    (hplace : r.place? a = r.place? b) :
    r.compareInPlace theme a b = (r.compareInPlace theme b a).swap := by
  have hsort := sortOf_eq hr (hp a ha) (hp b hb) hplace
  cases a with
  | arbitrary s rel =>
    cases b <;> simp [sortOf] at hsort
    simp only [compareInPlace]
    exact OrientedCmp.eq_swap
  | compound root m inner =>
    cases b <;> simp [sortOf] at hsort
    rename_i root' m' inner'
    have hinner : r.compareOnly theme q ⟨inner, hq _ _ _ ha⟩ ⟨inner', hq _ _ _ hb⟩ =
        (r.compareOnly theme q ⟨inner', hq _ _ _ hb⟩ ⟨inner, hq _ _ _ ha⟩).swap :=
      OrientedCmp.eq_swap
    simp only [compareInPlace, Ordering.swap_then]
    congr 1
    exact OrientedCmp.eq_swap
  | static | functional =>
    obtain ⟨order, horder⟩ := exists_place? (hp _ ha) rfl
    have := compareGroup_trans hr theme order
    rw [compareInPlace_eq_group rfl horder, compareInPlace_eq_group hsort.symm (hplace ▸ horder)]
    exact OrientedCmp.eq_swap

private theorem compareInPlace_trans [TransCmp (r.compareOnly theme q)] (ha : p a)
    (hb : p b) (hc : p c) (hab : r.place? a = r.place? b) (hbc : r.place? b = r.place? c)
    (h₁ : (r.compareInPlace theme a b).isLE = true)
    (h₂ : (r.compareInPlace theme b c).isLE = true) :
    (r.compareInPlace theme a c).isLE = true := by
  have hsort := sortOf_eq hr (hp a ha) (hp b hb) hab
  have hsort' := sortOf_eq hr (hp b hb) (hp c hc) hbc
  cases a with
  | arbitrary s rel =>
    cases b <;> simp [sortOf] at hsort
    cases c <;> simp [sortOf] at hsort'
    simp only [compareInPlace] at h₁ h₂ ⊢
    exact TransCmp.isLE_trans h₁ h₂
  | compound root m inner =>
    cases b <;> simp [sortOf] at hsort
    cases c <;> simp [sortOf] at hsort'
    rename_i root' m' inner' root'' m'' inner''
    let x : Subtype q := ⟨inner, hq _ _ _ ha⟩
    let y : Subtype q := ⟨inner', hq _ _ _ hb⟩
    let z : Subtype q := ⟨inner'', hq _ _ _ hc⟩
    change ((r.compareOnly theme q x y).then _).isLE = true at h₁
    change ((r.compareOnly theme q y z).then _).isLE = true at h₂
    show ((r.compareOnly theme q x z).then _).isLE = true
    exact isLE_then_trans (fun _ _ => TransCmp.isLE_trans) h₁ h₂
  | static | functional =>
    obtain ⟨order, horder⟩ := exists_place? (hp _ ha) rfl
    have hgroup := compareGroup_trans hr theme order
    rw [compareInPlace_eq_group rfl horder] at h₁ ⊢
    rw [compareInPlace_eq_group hsort.symm (hab ▸ horder)] at h₂
    exact TransCmp.isLE_trans h₁ h₂

theorem compareOnly_trans_step (h : TransCmp (r.compareOnly theme q)) :
    TransCmp (r.compareOnly theme p) where
  eq_swap {a b} := by
    show r.compare theme a.1 b.1 = (r.compare theme b.1 a.1).swap
    by_cases hab : a.1 = b.1
    · rw [hab, compare_self]
      rfl
    · rw [compare_eq (hp _ a.2) (hp _ b.2) hab, compare_eq (hp _ b.2) (hp _ a.2) (Ne.symm hab)]
      refine then_eq_swap fun hplace => ?_
      exact compareInPlace_swap hr hp hq a.2 b.2 (LawfulEqCmp.eq_of_compare hplace)
  isLE_trans {a b c} h₁ h₂ := by
    change (r.compare theme a.1 b.1).isLE = true at h₁
    change (r.compare theme b.1 c.1).isLE = true at h₂
    show (r.compare theme a.1 c.1).isLE = true
    by_cases hab : a.1 = b.1
    · rwa [hab]
    by_cases hbc : b.1 = c.1
    · rwa [← hbc]
    by_cases hac : a.1 = c.1
    · rw [hac, compare_self]
      rfl
    rw [compare_eq (hp _ a.2) (hp _ b.2) hab] at h₁
    rw [compare_eq (hp _ b.2) (hp _ c.2) hbc] at h₂
    rw [compare_eq (hp _ a.2) (hp _ c.2) hac]
    refine isLE_then_trans (fun e₁ e₂ h₁ h₂ => ?_) h₁ h₂
    exact compareInPlace_trans hr hp hq a.2 b.2 c.2 (LawfulEqCmp.eq_of_compare e₁)
      (LawfulEqCmp.eq_of_compare e₂) h₁ h₂

end Step

def depth : Variant → Nat
  | .compound _ _ inner => depth inner + 1
  | _ => 0

theorem compareOnly_trans_depth (hr : r.Ordered) (theme : Theme) (n : Nat) :
    TransCmp (r.compareOnly theme fun v => r.Admits v ∧ depth v ≤ n) := by
  induction n with
  | zero =>
    have hnone : TransCmp (r.compareOnly theme fun _ => False) :=
      { eq_swap := fun {a} => a.2.elim, isLE_trans := fun {a} => a.2.elim }
    refine compareOnly_trans_step hr (fun v hv => hv.1) ?_ hnone
    intro root m inner h
    exact Nat.not_succ_le_zero _ h.2
  | succ n ih =>
    refine compareOnly_trans_step hr (fun v hv => hv.1) ?_ ih
    intro root m inner h
    exact ⟨h.1.2, Nat.le_of_succ_le_succ h.2⟩

theorem compareOnly_trans (hr : r.Ordered) (theme : Theme) :
    TransCmp (r.compareOnly theme r.Admits) where
  eq_swap {a b} := by
    have h := compareOnly_trans_depth hr theme (max (depth a.1) (depth b.1))
    let x : { v // r.Admits v ∧ depth v ≤ max (depth a.1) (depth b.1) } := ⟨a.1, a.2, by omega⟩
    let y : { v // r.Admits v ∧ depth v ≤ max (depth a.1) (depth b.1) } := ⟨b.1, b.2, by omega⟩
    exact h.eq_swap (a := x) (b := y)
  isLE_trans {a b c} := by
    let n := max (depth a.1) (max (depth b.1) (depth c.1))
    have h := compareOnly_trans_depth hr theme n
    let x : { v // r.Admits v ∧ depth v ≤ n } := ⟨a.1, a.2, by omega⟩
    let y : { v // r.Admits v ∧ depth v ≤ n } := ⟨b.1, b.2, by omega⟩
    let z : { v // r.Admits v ∧ depth v ≤ n } := ⟨c.1, c.2, by omega⟩
    exact h.isLE_trans (a := x) (b := y) (c := z)

/-- The order by which ranks are given: the parts decide where the registry does not. -/
def compareThenParts (r : VariantRegistry) (theme : Theme) (a b : Variant) : Ordering :=
  (r.compare theme a b).then (a.order b)

def rankOrder (r : VariantRegistry) (theme : Theme) (a b : { v // r.Admits v }) : Ordering :=
  r.compareThenParts theme a.1 b.1

theorem rankOrder_trans (hr : r.Ordered) (theme : Theme) : TransCmp (r.rankOrder theme) := by
  have hcompare := compareOnly_trans hr theme
  have horder : TransCmp fun a b : { v // r.Admits v } => a.1.order b.1 :=
    transCmp_comap Subtype.val
  exact inferInstanceAs (TransCmp (compareLex (r.compareOnly theme r.Admits)
    fun a b : { v // r.Admits v } => a.1.order b.1))

theorem eq_of_rankOrder {a b : { v // r.Admits v }} (h : r.rankOrder theme a b = .eq) : a = b :=
  Subtype.ext (LawfulEqCmp.eq_of_compare (Ordering.then_eq_eq.1 h).2)

end VariantRegistry

end UtilityCss
