import UtilityCss.Proofs.RuleOrder

/-!
Any sequence of registrations, with groups inside groups, shares places in groups only. So whatever
was registered, the order of the variants that a registry reads is a total preorder, as long as no
compound variant holds the place of a group and the comparisons of the groups are total preorders
themselves.
-/
namespace UtilityCss

open Std (TransCmp OrientedCmp LawfulEqCmp)

namespace VariantRegistry

variable {r : VariantRegistry} {theme : Theme}

def Reads (r : VariantRegistry) (v : Variant) : Prop :=
  ∃ s, Variant.parse? r s = some v

/-- The order of the variants that a registry reads is a total preorder in which the places decide
first, and with the order by parts behind it a strict total order. -/
structure TotallyOrders (r : VariantRegistry) (theme : Theme) : Prop where
  swap : ∀ a b, r.Reads a → r.Reads b → r.compare theme a b = (r.compare theme b a).swap
  trans : ∀ a b c, r.Reads a → r.Reads b → r.Reads c → (r.compare theme a b).isLE = true →
    (r.compare theme b c).isLE = true → (r.compare theme a c).isLE = true
  equal : Equivalence fun a b : { v // r.Reads v } => r.compare theme a.1 b.1 = .eq
  place_first : ∀ a b, r.Reads a → r.Reads b →
    compareOrders (r.place? a) (r.place? b) = .lt → r.compare theme a b = .lt
  parts_swap : ∀ a b, r.Reads a → r.Reads b →
    r.compareThenParts theme a b = (r.compareThenParts theme b a).swap
  parts_trans : ∀ a b c, r.Reads a → r.Reads b → r.Reads c → r.compareThenParts theme a b = .lt →
    r.compareThenParts theme b c = .lt → r.compareThenParts theme a c = .lt
  parts_equal : ∀ a b, r.Reads a → r.Reads b → (r.compareThenParts theme a b = .eq ↔ a = b)

theorem Reads.admits {v : Variant} (h : r.Reads v) : r.Admits v := by
  obtain ⟨s, hs⟩ := h
  exact Variant.parse?_admits hs

theorem Ordered.totallyOrders (hr : r.Ordered) (theme : Theme) : r.TotallyOrders theme := by
  have hcompare := compareOnly_trans hr theme
  have hrank := rankOrder_trans hr theme
  have hsymm : ∀ a b, r.compareOnly theme r.Admits a b = .eq →
      r.compareOnly theme r.Admits b a = .eq := fun _ _ => OrientedCmp.eq_symm
  have htrans : ∀ a b c, r.compareOnly theme r.Admits a b = .eq →
      r.compareOnly theme r.Admits b c = .eq → r.compareOnly theme r.Admits a c = .eq :=
    fun _ _ _ => TransCmp.eq_trans
  have hless : ∀ a b c, r.rankOrder theme a b = .lt → r.rankOrder theme b c = .lt →
      r.rankOrder theme a c = .lt := fun _ _ _ => TransCmp.lt_trans
  have hself : ∀ a, r.rankOrder theme a a = .eq := fun _ => Std.ReflCmp.compare_self
  let known : { v // r.Reads v } → { v // r.Admits v } := fun v => ⟨v.1, v.2.admits⟩
  exact
    { swap := fun a b ha hb => hcompare.eq_swap (a := known ⟨a, ha⟩) (b := known ⟨b, hb⟩)
      trans := fun a b c ha hb hc =>
        hcompare.isLE_trans (a := known ⟨a, ha⟩) (b := known ⟨b, hb⟩) (c := known ⟨c, hc⟩)
      equal := ⟨fun _ => compare_self, fun {a b} => hsymm (known a) (known b),
        fun {a b c} => htrans (known a) (known b) (known c)⟩
      place_first := fun a b ha hb hplace => by
        have hne : a ≠ b := by
          rintro rfl
          have hsame : compareOrders (r.place? a) (r.place? a) = .eq := Std.ReflCmp.compare_self
          rw [hsame] at hplace
          cases hplace
        rw [compare_eq ha.admits hb.admits hne, hplace]
        rfl
      parts_swap := fun a b ha hb => hrank.eq_swap (a := known ⟨a, ha⟩) (b := known ⟨b, hb⟩)
      parts_trans := fun a b c ha hb hc => hless (known ⟨a, ha⟩) (known ⟨b, hb⟩) (known ⟨c, hc⟩)
      parts_equal := fun a b ha hb => by
        constructor
        · intro heq
          exact congrArg Subtype.val (eq_of_rankOrder (a := known ⟨a, ha⟩) (b := known ⟨b, hb⟩) heq)
        · rintro rfl
          exact hself (known ⟨a, ha⟩) }

private theorem shares_registerAll (registrations : List Registration) :
    ((({} : VariantRegistry).registerAll registrations).Shares
      (({} : VariantRegistry).groupsOfAll registrations)) := by
  have hempty : ({} : VariantRegistry).Shares [] := Placed.empty.toShares
  simpa only [List.append_nil] using Shares.registerAll registrations hempty

/-- The order of variants is total for every registry that registrations make, if no compound
variant holds the place of a group and the comparisons in force are total preorders. The built-in
variants over any theme, with the variants of stylesheets and modules, are ordered so without
further conditions. -/
theorem compare_total (registrations : List Registration)
    (happart : ∀ name d, (({} : VariantRegistry).registerAll registrations).get? name = some d →
      d.kind = .compound → d.order ∉ ({} : VariantRegistry).groupsOfAll registrations)
    (htotal : ∀ order f,
      (({} : VariantRegistry).registerAll registrations).comparisons.lookup order = some f →
        ∀ theme, TransCmp fun a b => f a b theme) :
    (∀ theme, (({} : VariantRegistry).registerAll registrations).TotallyOrders theme) ∧
      ∀ r : VariantRegistry, r.Extended → ∀ theme, r.TotallyOrders theme := by
  have hordered := (shares_registerAll registrations).ordered happart htotal
  exact ⟨hordered.totallyOrders, fun r hr => hr.ordered.totallyOrders⟩

def sampleRegistrations : List Registration :=
  let keep : VariantApply := fun node _ _ => some node
  [.variant "not" .compound keep .both .both,
    .group (some fun a b _ => compareOptions Ord.compare a.root? b.root?)
      [.variant "wide" .static keep .never .both,
        .group none [.variant "tall" .static keep .never .both],
        .variant "deep" .static keep .never .both],
    .variant "wide" .functional keep .never .both]

theorem compare_total_sample :
    let r := ({} : VariantRegistry).registerAll sampleRegistrations
    ({} : VariantRegistry).groupsOfAll sampleRegistrations = [2, 2] ∧
      r.definitions.map (fun (name, d) => (name, d.kind, d.order)) =
        [("not", .compound, 1), ("wide", .functional, 2), ("tall", .static, 2),
          ("deep", .static, 3)] ∧
      r.TotallyOrders {} := by
  let r := ({} : VariantRegistry).registerAll sampleRegistrations
  have hgroups : ({} : VariantRegistry).groupsOfAll sampleRegistrations = [2, 2] := rfl
  have hplaces : r.definitions.map (fun (name, d) => (name, d.kind, d.order)) =
      [("not", .compound, 1), ("wide", .functional, 2), ("tall", .static, 2),
        ("deep", .static, 3)] := rfl
  refine ⟨hgroups, hplaces, (compare_total sampleRegistrations ?_ ?_).1 {}⟩
  · intro name d hd hkind
    have hmem : (name, d.kind, d.order) ∈
        r.definitions.map fun (name, d) => (name, d.kind, d.order) :=
      List.mem_map.2 ⟨(name, d), mem_of_lookup hd, rfl⟩
    rw [hplaces, hkind] at hmem
    have hnot : name = "not" ∧ d.order = 1 := by simpa using hmem
    simp [hgroups, hnot.2]
  · intro order f hf theme
    have hmem := mem_of_lookup hf
    cases List.mem_singleton.1 hmem
    exact transCmp_comap Variant.root?

end VariantRegistry

end UtilityCss
