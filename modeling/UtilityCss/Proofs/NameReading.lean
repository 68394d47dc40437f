import Mathlib.Data.List.Forall2
import UtilityCss.Candidate.Parser

/-!
How class names are read. Each part of the reader is opened here once: what a variant, the base of a
class name and a whole class name can be read as, and from which texts.
-/
namespace UtilityCss

/-! ### Variants -/

/-- How a registry reads a variant: as a selector between brackets, or by a registered name that
stands at its start, with what the kind of the name takes behind it. -/
inductive Variant.Reads (r : VariantRegistry) : String → Variant → Prop
  | selector {s inner : String} {v : Variant} : Text.between? "[" "]" s = some inner →
    ofSelector? inner = some v → Reads r s v
  | static {s name root : String} : splitModifier? s = some (name, none) →
    (root, none) ∈ findRoots r.has name → r.kind? root = some .static → Reads r s (.static root)
  | functional {s name root : String} {valueText modifierText : Option String}
    {value : Option VariantValue} {modifier : Option Modifier} :
    splitModifier? s = some (name, modifierText) → (root, valueText) ∈ findRoots r.has name →
    r.kind? root = some .functional → parseValue? valueText = some (some value) →
    Modifier.parseOptional? modifierText = some modifier →
      Reads r s (.functional root value modifier)
  | compound {s name root innerText : String} {modifierText : Option String} {inner : Variant}
    {modifier : Option Modifier} :
    splitModifier? s = some (name, modifierText) → (root, some innerText) ∈ findRoots r.has name →
    r.kind? root = some .compound → r.mayWrap root inner = true →
    Modifier.parseOptional? modifierText = some modifier → Reads r innerText inner →
    Reads r s (.compound root modifier inner)

theorem Variant.parse?_reads {r : VariantRegistry} {s : String} {v : Variant}
    (h : Variant.parse? r s = some v) : Reads r s v := by
  fun_induction Variant.parse? r s generalizing v with
  | case1 s inner hinner => exact .selector hinner h
  | case2 => exact nomatch h
  | case3 s hs name modifier hname ih =>
    obtain ⟨⟨⟨root, value⟩, hmem⟩, _, hread⟩ :=
      List.exists_of_findSome?_eq_some (Option.join_eq_some_iff.1 h)
    dsimp only at hread
    split at hread
    · simp at hread
    next hkind =>
      split at hread
      · simp at hread
      next hbare =>
        cases hread
        simp only [Bool.or_eq_true, not_or, Bool.not_eq_true, Option.isSome_eq_false_iff,
          Option.isNone_iff_eq_none] at hbare
        obtain ⟨rfl, rfl⟩ := hbare
        exact .static hname hmem hkind
    next hkind =>
      split at hread
      · simp at hread
      next modifier hmodifier =>
        obtain ⟨value, hvalue, hread⟩ := Option.map_eq_some_iff.1 hread
        obtain ⟨value, rfl, rfl⟩ := Option.map_eq_some_iff.1 hread
        exact .functional hname hmem hkind hvalue hmodifier
    next hkind =>
      split at hread
      · simp at hread
      next inner hmem _ _ =>
        obtain ⟨v', hv', hread⟩ := Option.bind_eq_some_iff.1 (Option.some.inj hread)
        split at hread
        · exact nomatch hread
        next hwrap =>
          obtain ⟨modifier, hmodifier, heq⟩ := Option.bind_eq_some_iff.1 hread
          cases heq
          exact .compound hname hmem hkind (by simpa using hwrap) hmodifier (ih root inner hmem hv')

theorem Variant.exists_of_ofSelector? {inner : String} {v : Variant}
    (h : ofSelector? inner = some v) : ∃ selector relative, v = .arbitrary selector relative := by
  unfold ofSelector? at h
  split at h
  · exact nomatch h
  · obtain ⟨selector, _, rfl⟩ := Option.map_eq_some_iff.1 h
    exact ⟨_, _, rfl⟩

/-! ### Bases -/

theorem forall₂_of_mapM {α β : Type} {f : α → Option β} {xs : List α} {ys : List β}
    (h : xs.mapM f = some ys) : List.Forall₂ (fun x y => f x = some y) xs ys := by
  induction xs generalizing ys with
  | nil =>
    cases h
    exact .nil
  | cons x xs ih =>
    rw [List.mapM_cons] at h
    obtain ⟨first, hfirst, h⟩ := Option.bind_eq_some_iff.1 h
    obtain ⟨rest, hrest, h⟩ := Option.bind_eq_some_iff.1 h
    cases h
    exact .cons hfirst (ih hrest)

theorem exists_of_mem_mapM {α β : Type} {f : α → Option β} {xs : List α} {ys : List β}
    (h : xs.mapM f = some ys) {y : β} (hy : y ∈ ys) : ∃ x ∈ xs, f x = some y := by
  replace h := forall₂_of_mapM h
  induction h with
  | nil => simp at hy
  | cons hfirst _ ih =>
    rcases List.mem_cons.1 hy with rfl | hy
    · exact ⟨_, List.mem_cons_self, hfirst⟩
    · obtain ⟨x, hx, hf⟩ := ih hy
      exact ⟨x, List.mem_cons_of_mem _ hx, hf⟩

namespace Candidate

variable {utilities : UtilityRegistry}

theorem mem_parseFunctional {s : String} {modifierText : Option String} {modifier : Option Modifier}
    {kind : Kind} (h : kind ∈ parseFunctional utilities s modifierText modifier) :
    (∃ root, (root, none) ∈ findRoots (utilities.has · .functional) s ∧
        kind = .functional root none modifier) ∨
      ∃ root text value modifier', (root, some text) ∈ findRoots (utilities.has · .functional) s ∧
        UtilityValue.parse? text modifierText modifier = some (some (value, modifier')) ∧
        kind = .functional root (some value) modifier' := by
  unfold parseFunctional at h
  dsimp only at h
  split at h
  · exact nomatch h
  next kinds hkinds =>
    obtain ⟨kind', hkind, hid⟩ := List.mem_filterMap.1 h
    obtain ⟨⟨root, text⟩, hroot, hread⟩ := exists_of_mem_mapM hkinds hkind
    cases hid
    cases text with
    | none => exact .inl ⟨root, hroot, by simpa using hread.symm⟩
    | some text =>
      obtain ⟨read, hparse, hread⟩ := Option.map_eq_some_iff.1 hread
      obtain ⟨⟨value, modifier'⟩, rfl, rfl⟩ := Option.map_eq_some_iff.1 hread
      exact .inr ⟨root, text, value, modifier', hroot, hparse, rfl⟩

/-- A base is the name of a utility without a value, or is a property in brackets if it is anything,
or is read as a utility with a value, a sign before it and a modifier behind it. -/
theorem parseBase_cases (utilities : UtilityRegistry) (base : String) :
    (utilities.has base .static = true ∧ parseBase utilities base = [(.static base, false)]) ∨
      (∀ entry ∈ parseBase utilities base, ∃ property value modifier,
        entry = (.arbitrary property value modifier, false)) ∨
      ∃ (negative : Bool) (name : String) (modifierText : Option String)
        (modifier : Option Modifier),
        splitModifier? base = some ((if negative then "-" else "") ++ name, modifierText) ∧
        Modifier.parseOptional? modifierText = some modifier ∧
        parseBase utilities base =
          (parseFunctional utilities name modifierText modifier).map (·, negative) := by
  unfold parseBase
  split
  next hstatic => exact .inl ⟨(Bool.and_eq_true_iff.1 hstatic).1, rfl⟩
  next =>
    refine .inr ?_
    split
    · exact .inl (List.forall_mem_nil _)
    next name modifierText hsplit =>
      split
      · exact .inl (List.forall_mem_nil _)
      next modifier hmodifier =>
        split
        next rest _ =>
          refine .inl fun entry hentry => ?_
          obtain ⟨kind, hkind, rfl⟩ := Option.map_eq_some_iff.1 (Option.mem_toList.1 hentry)
          obtain ⟨inner, _, hproperty⟩ := Option.bind_eq_some_iff.1 hkind
          unfold parseProperty? at hproperty
          split at hproperty
          · cases hproperty
          · split at hproperty
            · cases hproperty
            · split at hproperty
              · cases hproperty
                exact ⟨_, _, _, rfl⟩
              · cases hproperty
        next =>
          refine .inr ?_
          split
          next rest hsign =>
            rw [Text.strip?_eq_some_iff.1 hsign] at hsplit
            exact ⟨true, rest, modifierText, modifier, hsplit, hmodifier, rfl⟩
          next => exact ⟨false, name, modifierText, modifier, by simpa using hsplit, hmodifier, rfl⟩

end Candidate

/-! ### Class names -/

theorem Candidate.eq_append_of_dropPrefix? {keyPrefix : Option String} {parts rest : List String}
    (h : dropPrefix? keyPrefix parts = some rest) : parts = keyPrefix.toList ++ rest := by
  unfold dropPrefix? at h
  split at h
  · cases h
    rfl
  · split at h
    next hfirst =>
      cases h
      rw [hfirst]
      rfl
    · exact nomatch h
  · exact nomatch h

theorem Candidate.parts_eq {keyPrefix : Option String} {parts rawVariants : List String}
    {base : String}
    (h : (dropPrefix? keyPrefix parts).map List.reverse = some (base :: rawVariants)) :
    parts = keyPrefix.toList ++ rawVariants.reverse ++ [base] := by
  obtain ⟨rest, hrest, hreverse⟩ := Option.map_eq_some_iff.1 h
  rw [eq_append_of_dropPrefix? hrest, ← List.reverse_reverse rest, hreverse, List.reverse_cons,
    List.append_assoc]

theorem Candidate.stripImportant_cases (base : String) :
    stripImportant base = (base, false) ∨
      ∃ rest, stripImportant base = (rest, true) ∧ (base = rest ++ "!" ∨ base = "!" ++ rest) := by
  unfold stripImportant
  split
  next rest hrest =>
    refine .inr ⟨rest, rfl, ?_⟩
    rcases Option.or_eq_some_iff.1 hrest with hbehind | ⟨_, hbefore⟩
    · exact .inl (Text.stripEnd?_eq_some_iff.1 hbehind)
    · exact .inr (Text.strip?_eq_some_iff.1 hbefore)
  next => exact .inl rfl

/-- A class name has no reading, or all its readings have the same variants, those of its parts
before the last, and differ in how they read the last one. -/
theorem Candidate.parse_cases (utilities : UtilityRegistry) (variants : VariantRegistry)
    (keyPrefix : Option String) (raw : String) :
    parse utilities variants keyPrefix raw = [] ∨
      ∃ base rawVariants parsed,
        (dropPrefix? keyPrefix (Text.segment ':' raw)).map List.reverse =
          some (base :: rawVariants) ∧
        rawVariants.mapM (Variant.parse? variants) = some parsed ∧
        parse utilities variants keyPrefix raw =
          (parseBase utilities (stripImportant base).1).map fun (kind, negative) =>
            { kind, variants := parsed, negative, important := (stripImportant base).2, raw } := by
  unfold parse
  split
  next base rawVariants hparts =>
    split
    · exact .inl rfl
    next parsed hparsed =>
      dsimp only
      split
      · exact .inl rfl
      · exact .inr ⟨base, rawVariants, parsed, hparts, hparsed, rfl⟩
  · exact .inl rfl

theorem Candidate.exists_of_mem_parse {utilities : UtilityRegistry} {variants : VariantRegistry}
    {keyPrefix : Option String} {raw : String} {c : Candidate}
    (hc : c ∈ parse utilities variants keyPrefix raw) :
    ∃ base rawVariants,
      (dropPrefix? keyPrefix (Text.segment ':' raw)).map List.reverse = some (base :: rawVariants) ∧
      rawVariants.mapM (Variant.parse? variants) = some c.variants ∧
      (c.kind, c.negative) ∈ parseBase utilities (stripImportant base).1 ∧
      c.important = (stripImportant base).2 ∧ c.raw = raw := by
  rcases parse_cases utilities variants keyPrefix raw with
    hnone | ⟨base, rawVariants, parsed, hparts, hparsed, heq⟩
  · rw [hnone] at hc
    exact nomatch hc
  · rw [heq] at hc
    obtain ⟨⟨kind, negative⟩, hmem, rfl⟩ := List.mem_map.1 hc
    exact ⟨base, rawVariants, hparts, hparsed, hmem, rfl, rfl⟩

end UtilityCss
