import UtilityCss.Proofs.Compilation
import UtilityCss.Proofs.MarkedNames
import UtilityCss.Proofs.SystemShape
import UtilityCss.Proofs.VariantContent

/-!
Class names with one more variant in front. The variant that is written first is put on last, around
all others. As long as utilities look neither at the variants nor at the text of a name, and
variants not at the class of a rule, the rules of the longer name are those of the shorter one with
another class and the variant around their content. Nothing that a stylesheet or a module defines
looks there; a utility that is registered directly may.
-/
namespace UtilityCss

/-! ### Reading a variant in front -/

def Candidate.behind (v : Variant) (raw : String) (c : Candidate) : Candidate :=
  { c with variants := c.variants ++ [v], raw }

theorem DesignSystem.parse_behind {d : DesignSystem} (hkey : d.theme.keyPrefix = none) {s : String}
    {v : Variant} (hv : d.parseVariant? s = some v) (hs : Text.segment ':' s = [s])
    (hclosed : s.toList.foldl Text.Nesting.step {} = {}) (raw : String) :
    d.parse (s ++ ":" ++ raw) = (d.parse raw).map (.behind v (s ++ ":" ++ raw)) := by
  unfold DesignSystem.parse Candidate.parse
  rw [Text.segment_colon hs hclosed, hkey]
  simp only [Candidate.dropPrefix?, Option.map_some, List.reverse_cons]
  cases hparts : (Text.segment ':' raw).reverse with
  | nil => simp [Text.segment, Text.segments] at hparts
  | cons base rawVariants =>
    have hlast : Variant.parse? d.variants s = some v := hv
    simp only [List.cons_append, List.mapM_append, List.mapM_cons, List.mapM_nil, hlast]
    cases rawVariants.mapM (Variant.parse? d.variants) with
    | none => rfl
    | some parsed =>
      dsimp only [Option.bind_eq_bind, Option.bind_some, Option.pure_def]
      split
      · rfl
      · simp [Candidate.behind, Function.comp_def]

/-! ### Utilities -/

/-- A utility whose declarations depend neither on the variants nor on the text of a class name. -/
def Utility.IgnoresVariants (u : Utility) : Prop :=
  ∀ (c : Candidate) variants raw theme, u.resolve { c with variants, raw } theme = u.resolve c theme

theorem Utility.ReadsBase.ignoresVariants {u : Utility} (h : u.ReadsBase) : u.IgnoresVariants :=
  fun c variants raw theme => h c variants c.important raw theme

theorem Compilation.ignoresVariants {css : String} {options : CompileOptions}
    (r : Compilation css options) :
    (∀ entry ∈ r.system.utilities.definitions, entry.2.IgnoresVariants) ∧
      r.system.variants.Places :=
  ⟨fun entry hentry => (r.utilities_readBase entry hentry).ignoresVariants,
    (compile_ready r.compile_eq).variants.known.places⟩

/-! ### Rules -/

def Node.reclassed (raw : String) : Node → Node
  | .rule _ nodes => .rule ("." ++ Text.escape raw) nodes
  | node => node

namespace DesignSystem

variable {d : DesignSystem}

/-- The rules of all readings of a class name. -/
def rulesFor (d : DesignSystem) (raw : String) : List (Node × List Nat) :=
  (d.parse raw).flatMap d.rulesOf

theorem isValid_iff_rulesFor {raw : String} (h : d.isInvalid raw = false) :
    d.IsValid raw ↔ d.rulesFor raw ≠ [] := by
  simp [isValid_iff, ownRules, readings, rulesFor, h]

private theorem declarations_behind
    (hutilities : ∀ entry ∈ d.utilities.definitions, entry.2.IgnoresVariants) (v : Variant)
    (raw : String) (c : Candidate) : d.declarations (c.behind v raw) = d.declarations c := by
  have hofKind : ∀ root kind, (d.utilities.ofKind root kind).filterMap
      (fun u => u.resolve (c.behind v raw) d.theme) =
        (d.utilities.ofKind root kind).filterMap fun u => u.resolve c d.theme := by
    intro root kind
    apply List.filterMap_congr
    intro u hu
    exact hutilities _ (mem_ofKind hu) c _ raw d.theme
  unfold declarations
  rw [show (c.behind v raw).kind = c.kind from rfl]
  split
  · rfl
  · exact hofKind _ _
  · exact hofKind _ _

private theorem applyVariants_places (hvariants : d.variants.Places) {variants : List Variant}
    (hv : ∀ v ∈ variants, d.variants.Admits v) : PlacesContent (d.applyVariants variants) := by
  induction variants with
  | nil => exact ⟨some id, fun node content hcontent => by cases node <;> cases hcontent <;> rfl⟩
  | cons v vs ih =>
    rw [List.forall_mem_cons] at hv
    exact (hvariants.applyVariant hv.1 d.theme 0).bind (ih hv.2)

private theorem rulesOf_behind
    (hutilities : ∀ entry ∈ d.utilities.definitions, entry.2.IgnoresVariants)
    (hvariants : d.variants.Places) {c : Candidate} (hc : ∀ v ∈ c.variants, d.variants.Admits v)
    (v : Variant) (raw : String) :
    d.rulesOf (c.behind v raw) = (d.rulesOf c).filterMap fun (rule, places) =>
      (applyVariant d.variants d.theme 0 v (rule.reclassed raw)).map (·, places) := by
  obtain ⟨place?, hplace⟩ := applyVariants_places hvariants hc
  have hbehind : ∀ node, d.applyVariants (c.behind v raw).variants node =
      (d.applyVariants c.variants node).bind (applyVariant d.variants d.theme 0 v) := by
    intro node
    simp [applyVariants, Candidate.behind, List.foldlM_append]
  unfold rulesOf
  rw [declarations_behind hutilities, List.filterMap_filterMap]
  apply List.filterMap_congr
  intro nodes _
  dsimp only
  rw [show (c.behind v raw).important = c.important from rfl,
    show (c.behind v raw).raw = raw from rfl, hbehind, hplace _ _ rfl, hplace _ _ rfl]
  cases place? <;> rfl

private theorem isSome_applyVariant_reclassed (hvariants : d.variants.Places) {v : Variant}
    (hv : d.variants.Admits v) (raw : String) (node : Node) :
    (applyVariant d.variants d.theme 0 v (node.reclassed raw)).isSome =
      (applyVariant d.variants d.theme 0 v node).isSome := by
  obtain ⟨place?, hplace⟩ := hvariants.applyVariant hv d.theme 0
  cases node with
  | rule selector nodes =>
    rw [Node.reclassed, hplace _ _ rfl, hplace _ _ rfl, Option.isSome_map, Option.isSome_map]
  | _ => rfl

/-- The rules of a class name with a variant in front are, in order, those of the name without it,
given the longer name's class and with the variant around their content; those that the variant
rejects are left out. Unless it is remembered as invalid, the longer name is valid exactly if the
variant accepts a rule of the shorter one. -/
theorem rulesFor_behind
    (hutilities : ∀ entry ∈ d.utilities.definitions, entry.2.IgnoresVariants)
    (hvariants : d.variants.Places) (hkey : d.theme.keyPrefix = none) {s : String} {v : Variant}
    (hv : d.parseVariant? s = some v)
    (hs : Text.segment ':' s = [s]) (hclosed : s.toList.foldl Text.Nesting.step {} = {})
    (raw : String) :
    (d.rulesFor (s ++ ":" ++ raw) = (d.rulesFor raw).filterMap fun (rule, places) =>
        (applyVariant d.variants d.theme 0 v (rule.reclassed (s ++ ":" ++ raw))).map (·, places)) ∧
      (d.isInvalid (s ++ ":" ++ raw) = false →
        (d.IsValid (s ++ ":" ++ raw) ↔ ∃ entry ∈ d.rulesFor raw,
          (applyVariant d.variants d.theme 0 v entry.1).isSome = true)) := by
  have hrules : d.rulesFor (s ++ ":" ++ raw) = (d.rulesFor raw).filterMap fun (rule, places) =>
      (applyVariant d.variants d.theme 0 v (rule.reclassed (s ++ ":" ++ raw))).map (·, places) := by
    rw [rulesFor, parse_behind hkey hv hs hclosed, List.flatMap_map, rulesFor,
      List.filterMap_flatMap]
    refine List.flatMap_congr fun c hc => ?_
    exact rulesOf_behind hutilities hvariants (fun v hv => admits_of_mem_parse hc hv) v _
  refine ⟨hrules, fun hinvalid => ?_⟩
  have hsome := isSome_applyVariant_reclassed hvariants (Variant.parse?_admits hv) (s ++ ":" ++ raw)
  rw [isValid_iff_rulesFor hinvalid, hrules]
  simp only [ne_eq, List.filterMap_eq_nil_iff, Option.map_eq_none_iff, not_forall, exists_prop]
  refine exists_congr fun entry => and_congr_right fun _ => ?_
  rw [← hsome, Option.isSome_iff_ne_none]

def withPaper : DesignSystem :=
  (ofTheme {}).addVariant "paper" (.body [.atRule "media" "print" [.slot, .decl "color" "black"]])

theorem rulesFor_behind_paper :
    ((withPaper.rulesFor ("paper" ++ ":" ++ "focus:inset-x-[1px]")).map fun entry =>
        toCss [entry.1]) =
        ["inset-inline", "inset"].map (fun property =>
          ".paper\\:focus\\:inset-x-\\[1px\\] \x7b\n  @media print \x7b\n    &:focus \x7b\n      " ++
            property ++ ": 1px;\n    \x7d\n    color: black;\n  \x7d\n\x7d\n") ∧
      withPaper.IsValid ("paper" ++ ":" ++ "focus:inset-x-[1px]") := by
  have hvariants : withPaper.variants.Extended := (extended_ofTheme {}).addVariant "paper" _
  obtain ⟨hrules, hvalid⟩ := rulesFor_behind
    (fun entry hentry => (Utility.builtin_readBase entry hentry).ignoresVariants)
    hvariants.known.places rfl
    (show withPaper.parseVariant? "paper" = some (.static "paper") by decide +kernel) (by decide)
    (by decide) "focus:inset-x-[1px]"
  refine ⟨?_, (hvalid rfl).2 ?_⟩
  · rw [hrules]
    decide +kernel
  · decide +kernel

def withBare : DesignSystem :=
  (ofTheme {}).addUtility "bare"
    { kind := .static
      resolve := fun c _ => if c.variants.isEmpty then some [.decl "color" "red"] else none }

def withLate : DesignSystem :=
  { (ofTheme {}).addUtility "late" (.ofBody [.decl "color" "red"]) with invalid := ["hover:late"] }

/-- In both systems the variant accepts the rule of the name behind it. In the first one the longer
name has no rule all the same, and in the second it has one, but stays invalid. -/
theorem rulesFor_behind_apart :
    Text.segment ':' "hover" = ["hover"] ∧ "hover".toList.foldl Text.Nesting.step {} = {} ∧
    (withBare.theme.keyPrefix = none ∧ withBare.parseVariant? "hover" = some (.static "hover") ∧
      withBare.rulesFor "hover:bare" ≠ (withBare.rulesFor "bare").filterMap fun (rule, places) =>
        (applyVariant withBare.variants withBare.theme 0 (.static "hover")
          (rule.reclassed "hover:bare")).map (·, places)) ∧
    withLate.theme.keyPrefix = none ∧ withLate.parseVariant? "hover" = some (.static "hover") ∧
      (∃ entry ∈ withLate.rulesFor "late",
        (applyVariant withLate.variants withLate.theme 0 (.static "hover") entry.1).isSome = true) ∧
      withLate.rulesFor "hover:late" ≠ [] ∧ ¬withLate.IsValid "hover:late" := by
  refine ⟨by decide, by decide, ⟨rfl, by decide +kernel, fun hrules => ?_⟩, rfl, by decide +kernel,
    by decide +kernel, ?_, ?_⟩
  · have hlength := congrArg List.length hrules
    revert hlength
    decide +kernel
  · have hlength : (withLate.rulesFor "hover:late").length = 1 := by decide +kernel
    exact List.ne_nil_of_length_pos (by omega)
  · have hremembered : withLate.isInvalid "hover:late" = true := by decide
    simp [isValid_iff, ownRules, readings, hremembered]

end DesignSystem

end UtilityCss
