import UtilityCss.Directive.Collect
import UtilityCss.Proofs.InvalidNames

/-!
What an expansion depends on. The readings of a class name without its variants and marks ask for
utilities without a value by that very name. So registering such a utility changes the expansion of
those bodies only that use its name.
-/
namespace UtilityCss

/-! ### The utility that a class name uses -/

private theorem dropEndWhile_eq {p : Char → Bool} {cs : List Char} (h : ∀ c ∈ cs, p c = false)
    (tail : List Char)
    (htail : ∀ c ∈ tail, p c = true) : Text.dropEndWhile p (cs ++ tail) = cs := by
  have hreverse : (cs ++ tail).reverse.dropWhile p = cs.reverse := by
    rw [List.reverse_append, List.dropWhile_append_of_pos fun c hc =>
      htail c (List.mem_reverse.1 hc)]
    apply List.dropWhile_eq_self_iff.2
    intro hlength
    simpa using h _ (List.mem_reverse.1 (List.getElem_mem hlength))
  rw [Text.dropEndWhile, hreverse, List.reverse_reverse]

private theorem ne_mark_of_isUtilityName {name : String} (h : isUtilityName name = true) :
    ∀ c ∈ name.toList, (c == '!') = false := by
  intro c hc
  simp only [isUtilityName, Bool.and_eq_true, List.all_eq_true] at h
  have hallowed := h.2 c hc
  rw [beq_eq_false_iff_ne]
  rintro rfl
  revert hallowed
  decide

theorem exists_char_of_isUtilityName {name : String} (h : isUtilityName name = true) :
    ∃ c cs, name.toList = c :: cs := by
  cases hname : name.toList with
  | nil => simp [isUtilityName, hname] at h
  | cons c cs => exact ⟨c, cs, rfl⟩

private theorem exists_marks_of_stripImportant {base name : String}
    (h : (Candidate.stripImportant base).1 = name) :
    ∃ before behind : List Char, base.toList = before ++ (name.toList ++ behind) ∧
      (∀ c ∈ before, (c == '!') = true) ∧ ∀ c ∈ behind, (c == '!') = true := by
  rcases Candidate.stripImportant_cases base with hbare | ⟨rest, hrest, hmark⟩
  · simp only [hbare] at h
    exact ⟨[], [], by simp [h], by simp, by simp⟩
  · simp only [hrest] at h
    rcases hmark with hbehind | hbefore
    · exact ⟨[], ['!'], by simp [hbehind, h], by simp, by simp⟩
    · exact ⟨['!'], [], by simp [hbefore, h], by simp, by simp⟩

theorem trimMarks_of_stripImportant {base name : String} (hname : isUtilityName name = true)
    (h : (Candidate.stripImportant base).1 = name) :
    String.ofList (Text.dropEndWhile (· == '!') (base.toList.dropWhile (· == '!'))) = name := by
  obtain ⟨before, behind, hbase, hbefore, hbehind⟩ := exists_marks_of_stripImportant h
  have hchars := ne_mark_of_isUtilityName hname
  obtain ⟨c, cs, hcs⟩ := exists_char_of_isUtilityName hname
  have hfirst : (name.toList ++ behind).dropWhile (· == '!') = name.toList ++ behind := by
    rw [hcs] at hchars ⊢
    rw [List.cons_append, List.dropWhile_cons_of_neg]
    simpa using hchars c List.mem_cons_self
  rw [hbase, List.dropWhile_append_of_pos hbefore, hfirst, dropEndWhile_eq hchars behind hbehind,
    String.ofList_toList]

theorem baseName_eq {keyPrefix : Option String} {raw base : String} {rawVariants : List String}
    (h : (Candidate.dropPrefix? keyPrefix (Text.segment ':' raw)).map List.reverse =
      some (base :: rawVariants)) :
    baseName raw =
      String.ofList (Text.dropEndWhile (· == '!') (base.toList.dropWhile (· == '!'))) := by
  have hlast : (Text.segment ':' raw).getLast? = some base := by
    rw [Candidate.parts_eq h, List.getLast?_concat]
  simp [baseName, hlast]

/-! ### Systems that differ in some utilities -/

namespace UtilityRegistry

theorem has_eq (r : UtilityRegistry) (name : String) (kind : UtilityKind) :
    r.has name kind = !(r.ofKind name kind).isEmpty := by
  simp only [has, ofKind, get]
  induction r.definitions with
  | nil => rfl
  | cons entry rest ih =>
    obtain ⟨n, utility⟩ := entry
    by_cases hn : n = name
    · by_cases hkind : utility.kind = kind <;> simp [hn, hkind, ih]
    · simp [hn, ih]

theorem get_add (r : UtilityRegistry) (name other : String) (utility : Utility) :
    (r.add name utility).get other = r.get other ++ if name = other then [utility] else [] := by
  simp only [add, get, List.filterMap_append]
  congr 1
  by_cases h : name = other <;> simp [h]

end UtilityRegistry

namespace Candidate

/-- Reading a base asks which utilities there are with its own name and without a value, and which
there are with a value. -/
theorem parseBase_congr {utilities utilities' : UtilityRegistry} {base : String}
    (hstatic : utilities'.has base .static = utilities.has base .static)
    (hfunctional : ∀ root, utilities'.has root .functional = utilities.has root .functional) :
    parseBase utilities' base = parseBase utilities base := by
  have hknown : (utilities'.has · .functional) = (utilities.has · .functional) := funext hfunctional
  simp only [parseBase, parseFunctional, hstatic, hknown]

private theorem eq_of_static_mem_parseBase {utilities : UtilityRegistry} {base root : String}
    {negative : Bool}
    (h : (Kind.static root, negative) ∈ parseBase utilities base) : root = base := by
  rcases parseBase_cases utilities base with
    ⟨-, heq⟩ | hproperty | ⟨_, name, modifierText, modifier, -, -, heq⟩
  · rw [heq] at h
    cases List.mem_singleton.1 h
    rfl
  · obtain ⟨_, _, _, hentry⟩ := hproperty _ h
    cases hentry
  · rw [heq] at h
    obtain ⟨kind, hkind, hentry⟩ := List.mem_map.1 h
    cases hentry
    rcases mem_parseFunctional hkind with ⟨_, _, hkind⟩ | ⟨_, _, _, _, _, _, hkind⟩ <;> cases hkind

end Candidate

namespace DesignSystem

/-- Systems that differ only in the utilities without a value that some names have. -/
structure DiffersOn (names : List String) (d d' : DesignSystem) : Prop where
  theme : d'.theme = d.theme
  variants : d'.variants = d.variants
  important : d'.important = d.important
  invalid : d'.invalid = d.invalid
  get : ∀ name, name ∉ names → d'.utilities.get name = d.utilities.get name
  functional : ∀ name, d'.utilities.ofKind name .functional = d.utilities.ofKind name .functional

variable {names : List String} {d d' : DesignSystem} {raw : String}

theorem DiffersOn.static (h : d.DiffersOn names d') {name : String} (hname : name ∉ names) :
    d'.utilities.ofKind name .static = d.utilities.ofKind name .static := by
  rw [UtilityRegistry.ofKind, UtilityRegistry.ofKind, h.get name hname]

theorem DiffersOn.parse (h : d.DiffersOn names d')
    (hnames : ∀ name ∈ names, isUtilityName name = true)
    (hraw : baseName raw ∉ names) : d'.parse raw = d.parse raw := by
  unfold DesignSystem.parse Candidate.parse
  rw [h.theme, h.variants]
  split
  next base rawVariants hsegments =>
    split
    · rfl
    · have hbase : (Candidate.stripImportant base).1 ∉ names := by
        intro hmem
        apply hraw
        rw [baseName_eq hsegments, trimMarks_of_stripImportant (hnames _ hmem) rfl]
        exact hmem
      have hstatic := h.static hbase
      dsimp only
      rw [Candidate.parseBase_congr]
      · rw [UtilityRegistry.has_eq, UtilityRegistry.has_eq, hstatic]
      · intro root
        rw [UtilityRegistry.has_eq, UtilityRegistry.has_eq, h.functional root]
  · rfl

private theorem baseName_of_static {c : Candidate} (hc : c ∈ d.parse raw) {root : String}
    (hkind : c.kind = .static root) (hroot : isUtilityName root = true) : baseName raw = root := by
  obtain ⟨base, rawVariants, hparts, -, hmem, -⟩ := Candidate.exists_of_mem_parse hc
  rw [hkind] at hmem
  have heq := Candidate.eq_of_static_mem_parseBase hmem
  rw [baseName_eq hparts, trimMarks_of_stripImportant hroot heq.symm]

theorem DiffersOn.alike (h : d.DiffersOn names d')
    (hnames : ∀ name ∈ names, isUtilityName name = true) :
    d.Alike d' (baseName · ∉ names) := by
  have hstatic : ∀ raw, baseName raw ∉ names → ∀ c ∈ d.parse raw, ∀ root, c.kind = .static root →
      d'.utilities.ofKind root .static = d.utilities.ofKind root .static := by
    intro raw hraw c hc root hkind
    apply h.static
    intro hmem
    exact hraw (baseName_of_static hc hkind (hnames root hmem) ▸ hmem)
  exact
    { theme := h.theme
      important := h.important
      parse := fun raw hraw => h.parse hnames hraw
      declarations := fun raw hraw c hc => by
        unfold DesignSystem.declarations
        split
        · rw [h.theme]
        next root hkind => rw [hstatic raw hraw c hc root hkind, h.theme]
        next root value modifier hkind => rw [h.functional root, h.theme]
      calls := fun raw hraw c hc => by
        unfold DesignSystem.calls
        split
        · rfl
        next root hkind => rw [hstatic raw hraw c hc root hkind]
        next root value modifier hkind => rw [h.functional root]
      applyVariants := fun raw _ c _ => by
        unfold DesignSystem.applyVariants
        rw [h.variants, h.theme]
      compare := fun _ _ _ _ _ _ _ _ v _ w _ => by rw [h.variants, h.theme] }

theorem DiffersOn.expandApply (h : d.DiffersOn names d')
    (hnames : ∀ name ∈ names, isUtilityName name = true) {params : String}
    (hparams : ∀ raw ∈ Text.words params, baseName raw ∉ names) :
    d'.expandApply params = d.expandApply params := by
  have hwords : ∀ raw ∈ (splitApplyImportant (Text.words params)).1, baseName raw ∉ names := by
    intro raw hraw
    apply hparams
    unfold splitApplyImportant at hraw
    split at hraw
    · exact List.mem_of_mem_dropLast hraw
    · exact hraw
  have hgenerate := ((h.alike hnames).mono fun raw hraw => hwords raw hraw.1).generate h.invalid
  simp only [DesignSystem.expandApply, hgenerate]

end DesignSystem

/-! ### The utilities that a body uses -/

def appliedAt : Node × Nat → List String
  | (.atRule name params _, _) =>
    if Directive.ofName name = .apply then
      ((Text.words params).map baseName).filter fun base => !base.isEmpty
    else []
  | _ => []

theorem appliedNames_eq (body : List Node) :
    appliedNames body = (outline body).flatMap appliedAt := rfl

def Unused (names : List String) (entries : List (Node × Nat)) : Prop :=
  ∀ entry ∈ entries, ∀ name ∈ names, name ∉ appliedAt entry

variable {names : List String} {d d' : DesignSystem}

theorem unused_append {entries entries' : List (Node × Nat)} :
    Unused names (entries ++ entries') ↔ Unused names entries ∧ Unused names entries' := by
  simp only [Unused, List.mem_append, or_imp, forall_and]

theorem unused_cons {entry : Node × Nat} {entries : List (Node × Nat)} :
    Unused names (entry :: entries) ↔
      (∀ name ∈ names, name ∉ appliedAt entry) ∧ Unused names entries := by
  simp only [Unused, List.forall_mem_cons]

private theorem baseName_not_mem {name params : String} {nodes : List Node} {depth : Nat}
    (hnames : ∀ name ∈ names, isUtilityName name = true) (hname : Directive.ofName name = .apply)
    (h : ∀ used ∈ names, used ∉ appliedAt (.atRule name params nodes, depth)) :
    ∀ raw ∈ Text.words params, baseName raw ∉ names := by
  intro raw hraw hmem
  obtain ⟨c, cs, hcs⟩ := exists_char_of_isUtilityName (hnames _ hmem)
  apply h _ hmem
  rw [appliedAt, if_pos hname]
  apply List.mem_filter.2
  refine ⟨List.mem_map_of_mem hraw, ?_⟩
  rw [Bool.not_eq_true', ← Bool.not_eq_true, String.isEmpty_iff]
  intro hempty
  simp [hempty] at hcs

mutual

theorem DesignSystem.DiffersOn.substituteApply (h : d.DiffersOn names d')
    (hnames : ∀ name ∈ names, isUtilityName name = true) :
    ∀ (node : Node) (depth : Nat), Unused names (node.outline depth) →
      node.substituteApply d' = node.substituteApply d
  | .atRule name params nodes, depth, hunused => by
    rw [Node.outline, unused_cons] at hunused
    have hinside := h.substituteAllApply hnames nodes (depth + 1) hunused.2
    rw [Node.substituteApply, Node.substituteApply]
    split
    · rfl
    next hname =>
      exact h.expandApply hnames (baseName_not_mem hnames hname hunused.1)
    · rw [hinside]
  | .rule selector nodes, depth, hunused => by
    rw [Node.outline, unused_cons] at hunused
    rw [Node.substituteApply, Node.substituteApply,
      h.substituteAllApply hnames nodes (depth + 1) hunused.2]
  | .context entries nodes, depth, hunused => by
    rw [Node.outline] at hunused
    rw [Node.substituteApply, Node.substituteApply, h.substituteAllApply hnames nodes depth hunused]
  | .atRoot nodes, depth, hunused => by
    rw [Node.outline, unused_cons] at hunused
    rw [Node.substituteApply, Node.substituteApply,
      h.substituteAllApply hnames nodes (depth + 1) hunused.2]
  | .declaration property value important, depth, hunused => by
    rw [Node.substituteApply, Node.substituteApply]
  | .comment text, depth, hunused => by
    rw [Node.substituteApply, Node.substituteApply]

theorem DesignSystem.DiffersOn.substituteAllApply (h : d.DiffersOn names d')
    (hnames : ∀ name ∈ names, isUtilityName name = true) :
    ∀ (nodes : List Node) (depth : Nat), Unused names (outlineAll depth nodes) →
      UtilityCss.substituteAllApply d' nodes = UtilityCss.substituteAllApply d nodes
  | [], depth, hunused => by
    rw [UtilityCss.substituteAllApply, UtilityCss.substituteAllApply]
  | n :: ns, depth, hunused => by
    rw [outlineAll, unused_append] at hunused
    rw [UtilityCss.substituteAllApply, UtilityCss.substituteAllApply,
      h.substituteApply hnames n depth hunused.1, h.substituteAllApply hnames ns depth hunused.2]

end

theorem DesignSystem.DiffersOn.expandBody (h : d.DiffersOn names d')
    (hnames : ∀ name ∈ names, isUtilityName name = true) {body : List Node}
    (hbody : ∀ name ∈ names, name ∉ appliedNames body) :
    UtilityCss.substituteAllApply d' body = UtilityCss.substituteAllApply d body := by
  apply h.substituteAllApply hnames body 0
  intro entry hentry name hname hmem
  apply hbody name hname
  rw [appliedNames_eq]
  exact List.mem_flatMap.2 ⟨entry, hentry, hmem⟩

end UtilityCss
