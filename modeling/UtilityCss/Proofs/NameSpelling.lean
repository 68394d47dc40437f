import UtilityCss.Proofs.MarkedNames
import UtilityCss.Proofs.VariantContent

/-!
How class names are spelled. A reading without brackets determines the class name it was read from,
up to the side of a mark of importance: nothing that is read is dropped or changed. With a prefix,
class names are read as they are without it, behind the prefix and a colon.
-/
namespace UtilityCss

/-! ### Texts put together -/

namespace Text

def behind (mark : String) : Option String → String
  | none => ""
  | some s => mark ++ s

@[simp] theorem behind_none (mark : String) : behind mark none = "" := rfl

@[simp] theorem behind_some (mark s : String) : behind mark (some s) = mark ++ s := rfl

def after (separator : String) (parts : List String) (last : String) : String :=
  parts.foldr (fun part rest => part ++ separator ++ rest) last

private theorem toList_after (separator : String) (parts : List String) (last : String) :
    (after separator parts last).toList =
      separator.toList.intercalate ((parts ++ [last]).map String.toList) := by
  induction parts with
  | nil => simp [after]
  | cons part parts ih =>
    have hcons : after separator (part :: parts) last =
        part ++ separator ++ after separator parts last := rfl
    rw [hcons, String.toList_append, String.toList_append, ih]
    cases parts <;> simp [List.intercalate_cons_cons]

theorem eq_after_of_segment {separator : Char} {mark s : String} {parts : List String}
    {last : String}
    (hmark : mark.toList = [separator]) (h : segment separator s = parts ++ [last]) :
    s = after mark parts last := by
  apply String.toList_injective
  have hjoin := intercalate_segmentFrom separator {} s.toList
  rw [toList_after, hmark, ← h, segment, List.map_map]
  simpa [segments, Function.comp_def] using hjoin.symm

end Text

/-! ### A prefix in front -/

namespace Candidate

theorem eq_after_of_parts {keyPrefix : Option String} {raw base : String}
    {rawVariants : List String}
    (h : (dropPrefix? keyPrefix (Text.segment ':' raw)).map List.reverse =
      some (base :: rawVariants)) :
    raw = Text.after ":" (keyPrefix.toList ++ rawVariants.reverse) base :=
  Text.eq_after_of_segment rfl (parts_eq h)

private theorem segment_letters {p : String} (hp : p.toList.all Char.isLower = true) (s : String) :
    Text.segment ':' (p ++ ":" ++ s) = p :: Text.segment ':' s := by
  rw [List.all_eq_true] at hp
  have hcolon : ':' ∉ p.toList := fun hmem => absurd (hp ':' hmem) (by decide)
  have hclosed : p.toList.foldl Text.Nesting.step {} = {} :=
    Text.foldl_step_of_not_isStructural fun c hc => Text.isStructural_eq_false (hp c hc) rfl
  exact Text.segment_colon (Text.segment_eq_singleton (Text.isPart_of_not_mem hcolon)) hclosed s

/-- With a prefix, a class name is read as what stands behind the prefix is read without one. Only
class names that begin with the prefix and a colon are read. -/
theorem parse_keyPrefix (utilities : UtilityRegistry) (variants : VariantRegistry) {p : String}
    (hp : p.toList.all Char.isLower = true) :
    (∀ s, parse utilities variants (some p) (p ++ ":" ++ s) =
        (parse utilities variants none s).map fun c => { c with raw := p ++ ":" ++ s }) ∧
      ∀ t, (∀ s, t ≠ p ++ ":" ++ s) → parse utilities variants (some p) t = [] := by
  refine ⟨fun s => ?_, fun t ht => ?_⟩
  · have hdrop : dropPrefix? (some p) (Text.segment ':' (p ++ ":" ++ s)) =
        dropPrefix? none (Text.segment ':' s) := by
      rw [segment_letters hp]
      simp [Text.segment, Text.segments, dropPrefix?]
    unfold parse
    rw [hdrop]
    split
    · split
      · rfl
      · dsimp only
        split
        · rfl
        · simp [Function.comp_def]
    · rfl
  · rcases parse_cases utilities variants (some p) t with hnone | ⟨base, rawVariants, _, hparts, -⟩
    · exact hnone
    · exact absurd (eq_after_of_parts hparts) (ht _)

theorem parse_keyPrefix_tw :
    parse .builtin (.builtin {}) (some "tw") "tw:hover:flex!" =
        [⟨.static "flex", [.static "hover"], false, true, "tw:hover:flex!"⟩] ∧
      parse .builtin (.builtin {}) (some "tw") "hover:flex!" = [] := by
  obtain ⟨hread, hunread⟩ := parse_keyPrefix .builtin (.builtin {}) (p := "tw") (by decide)
  refine ⟨(hread "hover:flex!").trans (by decide +kernel), hunread "hover:flex!" fun s hs => ?_⟩
  have hfirst := congrArg (·.toList.head?) hs
  simp at hfirst

end Candidate

/-! ### Names and what stands behind them -/

private theorem eq_of_mem_dashSplits {root value cs : List Char}
    (h : (root, value) ∈ dashSplits cs) : cs = root ++ '-' :: value := by
  induction cs generalizing root with
  | nil => simp [dashSplits] at h
  | cons c cs ih =>
    simp only [dashSplits, List.mem_append, List.mem_map, Prod.mk.injEq] at h
    rcases h with h | ⟨⟨root, _⟩, hmem, rfl, rfl⟩
    · split at h
      next hdash => simp_all
      next => simp at h
    · exact congrArg (c :: ·) (ih hmem)

theorem eq_of_mem_findRoots {known : String → Bool} {s root : String} {value : Option String}
    (h : (root, value) ∈ findRoots known s) :
    known root = true ∧ s = root ++ Text.behind "-" value := by
  rcases List.mem_append.1 h with h | h
  · split at h
    next hknown =>
      cases List.mem_singleton.1 h
      exact ⟨hknown, String.append_empty.symm⟩
    next => exact nomatch h
  · obtain ⟨⟨root, value⟩, hmem, heq⟩ := List.mem_map.1 h
    cases heq
    obtain ⟨hsplit, hknown⟩ := List.mem_filter.1 ((List.takeWhile_sublist _).subset hmem)
    obtain ⟨⟨rootChars, valueChars⟩, hchars, heq⟩ := List.mem_map.1 hsplit
    cases heq
    refine ⟨hknown, String.toList_injective ?_⟩
    simpa using eq_of_mem_dashSplits (List.mem_reverse.1 (List.mem_filter.1 hchars).1)

private theorem pairwise_dashSplits (cs : List Char) :
    (dashSplits cs).Pairwise fun a b => a.1.length < b.1.length := by
  induction cs with
  | nil => exact .nil
  | cons c cs ih =>
    rw [dashSplits, List.pairwise_append]
    refine ⟨?_, ?_, ?_⟩
    · split <;> simp
    · rw [List.pairwise_map]
      exact ih.imp fun h => Nat.succ_lt_succ h
    · intro a ha b hb
      split at ha
      · cases List.mem_singleton.1 ha
        obtain ⟨split, _, rfl⟩ := List.mem_map.1 hb
        exact Nat.succ_pos _
      · simp at ha

theorem pairwise_findRoots (known : String → Bool) (s : String) :
    ((findRoots known s).map Prod.fst).Pairwise fun a b => b.length < a.length := by
  have hsplits : (rootSplits s).Pairwise fun a b => b.1.length < a.1.length := by
    rw [rootSplits, List.pairwise_map]
    refine (List.pairwise_reverse.2 ?_).filter _
    simpa using pairwise_dashSplits s.toList
  rw [List.pairwise_map, findRoots, List.pairwise_append]
  refine ⟨?_, ?_, ?_⟩
  · split <;> simp
  · rw [List.pairwise_map]
    exact (hsplits.filter _).sublist (List.takeWhile_sublist _)
  · intro a ha b hb
    split at ha
    · cases List.mem_singleton.1 ha
      obtain ⟨⟨root, value⟩, hmem, rfl⟩ := List.mem_map.1 hb
      have hfound : (root, some value) ∈ findRoots known s := List.mem_append_right _ hb
      have hlength := congrArg String.length (eq_of_mem_findRoots hfound).2
      simp only [Text.behind_some, String.length_append] at hlength
      have hdash : "-".length = 1 := rfl
      dsimp only
      omega
    · simp at ha

theorem eq_of_splitModifier? {s name : String} {modifier : Option String}
    (h : splitModifier? s = some (name, modifier)) : s = name ++ Text.behind "/" modifier := by
  have hslash : "/".toList = ['/'] := rfl
  unfold splitModifier? at h
  split at h
  next hparts =>
    cases h
    have heq : s = Text.after "/" [] name := Text.eq_after_of_segment hslash hparts
    exact heq.trans String.append_empty.symm
  next hparts =>
    cases h
    have heq : s = Text.after "/" [name] _ := Text.eq_after_of_segment hslash hparts
    exact heq.trans String.append_assoc
  next => exact nomatch h

/-! ### Variants -/

def Modifier.isBare : Modifier → Bool
  | .named _ => true
  | .arbitrary _ => false

theorem Modifier.text_of_parse? {s : String} {modifier : Modifier} (h : parse? s = some modifier)
    (hbare : modifier.isBare = true) : modifier.text = s := by
  unfold parse? at h
  split at h
  · obtain ⟨text, _, rfl⟩ := Option.map_eq_some_iff.1 h
    cases hbare
  · split at h
    · cases h
    · cases h
      rfl

theorem Modifier.text_of_parseOptional? {text : Option String} {modifier : Option Modifier}
    (h : parseOptional? text = some modifier) (hbare : modifier.all isBare = true) :
    modifier.map Modifier.text = text := by
  cases text with
  | none =>
    cases h
    rfl
  | some s =>
    obtain ⟨modifier, hmodifier, rfl⟩ := Option.map_eq_some_iff.1 h
    exact congrArg some (text_of_parse? hmodifier hbare)

def VariantValue.isBare : VariantValue → Bool
  | .named _ => true
  | .arbitrary _ => false

namespace Variant

private theorem text_of_parseValue? {text : Option String} {value : Option VariantValue}
    (h : parseValue? text = some (some value)) (hbare : value.all VariantValue.isBare = true) :
    value.map VariantValue.text = text := by
  cases text with
  | none =>
    cases h
    rfl
  | some s =>
    unfold parseValue? at h
    dsimp only at h
    split at h
    · obtain ⟨inner, _, h⟩ := Option.map_eq_some_iff.1 h
      obtain ⟨decoded, _, rfl⟩ := Option.map_eq_some_iff.1 h
      exact nomatch hbare
    · cases h
      rfl

def isBare : Variant → Bool
  | .arbitrary .. => false
  | .static _ => true
  | .functional _ value modifier => value.all VariantValue.isBare && modifier.all Modifier.isBare
  | .compound _ modifier inner => modifier.all Modifier.isBare && inner.isBare

/-- What is written for a variant: its name, then its value or the variant inside, then its
modifier. -/
def spelled : Variant → String
  | .arbitrary selector _ => "[" ++ selector ++ "]"
  | .static root => root
  | .functional root value modifier =>
    root ++ Text.behind "-" (value.map VariantValue.text) ++
      Text.behind "/" (modifier.map Modifier.text)
  | .compound root modifier inner =>
    root ++ "-" ++ inner.spelled ++ Text.behind "/" (modifier.map Modifier.text)

theorem spelled_of_parse? {r : VariantRegistry} {s : String} {v : Variant} (h : parse? r s = some v)
    (hbare : v.isBare = true) : v.spelled = s := by
  replace h := parse?_reads h
  induction h with
  | selector _ hv =>
    obtain ⟨selector, relative, rfl⟩ := exists_of_ofSelector? hv
    exact nomatch hbare
  | static hsplit hroot =>
    rw [eq_of_splitModifier? hsplit, (eq_of_mem_findRoots hroot).2]
    simp [spelled]
  | functional hsplit hroot _ hvalue hmodifier =>
    obtain ⟨hvalueBare, hmodifierBare⟩ := Bool.and_eq_true_iff.1 hbare
    rw [spelled, text_of_parseValue? hvalue hvalueBare,
      Modifier.text_of_parseOptional? hmodifier hmodifierBare, ← (eq_of_mem_findRoots hroot).2,
      ← eq_of_splitModifier? hsplit]
  | compound hsplit hroot _ _ hmodifier _ ih =>
    obtain ⟨hmodifierBare, hinner⟩ := Bool.and_eq_true_iff.1 hbare
    rw [spelled, ih hinner, Modifier.text_of_parseOptional? hmodifier hmodifierBare,
      eq_of_splitModifier? hsplit, (eq_of_mem_findRoots hroot).2]
    simp only [Text.behind_some, String.append_assoc]

end Variant

/-! ### Readings -/

def UtilityValue.isBare : UtilityValue → Bool
  | .named _ => true
  | .arbitrary .. => false
  | .fraction _ => true

theorem UtilityValue.text_of_parse? {s : String} {modifierText : Option String}
    {modifier modifier' : Option Modifier} {value : UtilityValue}
    (h : parse? s modifierText modifier = some (some (value, modifier')))
    (hmodifier : Modifier.parseOptional? modifierText = some modifier)
    (hvalue : value.isBare = true) (hbare : modifier'.all Modifier.isBare = true) :
    value.text ++ Text.behind "/" (modifier'.map Modifier.text) =
      s ++ Text.behind "/" modifierText := by
  have hnamed : (value, modifier') = (.named s, modifier) →
      value.text ++ Text.behind "/" (modifier'.map Modifier.text) =
        s ++ Text.behind "/" modifierText := by
    intro heq
    cases heq
    rw [Modifier.text_of_parseOptional? hmodifier hbare]
    rfl
  unfold parse? at h
  split at h
  · obtain ⟨inner, _, h⟩ := Option.map_eq_some_iff.1 h
    dsimp only at h
    split at h
    · exact nomatch h
    · cases h
      exact nomatch hvalue
  · split at h
    next denominator _ =>
      split at h
      · cases h
        simp [UtilityValue.text, String.append_assoc]
      · exact hnamed (by simpa using h.symm)
    next => exact hnamed (by simpa using h.symm)

namespace Candidate

variable {utilities : UtilityRegistry} {variants : VariantRegistry} {keyPrefix : Option String}
  {raw : String} {c : Candidate}

def isBare (c : Candidate) : Bool :=
  c.root?.isSome && c.value?.all UtilityValue.isBare && c.modifier?.all Modifier.isBare &&
    c.variants.all Variant.isBare

def spelledBase (c : Candidate) : String :=
  (if c.negative then "-" else "") ++ c.root?.getD "" ++
    Text.behind "-" (c.value?.map UtilityValue.text) ++
      Text.behind "/" (c.modifier?.map Modifier.text)

/-- What is written for a reading: the prefix, the variants from the outermost on, each of them
followed by a colon, and the utility with a mark of importance on one side if there is one. -/
def spelled (keyPrefix : Option String) (mark : Option ImportantMark) (c : Candidate) : String :=
  Text.after ":" (keyPrefix.toList ++ c.variants.reverse.map Variant.spelled)
    (mark.elim c.spelledBase (·.on c.spelledBase))

def IsRegistered (utilities : UtilityRegistry) (c : Candidate) : Prop :=
  match c.kind with
  | .static root => utilities.has root .static = true
  | .functional root _ _ => utilities.has root .functional = true
  | .arbitrary .. => True

theorem isRegistered_of_mem_parseBase {base : String}
    (h : (c.kind, c.negative) ∈ parseBase utilities base) : c.IsRegistered utilities := by
  obtain ⟨kind, _, negative, _, _⟩ := c
  rcases parseBase_cases utilities base with
    ⟨hstatic, heq⟩ | hproperty | ⟨_, name, modifierText, modifier, -, -, heq⟩
  · rw [heq] at h
    cases List.mem_singleton.1 h
    exact hstatic
  · obtain ⟨_, _, _, hentry⟩ := hproperty _ h
    cases hentry
    exact trivial
  · rw [heq] at h
    obtain ⟨kind, hkind, hentry⟩ := List.mem_map.1 h
    cases hentry
    rcases mem_parseFunctional hkind with ⟨root, hroot, rfl⟩ | ⟨root, _, _, _, hroot, _, rfl⟩
    · exact (eq_of_mem_findRoots hroot).1
    · exact (eq_of_mem_findRoots hroot).1

private theorem spelledBase_of_mem_parseBase {base : String} (hbare : c.isBare = true)
    (h : (c.kind, c.negative) ∈ parseBase utilities base) : c.spelledBase = base := by
  simp only [isBare, Bool.and_eq_true] at hbare
  obtain ⟨⟨⟨hroot, hvalue⟩, hmodifier⟩, -⟩ := hbare
  obtain ⟨kind, _, negative, _, _⟩ := c
  rcases parseBase_cases utilities base with
    ⟨-, heq⟩ | hproperty | ⟨_, name, modifierText, modifier, hsplit, hparsed, heq⟩
  · rw [heq] at h
    cases List.mem_singleton.1 h
    simp [spelledBase, root?, value?, modifier?]
  · obtain ⟨_, _, _, hentry⟩ := hproperty _ h
    cases hentry
    exact nomatch hroot
  · rw [heq] at h
    obtain ⟨kind, hkind, hentry⟩ := List.mem_map.1 h
    cases hentry
    rw [eq_of_splitModifier? hsplit]
    rcases mem_parseFunctional hkind
      with ⟨root, hmem, rfl⟩ | ⟨root, text, value, _, hmem, hread, rfl⟩
    · have htext := Modifier.text_of_parseOptional? hparsed hmodifier
      simp [spelledBase, root?, value?, modifier?, (eq_of_mem_findRoots hmem).2, htext]
    · have htext := UtilityValue.text_of_parse? hread hparsed hvalue hmodifier
      simp [spelledBase, root?, value?, modifier?, (eq_of_mem_findRoots hmem).2,
        String.append_assoc, htext]

private theorem exists_mark_of_stripImportant (base : String) :
    ∃ mark : Option ImportantMark, mark.isSome = (stripImportant base).2 ∧
      mark.elim (stripImportant base).1 (·.on (stripImportant base).1) = base := by
  rcases stripImportant_cases base with hbare | ⟨rest, hrest, hmark⟩
  · rw [hbare]
    exact ⟨none, rfl, rfl⟩
  · rw [hrest]
    rcases hmark with hbehind | hbefore
    · exact ⟨some .trailing, rfl, hbehind.symm⟩
    · exact ⟨some .leading, rfl, hbefore.symm⟩

private theorem map_spelled_of_mapM {rawVariants : List String} {parsed : List Variant}
    (h : rawVariants.mapM (Variant.parse? variants) = some parsed)
    (hbare : parsed.all Variant.isBare = true) : parsed.map Variant.spelled = rawVariants := by
  replace h := forall₂_of_mapM h
  induction h with
  | nil => rfl
  | cons hv _ ih =>
    rw [List.all_cons, Bool.and_eq_true] at hbare
    rw [List.map_cons, Variant.spelled_of_parse? hv hbare.1, ih hbare.2]

theorem spelled_of_mem_parse (hc : c ∈ parse utilities variants keyPrefix raw)
    (hbare : c.isBare = true) :
    ∃ mark : Option ImportantMark, mark.isSome = c.important ∧ c.spelled keyPrefix mark = raw := by
  obtain ⟨base, rawVariants, hparts, hparsed, hbase, himportant, -⟩ := exists_of_mem_parse hc
  obtain ⟨mark, hsome, hmark⟩ := exists_mark_of_stripImportant base
  refine ⟨mark, hsome.trans himportant.symm, ?_⟩
  have hvariants : c.variants.map Variant.spelled = rawVariants :=
    map_spelled_of_mapM hparsed (Bool.and_eq_true_iff.1 hbare).2
  rw [spelled, spelledBase_of_mem_parseBase hbare hbase, hmark, List.map_reverse, hvariants,
    ← eq_after_of_parts hparts]

/-! ### The order of readings -/

private theorem sublist_of_mapM {α β γ : Type} {f : α → Option (Option β)}
    {image : β → Option γ} {key : α → γ}
    (hf : ∀ x y, f x = some (some y) → image y = some (key x)) {xs : List α} {ys : List (Option β)}
    (h : xs.mapM f = some ys) : ((ys.filterMap id).filterMap image).Sublist (xs.map key) := by
  replace h := forall₂_of_mapM h
  induction h with
  | nil => exact .slnil
  | @cons x first _ _ hfirst _ ih =>
    cases first with
    | none => exact ih.cons (key x)
    | some y =>
      simp only [List.filterMap_cons, id, hf x y hfirst, List.map_cons]
      exact ih.cons_cons (key x)

def Kind.root? : Kind → Option String
  | .static root => some root
  | .functional root _ _ => some root
  | .arbitrary .. => none

private theorem root?_eq (c : Candidate) : c.root? = c.kind.root? := by
  obtain ⟨kind, _, _, _, _⟩ := c
  cases kind <;> rfl

private theorem roots_parseFunctional (utilities : UtilityRegistry) (s : String)
    (modifierText : Option String) (modifier : Option Modifier) :
    ((parseFunctional utilities s modifierText modifier).filterMap Kind.root?).Sublist
      ((findRoots (utilities.has · .functional) s).map Prod.fst) := by
  unfold parseFunctional
  dsimp only
  split
  · exact List.nil_sublist _
  next kinds hkinds =>
    refine sublist_of_mapM ?_ hkinds
    rintro ⟨root, value⟩ kind hread
    cases value with
    | none =>
      cases hread
      rfl
    | some value =>
      obtain ⟨read, _, hread⟩ := Option.map_eq_some_iff.1 hread
      obtain ⟨_, _, rfl⟩ := Option.map_eq_some_iff.1 hread
      rfl

private theorem pairwise_parseBase (utilities : UtilityRegistry) (base : String) :
    ((parseBase utilities base).filterMap fun entry => entry.1.root?).Pairwise
      fun a b => b.length < a.length := by
  rcases parseBase_cases utilities base with
    ⟨-, heq⟩ | hproperty | ⟨_, name, modifierText, modifier, -, -, heq⟩
  · rw [heq]
    exact List.pairwise_singleton _ _
  · have hnone : (parseBase utilities base).filterMap (fun entry => entry.1.root?) = [] := by
      rw [List.filterMap_eq_nil_iff]
      intro entry hentry
      obtain ⟨_, _, _, rfl⟩ := hproperty entry hentry
      rfl
    rw [hnone]
    exact .nil
  · rw [heq, List.filterMap_map]
    exact (pairwise_findRoots _ name).sublist
      (roots_parseFunctional utilities name modifierText modifier)

theorem pairwise_parse (utilities : UtilityRegistry) (variants : VariantRegistry)
    (keyPrefix : Option String) (raw : String) :
    ((parse utilities variants keyPrefix raw).filterMap root?).Pairwise
      fun a b => b.length < a.length := by
  rcases parse_cases utilities variants keyPrefix raw with hnone | ⟨base, _, parsed, -, -, heq⟩
  · rw [hnone]
    exact .nil
  · have hroots : (parse utilities variants keyPrefix raw).filterMap root? =
        (parseBase utilities (stripImportant base).1).filterMap fun entry => entry.1.root? := by
      rw [heq, List.filterMap_map]
      exact List.filterMap_congr fun entry _ => root?_eq _
    rw [hroots]
    exact pairwise_parseBase utilities _

/-- Every reading without brackets spells the class name that it was read from. In every reading the
names are registered with the kinds that they are read as, and each compound variant, however deep,
may go around the variant inside. The readings of one class name have different names, the longest
first. -/
theorem parse_faithful (utilities : UtilityRegistry) (variants : VariantRegistry)
    (keyPrefix : Option String) (raw : String) :
    (∀ c ∈ parse utilities variants keyPrefix raw,
        (c.isBare = true → ∃ mark : Option ImportantMark,
          mark.isSome = c.important ∧ c.spelled keyPrefix mark = raw) ∧
        c.IsRegistered utilities ∧ ∀ v ∈ c.variants, variants.Admits v ∧ variants.WrapsRightly v) ∧
      ((parse utilities variants keyPrefix raw).filterMap root?).Nodup ∧
      ((parse utilities variants keyPrefix raw).filterMap root?).Pairwise
        fun a b => b.length < a.length := by
  refine ⟨fun c hc => ⟨spelled_of_mem_parse hc, ?_, fun v hv => ?_⟩, ?_, pairwise_parse ..⟩
  · obtain ⟨_, _, _, _, hbase, _⟩ := exists_of_mem_parse hc
    exact isRegistered_of_mem_parseBase hbase
  · obtain ⟨_, _, _, hparsed, _⟩ := exists_of_mem_parse hc
    obtain ⟨s, _, hs⟩ := exists_of_mem_mapM hparsed hv
    exact ⟨Variant.parse?_admits hs, Variant.parse?_wrapsRightly hs⟩
  · refine (pairwise_parse utilities variants keyPrefix raw).imp fun hlength heq => ?_
    rw [heq] at hlength
    exact Nat.lt_irrefl _ hlength

theorem parse_faithful_inset :
    let raw := "tw:group-focus/item:-inset-x-1/2!"
    let focus : Variant := .compound "group" (some (.named "item")) (.static "focus")
    let longer : Candidate :=
      ⟨.functional "inset-x" (some (.fraction "1/2")) none, [focus], true, true, raw⟩
    let shorter : Candidate :=
      ⟨.functional "inset" (some (.named "x-1")) (some (.named "2")), [focus], true, true, raw⟩
    parse .builtin (.builtin {}) (some "tw") raw = [longer, shorter] ∧
      (∃ mark, longer.spelled (some "tw") mark = raw) ∧
        ∃ mark, shorter.spelled (some "tw") mark = raw := by
  intro raw focus longer shorter
  have hread : parse .builtin (.builtin {}) (some "tw") raw = [longer, shorter] := by decide +kernel
  obtain ⟨hspelled, -⟩ := parse_faithful .builtin (.builtin {}) (some "tw") raw
  rw [hread] at hspelled
  obtain ⟨mark, -, hlonger⟩ := (hspelled longer (.head _)).1 (by decide)
  obtain ⟨mark', -, hshorter⟩ := (hspelled shorter (.tail _ (.head _))).1 (by decide)
  exact ⟨hread, ⟨mark, hlonger⟩, ⟨mark', hshorter⟩⟩

end Candidate

end UtilityCss
