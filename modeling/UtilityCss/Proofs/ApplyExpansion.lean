import UtilityCss.Proofs.Compilation

/-!
Expanding class names leaves no directive behind, as long as nothing brings one in later: the bodies
of custom variants, the animations of the theme and the variants that a class name writes in
brackets are put into the tree as they are.
-/
namespace UtilityCss

mutual

/-- No at-rule of a tree is this directive. What stands inside at-rules of the directive `passed` is
not looked at. -/
def Node.Lacks (d : Directive) (passed : Option Directive) : Node → Prop
  | .atRule name _ nodes =>
    passed = some (.ofName name) ∨ Directive.ofName name ≠ d ∧ AllLack d passed nodes
  | .rule _ nodes => AllLack d passed nodes
  | .context _ nodes => AllLack d passed nodes
  | .atRoot nodes => AllLack d passed nodes
  | .declaration .. => True
  | .comment _ => True

def AllLack (d : Directive) (passed : Option Directive) : List Node → Prop
  | [] => True
  | n :: ns => n.Lacks d passed ∧ AllLack d passed ns

end

section Lacks

variable {d : Directive} {passed : Option Directive} {nodes nodes' : List Node}

theorem allLack_iff : AllLack d passed nodes ↔ ∀ n ∈ nodes, n.Lacks d passed := by
  induction nodes with
  | nil => simp [AllLack]
  | cons n ns ih => simp [AllLack, ih]

theorem allLack_append :
    AllLack d passed (nodes ++ nodes') ↔ AllLack d passed nodes ∧ AllLack d passed nodes' := by
  simp only [allLack_iff, List.forall_mem_append]

theorem allLack_singleton {node : Node} : AllLack d passed [node] ↔ node.Lacks d passed := by
  simp [AllLack]

theorem lacks_atRule {name params : String} : (Node.atRule name params nodes).Lacks d none ↔
    Directive.ofName name ≠ d ∧ AllLack d none nodes := by
  simp [Node.Lacks]

mutual

theorem Node.Lacks.pass : ∀ {node : Node}, node.Lacks d none → node.Lacks d passed
  | .atRule _ _ _, h => .inr ⟨(lacks_atRule.1 h).1, AllLack.pass (lacks_atRule.1 h).2⟩
  | .rule _ _, h => AllLack.pass h
  | .context _ _, h => AllLack.pass h
  | .atRoot _, h => AllLack.pass h
  | .declaration .., _ => trivial
  | .comment _, _ => trivial

theorem AllLack.pass : ∀ {nodes : List Node}, AllLack d none nodes → AllLack d passed nodes
  | [], _ => trivial
  | _ :: _, h => ⟨Node.Lacks.pass h.1, AllLack.pass h.2⟩

end

mutual

theorem Node.Lacks.replaced {p : Directive} : ∀ {node : Node}, node.Lacks d (some p) →
    AllLack d none (node.replaced p [])
  | .atRule name params nodes, h => by
    rw [Node.replaced]
    split
    · trivial
    next hname =>
      rcases h with hpassed | ⟨hd, hnodes⟩
      · exact absurd (Option.some.inj hpassed).symm hname
      · exact allLack_singleton.2 (.inr ⟨hd, AllLack.replaced hnodes⟩)
  | .rule _ nodes, h => allLack_singleton.2 (AllLack.replaced h)
  | .context _ nodes, h => allLack_singleton.2 (AllLack.replaced h)
  | .atRoot nodes, h => allLack_singleton.2 (AllLack.replaced h)
  | .declaration .., _ => allLack_singleton.2 trivial
  | .comment _, _ => allLack_singleton.2 trivial

theorem AllLack.replaced {p : Directive} : ∀ {nodes : List Node}, AllLack d (some p) nodes →
    AllLack d none (allReplaced p [] nodes)
  | [], _ => trivial
  | _ :: _, h => allLack_append.2 ⟨Node.Lacks.replaced h.1, AllLack.replaced h.2⟩

end

end Lacks

theorem lacks_law :
    TreeLaw (Node.Lacks .apply none) fun name => Directive.ofName name ≠ .apply where
  declaration _ _ _ := trivial
  rule _ _ := allLack_iff
  atRule name params nodes := lacks_atRule.trans (and_congr_right fun _ => allLack_iff)
  children {node nodes} h hnodes := by
    cases node <;> simp only [Node.children?, Option.some.injEq, reduceCtorEq] at hnodes <;>
      subst hnodes
    · exact allLack_iff.1 h
    · exact allLack_iff.1 (lacks_atRule.1 h).2
    · exact allLack_iff.1 h
    · exact allLack_iff.1 h
  withChildren {node nodes} h hnodes := by
    cases node with
    | declaration | comment => exact h
    | rule | context | atRoot => exact allLack_iff.2 hnodes
    | atRule => exact lacks_atRule.2 ⟨(lacks_atRule.1 h).1, allLack_iff.2 hnodes⟩
  accepts := by decide +kernel

/-! ### Class names that write the directive -/

def Variant.isApply : Variant → Bool
  | .arbitrary selector _ => (Node.ofSelector selector []).directive? == some .apply
  | _ => false

/-- A class name that writes the directive as a variant in brackets. -/
def writesApply (raw : String) : Bool :=
  (Text.segment ':' raw).any fun part =>
    (Text.between? "[" "]" part).any fun inner => (Variant.ofSelector? inner).any Variant.isApply

abbrev Variant.IsExpandable (v : Variant) : Prop :=
  v.Accepted fun name => Directive.ofName name ≠ .apply

theorem named_ofSelector_iff {selector : String} :
    (Shell.ofSelector selector).Named (fun name => Directive.ofName name ≠ .apply) ↔
      (Node.ofSelector selector []).directive? ≠ some .apply := by
  rw [Node.ofSelector_eq_around]
  cases Shell.ofSelector selector with
  | rule selector => simp [Shell.Named, Shell.around, Node.directive?]
  | atRule name params => simp [Shell.Named, Shell.around, Node.directive?]

theorem Node.ofSelector_head {rest name params : String} {c : Char} (hc : c ≠ '@')
    (hcut : (Text.isBlank c || c == '(') = false) (hrest : rest.toList.head? = some c)
    (h : Node.ofSelector ("@" ++ rest) [] = .atRule name params []) :
    name.toList.head? = some c := by
  -- one `@` is taken off the name, but the name begins with `c`
  have hstay : ∀ {n : String}, n.toList.head? = some c → (Text.strip? "@" n).getD n = n := by
    intro n hn
    cases hstrip : Text.strip? "@" n with
    | none => rfl
    | some tail =>
      rw [Text.strip?_eq_some_iff] at hstrip
      simp only [hstrip, String.toList_append] at hn
      exact absurd (Option.some.inj hn).symm hc
  obtain ⟨cs, hcs⟩ : ∃ cs, rest.toList = c :: cs := List.head?_eq_some_iff.1 hrest
  have hstrip : Text.strip? "@" ("@" ++ rest) = some rest := Text.strip?_eq_some_iff.2 rfl
  simp only [Node.ofSelector, hstrip, Text.cutAt?, hcs, List.dropWhile_cons, List.takeWhile_cons,
    hcut, Bool.not_false, if_true] at h
  split at h
  next cut hsplit =>
    split at hsplit
    · cases hsplit
    · cases hsplit
      have hhead :
          (String.ofList (c :: cs.takeWhile fun c => !(Text.isBlank c || c == '('))).toList.head?
          = some c := by simp
      injection h with hname
      rw [← hname, hstay hhead, hhead]
  next =>
    injection h with hname
    rw [← hname, hstay hrest, hrest]

theorem Directive.head_of_apply {name : String} (h : Directive.ofName name = .apply) :
    name.toList.head? = some '@' ∨ name.toList.head? = some 'a' := by
  unfold Directive.ofName at h
  cases hstrip : Text.strip? "@" name with
  | some rest =>
    rw [Text.strip?_eq_some_iff] at hstrip
    exact .inl (by simp [hstrip])
  | none =>
    rw [hstrip, Option.getD_none] at h
    split at h <;> first | exact .inr rfl | cases h

/-- Inside a compound only conditions stand, and the directive is none. -/
theorem Variant.isExpandable_of_mayWrap {r : VariantRegistry} {root selector : String}
    {relative : Bool} (h : r.mayWrap root (.arbitrary selector relative) = true) :
    (Variant.arbitrary selector relative).IsExpandable := by
  have hmade : Compounds.ofSelector? selector ≠ none := by
    intro hnone
    have hnever : Compounds.ofSelectors [selector] = .never := by
      simp [Compounds.ofSelectors, hnone]
    simp only [VariantRegistry.mayWrap, VariantRegistry.compoundsOf?, hnever] at h
    split at h
    next heq =>
      cases heq
      simp [Compounds.intersects, Compounds.never] at h
    · cases h
  refine Shell.named_ofSelector fun name params hselector hname => ?_
  unfold Compounds.ofSelector? at hmade
  by_cases hat : Text.startsWith "@" selector = true
  · rw [if_pos hat] at hmade
    split at hmade
    next hstart =>
      obtain ⟨start, hmem, hstart⟩ := List.any_eq_true.1 hstart
      obtain ⟨tail, htail⟩ := Option.isSome_iff_exists.1 hstart
      rw [Text.strip?_eq_some_iff] at htail
      -- none of the three words begins as the directive does
      have hword : ∀ (c : Char) (word : String), c ≠ '@' → c ≠ 'a' →
          (Text.isBlank c || c == '(') = false → word.toList.head? = some c →
          selector ≠ "@" ++ word ++ tail := by
        rintro c word hc ha hcut hhead rfl
        have hrest : (word ++ tail).toList.head? = some c := by
          rw [String.toList_append, List.head?_append, hhead, Option.some_or]
        rw [String.append_assoc] at hselector
        have hfirst := Node.ofSelector_head hc hcut hrest hselector
        rcases Directive.head_of_apply hname with hat | ha'
        · exact hc (Option.some.inj (hfirst.symm.trans hat))
        · exact ha (Option.some.inj (hfirst.symm.trans ha'))
      simp only [List.mem_cons, List.not_mem_nil, or_false] at hmem
      rcases hmem with rfl | rfl | rfl
      · exact hword 'm' "media" (by decide) (by decide) (by decide) rfl htail
      · exact hword 's' "supports" (by decide) (by decide) (by decide) rfl htail
      · exact hword 'c' "container" (by decide) (by decide) (by decide) rfl htail
    · exact hmade rfl
  · have hnone : Text.strip? "@" selector = none := by simpa [Text.startsWith] using hat
    rw [Node.ofSelector, hnone] at hselector
    cases hselector

theorem Variant.bracketed_or_isExpandable {r : VariantRegistry} {s : String} {v : Variant}
    (h : Variant.parse? r s = some v) :
    (∃ inner, Text.between? "[" "]" s = some inner ∧ Variant.ofSelector? inner = some v) ∨
      v.IsExpandable := by
  replace h := parse?_reads h
  induction h with
  | selector hinner hv => exact .inl ⟨_, hinner, hv⟩
  | static => exact .inr trivial
  | functional => exact .inr trivial
  | compound _ _ _ hwrap _ hinner ih =>
    -- brackets inside a compound hold a condition
    rcases ih with ⟨_, -, hselector⟩ | hinner
    · obtain ⟨selector, relative, rfl⟩ := exists_of_ofSelector? hselector
      exact .inr (isExpandable_of_mayWrap hwrap)
    · exact .inr hinner

theorem DesignSystem.isExpandable_of_mem_parse {d : DesignSystem} {raw : String}
    (hraw : writesApply raw = false) {c : Candidate} (hc : c ∈ d.parse raw) {v : Variant}
    (hv : v ∈ c.variants) : v.IsExpandable := by
  obtain ⟨base, rawVariants, hparts, hparsed, -⟩ := Candidate.exists_of_mem_parse hc
  obtain ⟨part, hpart, hread⟩ := exists_of_mem_mapM hparsed hv
  have hsegment : part ∈ Text.segment ':' raw := by
    rw [Candidate.parts_eq hparts]
    simp [hpart]
  rcases Variant.bracketed_or_isExpandable hread with ⟨inner, hinner, hselector⟩ | hv
  · obtain ⟨selector, relative, rfl⟩ := Variant.exists_of_ofSelector? hselector
    have hplain := List.any_eq_false.1 hraw part hsegment
    refine named_ofSelector_iff.2 ?_
    simpa [hinner, hselector, Variant.isApply] using hplain
  · exact hv

/-! ### Expanding -/

mutual

def Node.appliedClasses : Node → List String
  | .atRule name params nodes =>
    match Directive.ofName name with
    | .utility => []
    | .apply => Text.words params
    | _ => allAppliedClasses nodes
  | .rule _ nodes => allAppliedClasses nodes
  | .context _ nodes => allAppliedClasses nodes
  | .atRoot nodes => allAppliedClasses nodes
  | .declaration .. => []
  | .comment _ => []

def allAppliedClasses : List Node → List String
  | [] => []
  | n :: ns => n.appliedClasses ++ allAppliedClasses ns

end

abbrev DesignSystem.IsExpandable (d : DesignSystem) : Prop :=
  d.Obeys (Node.Lacks .apply none)

section Expanding

variable {d d' : DesignSystem}

theorem Node.Lacks.unwrapClass {node : Node} (h : node.Lacks .apply none) :
    AllLack .apply none node.unwrapClass := by
  unfold Node.unwrapClass
  split
  · split
    · exact h
    · exact allLack_singleton.2 h
  · exact allLack_singleton.2 h

theorem DesignSystem.IsExpandable.expandApply (h : d.IsExpandable) {params : String}
    (hparams : ∀ raw ∈ Text.words params, writesApply raw = false) {nodes : List Node}
    (hexpand : (d.expandApply params).result = .ok nodes) : AllLack .apply none nodes := by
  have hnames : ∀ raw ∈ (splitApplyImportant (Text.words params)).1, writesApply raw = false := by
    unfold splitApplyImportant
    split
    · exact fun raw hraw => hparams raw (List.dropLast_subset _ hraw)
    · exact hparams
  have hrules := h.generate lacks_law fun raw hraw c hc v hv =>
    isExpandable_of_mem_parse (hnames raw hraw) hc hv
  unfold DesignSystem.expandApply at hexpand
  obtain ⟨_, _, hexpand⟩ := Traced.exists_of_bind hexpand
  split at hexpand
  · cases hexpand
  · cases hexpand
    have hcontent : AllLack .apply none
        ((d.generate (splitApplyImportant (Text.words params)).1).rules.flatMap
          Node.unwrapClass) := by
      rw [allLack_iff]
      intro n hn
      obtain ⟨rule, hrule, hn⟩ := List.mem_flatMap.1 hn
      exact allLack_iff.1 (Node.Lacks.unwrapClass (hrules rule hrule)) n hn
    split
    · exact allLack_iff.2 (lacks_law.markAllImportant (allLack_iff.1 hcontent))
    · exact hcontent

mutual

theorem Node.substituteApply_lacks (hd : d.IsExpandable) {passed : Option Directive} :
    ∀ {node : Node} {nodes : List Node}, passed = some .utility ∨ node.Lacks .utility none →
      (∀ raw ∈ node.appliedClasses, writesApply raw = false) →
      (node.substituteApply d).result = .ok nodes → AllLack .apply passed nodes
  | .atRule name params children, nodes, hpassed, hclasses, heq => by
    rw [Node.substituteApply] at heq
    split at heq
    -- a custom utility stays as it is
    next hname =>
      cases heq
      rcases hpassed with hpassed | hlacks
      · exact allLack_singleton.2 (.inl (hpassed.trans (congrArg some hname.symm)))
      · exact absurd hname (lacks_atRule.1 hlacks).1
    next hname =>
      rw [Node.appliedClasses, hname] at hclasses
      exact (hd.expandApply hclasses heq).pass
    next hutility happly =>
      obtain ⟨children', hchildren, heq⟩ := Traced.exists_of_bind heq
      cases heq
      have hsame : (Node.atRule name params children).appliedClasses =
          allAppliedClasses children := by
        rw [Node.appliedClasses]
        split
        next hname => exact absurd hname hutility
        next hname => exact absurd hname happly
        next => rfl
      rw [hsame] at hclasses
      refine allLack_singleton.2 (.inr ⟨happly, substituteAllApply_lacks hd ?_ hclasses hchildren⟩)
      exact hpassed.imp_right fun h => (lacks_atRule.1 h).2
  | .rule selector children, nodes, hpassed, hclasses, heq => by
    rw [Node.substituteApply] at heq
    obtain ⟨children', hchildren, heq⟩ := Traced.exists_of_bind heq
    cases heq
    exact allLack_singleton.2 (substituteAllApply_lacks hd hpassed hclasses hchildren)
  | .context entries children, nodes, hpassed, hclasses, heq => by
    rw [Node.substituteApply] at heq
    obtain ⟨children', hchildren, heq⟩ := Traced.exists_of_bind heq
    cases heq
    exact allLack_singleton.2 (substituteAllApply_lacks hd hpassed hclasses hchildren)
  | .atRoot children, nodes, hpassed, hclasses, heq => by
    rw [Node.substituteApply] at heq
    obtain ⟨children', hchildren, heq⟩ := Traced.exists_of_bind heq
    cases heq
    exact allLack_singleton.2 (substituteAllApply_lacks hd hpassed hclasses hchildren)
  | .declaration property value important, nodes, _, _, heq => by
    rw [Node.substituteApply] at heq
    cases heq
    exact allLack_singleton.2 trivial
  | .comment text, nodes, _, _, heq => by
    rw [Node.substituteApply] at heq
    cases heq
    exact allLack_singleton.2 trivial

theorem substituteAllApply_lacks (hd : d.IsExpandable) {passed : Option Directive} :
    ∀ {nodes nodes' : List Node}, passed = some .utility ∨ AllLack .utility none nodes →
      (∀ raw ∈ allAppliedClasses nodes, writesApply raw = false) →
      (substituteAllApply d nodes).result = .ok nodes' → AllLack .apply passed nodes'
  | [], nodes', _, _, heq => by
    rw [substituteAllApply] at heq
    cases heq
    trivial
  | n :: ns, nodes', hpassed, hclasses, heq => by
    rw [substituteAllApply] at heq
    obtain ⟨first, hfirst, heq⟩ := Traced.exists_of_bind heq
    obtain ⟨rest, hrest, heq⟩ := Traced.exists_of_bind heq
    cases heq
    rw [allAppliedClasses, List.forall_mem_append] at hclasses
    exact allLack_append.2
      ⟨Node.substituteApply_lacks hd (hpassed.imp_right And.left) hclasses.1 hfirst,
        substituteAllApply_lacks hd (hpassed.imp_right And.right) hclasses.2 hrest⟩

end

theorem DesignSystem.IsExpandable.defineUtility (h : d.IsExpandable) {name : String}
    {body : List Node} (hbody : AllLack .utility none body)
    (hclasses : ∀ raw ∈ allAppliedClasses body, writesApply raw = false)
    (hdefine : (d.defineUtility name body).result = .ok d') : d'.IsExpandable := by
  obtain ⟨expanded, hexpanded, hdefine⟩ := Traced.exists_of_bind hdefine
  cases hdefine
  have hlacks : AllLack .apply none expanded :=
    substituteAllApply_lacks h (.inr hbody) hclasses hexpanded
  refine h.addUtility name fun c theme nodes hnodes => ?_
  dsimp only [Utility.ofBody] at hnodes
  split at hnodes <;> cases hnodes
  exact allLack_iff.1 hlacks

mutual

theorem Node.Lacks.expandCalls {t : Theme} : ∀ {node node' : Node}, node.Lacks .apply none →
    node.expandCalls t = .ok node' → node'.Lacks .apply none
  | .declaration property none important, node', h, heq => by
    rw [Node.expandCalls] at heq
    cases heq
    trivial
  | .declaration property (some value) important, node', h, heq => by
    rw [Node.expandCalls] at heq
    obtain ⟨value', _, heq⟩ := Except.exists_of_bind heq
    cases heq
    trivial
  | .atRule name params nodes, node', h, heq => by
    rw [Node.expandCalls] at heq
    dsimp only at heq
    split at heq
    all_goals
      obtain ⟨params', _, heq⟩ := Except.exists_of_bind heq
      obtain ⟨nodes', hnodes', heq⟩ := Except.exists_of_bind heq
      cases heq
      exact lacks_atRule.2
        ⟨(lacks_atRule.1 h).1, AllLack.expandAllCalls (lacks_atRule.1 h).2 hnodes'⟩
  | .rule selector nodes, node', h, heq => by
    rw [Node.expandCalls] at heq
    obtain ⟨nodes', hnodes', rfl⟩ := Except.exists_of_map heq
    exact AllLack.expandAllCalls h hnodes'
  | .context entries nodes, node', h, heq => by
    rw [Node.expandCalls] at heq
    obtain ⟨nodes', hnodes', rfl⟩ := Except.exists_of_map heq
    exact AllLack.expandAllCalls h hnodes'
  | .atRoot nodes, node', h, heq => by
    rw [Node.expandCalls] at heq
    obtain ⟨nodes', hnodes', rfl⟩ := Except.exists_of_map heq
    exact AllLack.expandAllCalls h hnodes'
  | .comment text, node', h, heq => by
    rw [Node.expandCalls] at heq
    cases heq
    trivial

theorem AllLack.expandAllCalls {t : Theme} : ∀ {nodes nodes' : List Node},
    AllLack .apply none nodes → expandAllCalls t nodes = .ok nodes' → AllLack .apply none nodes'
  | [], nodes', h, heq => by
    rw [UtilityCss.expandAllCalls] at heq
    cases heq
    trivial
  | n :: ns, nodes', h, heq => by
    rw [UtilityCss.expandAllCalls] at heq
    obtain ⟨first, hfirst, heq⟩ := Except.exists_of_bind heq
    obtain ⟨rest, hrest, heq⟩ := Except.exists_of_bind heq
    cases heq
    exact ⟨Node.Lacks.expandCalls h.1 hfirst, AllLack.expandAllCalls h.2 hrest⟩

end

end Expanding

/-! ### The compiled stylesheet -/

def CustomVariant.IsExpandable : CustomVariant → Prop
  | .selectors list => ∀ selector ∈ list, (Node.ofSelector selector []).directive? ≠ some .apply
  | .body nodes => AllLack .apply none nodes

/-- Whatever compiling copies into the tree or expands in a single pass is free of the directive:
custom variants, the animations that the theme shows, custom utilities inside other ones, and the
variants of the class names that are used. -/
structure Compilation.IsExpandable {css : String} {options : CompileOptions}
    (r : Compilation css options) : Prop where
  variants : ∀ entry ∈ r.collected.variants, entry.2.IsExpandable
  keyframes : AllLack .apply none r.collected.theme.referencedKeyframes
  utilities : ∀ entry ∈ r.collected.utilities, AllLack .utility none entry.2
  bodies : ∀ entry ∈ r.collected.utilities, ∀ raw ∈ allAppliedClasses entry.2,
    writesApply raw = false
  classes : ∀ raw ∈ allAppliedClasses r.nodes, writesApply raw = false

section Compiled

variable {css : String} {options : CompileOptions} {r : Compilation css options}

theorem Collected.isExpandable_system {c : Collected}
    (h : ∀ entry ∈ c.variants, entry.2.IsExpandable) (important : Bool) :
    (c.system important).IsExpandable := by
  have hstart := (DesignSystem.obeys_ofTheme lacks_law c.theme).remember important []
  refine List.foldlRecOn (motive := DesignSystem.IsExpandable) c.variants _ hstart ?_
  rintro d hd ⟨name, variant⟩ hentry
  have hvariant := h _ hentry
  cases variant with
  | selectors selectors =>
    refine ⟨hd.utilities, hd.variants.ofSelectors lacks_law name fun selector hselector => ?_⟩
    exact named_ofSelector_iff.2 (hvariant selector hselector)
  | body nodes =>
    exact ⟨hd.utilities, hd.variants.ofBody lacks_law name (allLack_iff.1 hvariant)⟩

theorem Theme.nodes_lack {t : Theme} (h : AllLack .apply none t.referencedKeyframes) :
    AllLack .apply none t.nodes := by
  have hdeclarations : AllLack .apply none t.declarations := by
    rw [allLack_iff]
    intro n hn
    obtain ⟨entry, _, rfl⟩ := List.mem_map.1 hn
    trivial
  unfold Theme.nodes
  refine allLack_append.2 ⟨?_, ?_⟩
  · split
    · trivial
    · exact allLack_singleton.2 hdeclarations
  · split
    · trivial
    · exact allLack_singleton.2 h

private theorem placeTheme_lacks {t : Theme} {nodes : List Node} (ht : AllLack .apply none t.nodes)
    (h : AllLack .apply none nodes) : AllLack .apply none (placeTheme t nodes) := by
  unfold placeTheme
  split
  · exact h
  next address haddress =>
    refine allLack_iff.2 (lacks_law.modify (allLack_iff.1 h) fun node hnode => ?_)
    have hat := lacks_law.of_get? (allLack_iff.1 h) hnode
    cases hmap : node.mapChildren? fun inner => inner ++ t.nodes with
    | none => exact hat
    | some made =>
      refine lacks_law.mapChildren? hat (fun inner hinner => ?_) hmap
      exact List.forall_mem_append.2 ⟨hinner, allLack_iff.1 ht⟩

theorem Compilation.IsExpandable.system (h : r.IsExpandable) (hmodules : r.collected.modules = []) :
    r.system.IsExpandable ∧ r.system.theme = r.collected.theme := by
  have hdefine := r.system_eq
  rw [r.modules_of_none hmodules] at hdefine
  refine ⟨?_, r.theme_system hmodules⟩
  refine DesignSystem.defineUtilities_keeps (motive := DesignSystem.IsExpandable)
    (Collected.isExpandable_system h.variants r.forwarded.important) ?_ hdefine
  intro entry hentry d d' hd hnext
  exact hd.defineUtility (h.utilities entry hentry) (h.bodies entry hentry) hnext

theorem Compilation.IsExpandable.tree (h : r.IsExpandable) (hmodules : r.collected.modules = []) :
    AllLack .apply none r.compiler.tree := by
  obtain ⟨hsystem, htheme⟩ := h.system hmodules
  have happly := r.apply_eq
  rw [r.modules_of_none hmodules] at happly
  have happlied : AllLack .apply (some .utility) r.applied :=
    substituteAllApply_lacks hsystem (.inl rfl) h.classes happly
  have hexpand := r.expand_eq
  rw [replaceDirective_eq] at hexpand
  have hkeyframes := h.keyframes
  rw [← htheme] at hkeyframes
  exact placeTheme_lacks (Theme.nodes_lack hkeyframes) (happlied.replaced.expandAllCalls hexpand)

/-- The directive is gone from the compiled tree, whatever is built afterwards, unless a custom
variant, an animation, a custom utility inside another one or a variant in brackets brings it in. -/
theorem Compilation.apply_eliminated (r : Compilation css options)
    (hmodules : r.collected.modules = []) (h : r.IsExpandable) (batches : List (List String))
    (hbatches : ∀ raw ∈ batches.flatten, writesApply raw = false) :
    (compile css options).result = .ok r.compiler ∧
      AllLack .apply none (r.compiler.buildAll batches).tree := by
  refine ⟨r.compile_eq, ?_⟩
  have htree := h.tree hmodules
  rw [r.tree_buildAll, Compiler.placed]
  split
  · exact htree
  · refine allLack_iff.2 (lacks_law.modify (allLack_iff.1 htree) fun node hnode => ?_)
    refine lacks_law.withChildren (lacks_law.of_get? (allLack_iff.1 htree) hnode) ?_
    exact (h.system hmodules).1.generate lacks_law fun raw hraw c hc v hv =>
      DesignSystem.isExpandable_of_mem_parse (hbatches raw hraw) hc hv

end Compiled

/-! ### A stylesheet that uses a class name, and one that keeps the directive -/

theorem DesignSystem.generate_property {d : DesignSystem} (hbare : d.theme.keyPrefix = none)
    (himportant : d.important = false) (hinvalid : d.invalid = []) :
    (d.generate ["[a:b]"]).rules = [.rule ("." ++ Text.escape "[a:b]") [.decl "a" "b"]] ∧
      (d.generate ["[a:b]"]).reported = [] := by
  let reading : Candidate := ⟨.arbitrary "a" "b" none, [], false, false, "[a:b]"⟩
  have hbase : Candidate.parseBase d.utilities "[a:b]" = [(reading.kind, false)] := by
    have bracket : Text.hasChar '[' "[a:b]" = true := by decide
    rw [Candidate.parseBase, bracket]
    simp only [Bool.not_true, Bool.and_false, Bool.false_eq_true, if_false]
    cbv
  have hparse : d.parse "[a:b]" = [reading] := by
    have segments : Text.segment ':' "[a:b]" = ["[a:b]"] := by cbv
    have unmarked : Candidate.stripImportant "[a:b]" = ("[a:b]", false) := by cbv
    simp [DesignSystem.parse, Candidate.parse, segments, Candidate.dropPrefix?, hbare,
      unmarked, hbase, reading]
  have hrule : d.rulesOf reading =
      [(.rule ("." ++ Text.escape "[a:b]") [.decl "a" "b"], propertySort [.decl "a" "b"])] := by
    simp [rulesOf, declarations, asColor, himportant, applyVariants, reading]
  have once : ["[a:b]"].eraseDups = ["[a:b]"] := rfl
  have known : d.isInvalid "[a:b]" = false := by simp [isInvalid, hinvalid]
  constructor <;> simp [generate, once, hparse, known, generatedRules, hrule]

theorem DesignSystem.expandApply_property {d : DesignSystem} (hbare : d.theme.keyPrefix = none)
    (himportant : d.important = false) (hinvalid : d.invalid = []) :
    (d.expandApply "[a:b]").result = .ok [.decl "a" "b"] := by
  obtain ⟨hrules, hreported⟩ := d.generate_property hbare himportant hinvalid
  have hwords : splitApplyImportant (Text.words "[a:b]") = (["[a:b]"], false) := by cbv
  have hunwrap : Node.unwrapClass (.rule ("." ++ Text.escape "[a:b]") [.decl "a" "b"]) =
      [.decl "a" "b"] := by cbv
  simp [expandApply, hwords, hrules, hreported, hunwrap, Traced.report,
    Traced.result_bind, Except.bind]

theorem DesignSystem.defineUtilities_of_ready {d : DesignSystem}
    {pending : List (String × List Node)}
    (h : ∀ entry ∈ pending, isReady (pending.map Prod.fst) entry.2 = true) :
    (d.defineUtilities pending).result =
      (pending.foldlM (fun (d : DesignSystem) entry => d.defineUtility entry.1 entry.2)
        d).result := by
  have hnil : ∀ d : DesignSystem, d.defineUtilities [] = pure d := fun d => by
    rw [DesignSystem.defineUtilities]
  cases pending with
  | nil => rw [hnil]; rfl
  | cons entry rest =>
    have hready : (entry :: rest).filter
        (fun e => isReady ((entry :: rest).map Prod.fst) e.2) = entry :: rest :=
      List.filter_eq_self.2 h
    have hdone : (entry :: rest).filter
        (fun e => !isReady ((entry :: rest).map Prod.fst) e.2) = [] :=
      List.filter_eq_nil_iff.2 fun e he => by simpa using h e he
    rw [DesignSystem.defineUtilities, hready, hdone, dif_neg (by simp), funext hnil,
      Traced.result_bind]
    cases (List.foldlM (fun (d : DesignSystem) entry => d.defineUtility entry.1 entry.2) d
      (entry :: rest)).result <;> rfl

def usedProperty : List Node := [.atRule "apply" "[a:b]" []]

section UsedProperty

variable {d : DesignSystem} (hbare : d.theme.keyPrefix = none) (himportant : d.important = false)
  (hinvalid : d.invalid = [])

include hbare himportant hinvalid

theorem substituteAllApply_usedProperty :
    (substituteAllApply d usedProperty).result = .ok [.decl "a" "b"] := by
  have hname : Directive.ofName "apply" = .apply := by decide
  simp [usedProperty, substituteAllApply, Node.substituteApply, hname,
    DesignSystem.expandApply_property hbare himportant hinvalid, Except.bind]

theorem DesignSystem.defineUtilities_usedProperty :
    (d.defineUtilities [("u", usedProperty)]).result =
      .ok (d.addUtility "u" (.ofBody [.decl "a" "b"])) := by
  have hready : isReady ["u"] usedProperty = true := by cbv
  rw [DesignSystem.defineUtilities_of_ready (by simpa using hready)]
  simp [DesignSystem.defineUtility, substituteAllApply_usedProperty hbare himportant hinvalid,
    Except.bind]

end UsedProperty

theorem appliedClasses_usedProperty : allAppliedClasses usedProperty = ["[a:b]"] := by
  have hname : Directive.ofName "apply" = .apply := by decide
  have hwords : Text.words "[a:b]" = ["[a:b]"] := by cbv
  simp [usedProperty, allAppliedClasses, Node.appliedClasses, hname, hwords]

def hoverBody : List Node := [.rule "&:hover" [.atRule "slot" "" []]]

def appliedCollected : Collected :=
  { utilities := [("u", usedProperty)], variants := [("v", .body hoverBody)],
    utilitiesPlaced := true }

def appliedNodes (body : List Node) : List Node :=
  [.atRule "utility" "u" usedProperty, .rule ".c" body, placeholder utilitiesKey]

private theorem expandAllCalls_appliedNodes (t : Theme) :
    expandAllCalls t (replaceDirective .utility [] (appliedNodes [.decl "a" "b"])) =
      .ok [.rule ".c" [.decl "a" "b"], placeholder utilitiesKey] := by
  have hname : Directive.ofName "utility" = .utility := by decide
  have hvalue : t.expandText "b" = .ok "b" := Theme.expandText_of_plain (by decide +kernel)
  simp [replaceDirective_eq, appliedNodes, allReplaced, Node.replaced, hname, expandAllCalls,
    Node.expandCalls, Node.decl, hvalue, placeholder, bind, Except.bind, Except.map,
    pure, Except.pure]

def appliedRun : Compilation
    ("@variant v { &:hover { @slot; } } @utility u { @apply [a:b]; } " ++
      ".c { @apply [a:b]; } @tailwind utilities;")
    { base := ⟨"/"⟩ } :=
  let parsed : List Node :=
    [.atRule "variant" "v" hoverBody, .atRule "utility" "u" usedProperty, .rule ".c" usedProperty,
      .atRule "tailwind" "utilities" []]
  { parsed
    spliced := parsed
    forwarded := ⟨parsed, false⟩
    nodes := appliedNodes usedProperty
    collected := appliedCollected
    modules := ⟨appliedCollected.system false, appliedNodes usedProperty⟩
    system := (appliedCollected.system false).addUtility "u" (.ofBody [.decl "a" "b"])
    applied := appliedNodes [.decl "a" "b"]
    expanded := [.rule ".c" [.decl "a" "b"], placeholder utilitiesKey]
    parse_eq := by cbv
    splice_eq := by cbv
    forward_eq := by cbv
    collect_eq := rfl
    modules_eq := rfl
    system_eq := DesignSystem.defineUtilities_usedProperty rfl rfl rfl
    apply_eq := by
      have hname : Directive.ofName "utility" = .utility := by decide
      have hrule : (substituteAllApply ((appliedCollected.system false).addUtility "u"
          (.ofBody [.decl "a" "b"])) usedProperty).result = .ok [.decl "a" "b"] :=
        substituteAllApply_usedProperty rfl rfl rfl
      simp [appliedNodes, substituteAllApply, Node.substituteApply, hname, hrule,
        Except.bind, placeholder]
    expand_eq := expandAllCalls_appliedNodes _ }

theorem appliedRun_isExpandable : appliedRun.IsExpandable where
  variants := by
    intro entry hentry
    obtain rfl := List.mem_singleton.1 hentry
    exact allLack_singleton.2 (allLack_singleton.2 (.inr ⟨by decide, trivial⟩))
  keyframes := trivial
  utilities := by
    intro entry hentry
    obtain rfl := List.mem_singleton.1 hentry
    exact allLack_singleton.2 (.inr ⟨by decide, trivial⟩)
  bodies := by
    intro entry hentry
    obtain rfl := List.mem_singleton.1 hentry
    dsimp only
    rw [appliedClasses_usedProperty]
    decide +kernel
  classes := by
    have hname : Directive.ofName "utility" = .utility := by decide
    have hclasses : allAppliedClasses appliedRun.nodes = ["[a:b]"] := by
      simp [appliedRun, appliedNodes, allAppliedClasses, Node.appliedClasses, hname, placeholder,
        appliedClasses_usedProperty]
    rw [hclasses]
    decide +kernel

theorem Compilation.apply_eliminated_hover :
    appliedRun.collected.modules = [] ∧ appliedRun.IsExpandable ∧
      (∀ raw ∈ [["v:u", "u"], ["[&:hover]:u"]].flatten, writesApply raw = false) ∧
      AllLack .apply none (appliedRun.compiler.buildAll [["v:u", "u"], ["[&:hover]:u"]]).tree := by
  have hbatches : ∀ raw ∈ [["v:u", "u"], ["[&:hover]:u"]].flatten, writesApply raw = false := by
    decide +kernel
  exact ⟨rfl, appliedRun_isExpandable, hbatches,
    (appliedRun.apply_eliminated rfl appliedRun_isExpandable _ hbatches).2⟩

def animatedTheme (body : List Node) : Theme :=
  { entries := [("--animate-x", ⟨"x", {}⟩)], keyframes := [.atRule "keyframes" "x" body] }

theorem animatedTheme_shows (body : List Node) :
    (animatedTheme body).referencedKeyframes = [.atRule "keyframes" "x" body] := by
  have hwithin : Theme.isWithin "--animate" "--animate-x" = true := by decide
  have hnames : Theme.animationNames "x" = ["x"] := by
    simp [Theme.animationNames, Text.isBlank, List.splitOnP_cons_eq_if_modifyHead]
  simp [Theme.referencedKeyframes, animatedTheme, hwithin, hnames]

/-- The directive stays in an animation, which is put into the tree behind everything else. -/
theorem compile_keeps_apply : ∃ c,
    (compile "@theme \x7b --animate-x: x; @keyframes x \x7b @apply flex; \x7d \x7d"
      { base := ⟨"/"⟩ }).result = .ok c ∧ ¬AllLack .apply none c.tree := by
  let body : List Node := [.atRule "apply" "flex" []]
  let parsed : List Node :=
    [.atRule "theme" "" [.decl "--animate-x" "x", .atRule "keyframes" "x" body]]
  let collected : Collected := { theme := animatedTheme body, themePlaced := true }
  let run : Compilation "@theme \x7b --animate-x: x; @keyframes x \x7b @apply flex; \x7d \x7d"
      { base := ⟨"/"⟩ } :=
    .plain parsed [placeholder themeKey] [placeholder themeKey] collected (by cbv) (by cbv) (by cbv)
      (by cbv) rfl rfl rfl rfl
  refine ⟨run.compiler, run.compile_eq, fun h => ?_⟩
  have hnodes : AllLack .apply none (animatedTheme body).nodes := h.1
  rw [Theme.nodes, animatedTheme_shows] at hnodes
  have hkeyframes : (Node.atRule "keyframes" "x" body).Lacks .apply none :=
    (allLack_singleton.1 (allLack_append.1 hnodes).2).1
  exact (lacks_atRule.1 (lacks_atRule.1 hkeyframes).2.1).1 rfl

end UtilityCss
