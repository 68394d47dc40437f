import Mathlib.Data.List.Forall2
import UtilityCss.Compiler
import UtilityCss.Proofs.TreeLaw

/-!
Where variants put the content of a rule. All variants but the compounds and those with a body nest
the content in blocks of their own, so what they make is known from what they make of an empty rule:
the content goes into the empty blocks. A compound is built in this way from its inner variant.
-/
namespace UtilityCss

/-! ### Filling -/

theorem fillAllLeaves_eq_map (content nodes : List Node) :
    fillAllLeaves content nodes = nodes.map (Node.fillLeaves content) := by
  induction nodes with
  | nil => rfl
  | cons n ns ih => rw [fillAllLeaves, ih, List.map_cons]

mutual

theorem Node.fillLeaves_nil : ∀ node : Node, node.fillLeaves [] = node
  | .rule selector nodes => by
    rw [Node.fillLeaves, fillAllLeaves_nil nodes]
    cases nodes <;> rfl
  | .atRule name params nodes => by
    rw [Node.fillLeaves, fillAllLeaves_nil nodes]
    cases nodes <;> rfl
  | .context entries nodes => by rw [Node.fillLeaves, fillAllLeaves_nil nodes]
  | .atRoot nodes => by rw [Node.fillLeaves, fillAllLeaves_nil nodes]
  | .declaration .. => rfl
  | .comment _ => rfl

theorem fillAllLeaves_nil : ∀ nodes : List Node, fillAllLeaves [] nodes = nodes
  | [] => rfl
  | n :: ns => by rw [fillAllLeaves, n.fillLeaves_nil, fillAllLeaves_nil ns]

end

theorem Shell.fillLeaves_around (shell : Shell) (shells : List Shell) (content : List Node) :
    (shell.around (nestIn shells [])).fillLeaves content =
      shell.around (nestIn shells content) := by
  induction shells generalizing shell with
  | nil => cases shell <;> rfl
  | cons inner shells ih =>
    have hinner : fillAllLeaves content [inner.around (nestIn shells [])] =
        [inner.around (nestIn shells content)] := by
      rw [fillAllLeaves, ih, fillAllLeaves]
    cases shell with
    | rule selector => exact congrArg (Node.rule selector) hinner
    | atRule name params => exact congrArg (Node.atRule name params) hinner

theorem Shell.conditions?_around (shell : Shell) (shells : List Shell) :
    (shell.around (nestIn shells [])).conditions?.isSome = true := by
  induction shells generalizing shell with
  | nil => cases shell <;> rfl
  | cons inner shells ih =>
    have hinner : (onlyConditions? (nestIn (inner :: shells) [])).isSome = true := ih inner
    cases shell with
    | rule selector => rwa [Shell.around, Node.conditions?, Option.isSome_map]
    | atRule name params => rwa [Shell.around, Node.conditions?, Option.isSome_map]

def PlacesContent (apply : Node → Option Node) : Prop :=
  ∃ place? : Option (List Node → List Node), ∀ node content, node.children? = some content →
    apply node = place?.map fun place => node.withChildren (place content)

/-- Applied to nodes that can have content, this always fails, or it puts the content into the
innermost block of each of some nests of blocks. -/
def FillsNests (apply : Node → Option Node) : Prop :=
  ∃ nests? : Option (List Node),
    (∀ nests ∈ nests?, nests ≠ [] ∧ ∀ nest ∈ nests, nest.conditions?.isSome = true) ∧
      ∀ node content, node.children? = some content →
        apply node = nests?.map fun nests => node.withChildren (fillAllLeaves content nests)

theorem FillsNests.places {apply : Node → Option Node} (h : FillsNests apply) :
    PlacesContent apply := by
  obtain ⟨nests?, -, happly⟩ := h
  refine ⟨nests?.map fun nests content => fillAllLeaves content nests,
    fun node content hcontent => ?_⟩
  rw [happly node content hcontent, Option.map_map]
  rfl

theorem Node.mapChildren?_of_children {node : Node} {content : List Node}
    (h : node.children? = some content) (place : List Node → List Node) :
    node.mapChildren? place = some (node.withChildren (place content)) := by
  rw [Node.mapChildren?, h, Option.map_some]

theorem FillsEach.fills {nests : List Nest} {apply : Node → Option Node} (h : FillsEach nests apply)
    (hne : nests ≠ []) : FillsNests apply := by
  refine ⟨some (nests.map fun nest => nest.around []), ?_, fun node content hcontent => ?_⟩
  · rintro _ ⟨⟩
    exact ⟨by simpa using hne, List.forall_mem_map.2 fun nest _ => nest.outer.conditions?_around _⟩
  · rw [h node, Node.mapChildren?_of_children hcontent, Option.map_some, fillAllLeaves_eq_map,
      List.map_map]
    refine congrArg (fun nodes => some (node.withChildren nodes)) ?_
    exact List.map_congr_left fun nest _ => (nest.outer.fillLeaves_around _ content).symm

theorem NestsContent.fills {ok : String → Prop} {apply : Node → Option Node}
    (h : NestsContent ok apply) : FillsNests apply := by
  rcases h with hnone | ⟨nests, hne, -, hfills⟩
  · exact ⟨none, by simp, fun node _ _ => hnone node⟩
  · exact hfills.fills hne

theorem FillsNests.blocks {apply : Node → Option Node} (h : FillsNests apply) {made : Node}
    (hmade : apply .slot = some made) :
    made.children?.getD [] ≠ [] ∧
      ∀ nest ∈ made.children?.getD [], nest.conditions?.isSome = true := by
  obtain ⟨nests?, hnests, happly⟩ := h
  rw [happly .slot [] rfl] at hmade
  obtain ⟨nests, rfl, rfl⟩ := Option.map_eq_some_iff.1 hmade
  rw [fillAllLeaves_nil]
  exact hnests nests rfl

theorem PlacesContent.mapChildren? (place : List Node → List Node) :
    PlacesContent fun node => node.mapChildren? place :=
  ⟨some place, fun _ _ hcontent => Node.mapChildren?_of_children hcontent place⟩

theorem Node.children?_withChildren {node : Node} {content : List Node}
    (h : node.children? = some content) (nodes : List Node) :
    (node.withChildren nodes).children? = some nodes := by
  cases node <;> first | rfl | cases h

theorem Node.withChildren_withChildren (node : Node) (nodes nodes' : List Node) :
    (node.withChildren nodes).withChildren nodes' = node.withChildren nodes' := by
  cases node <;> rfl

theorem PlacesContent.bind {first second : Node → Option Node} (hfirst : PlacesContent first)
    (hsecond : PlacesContent second) : PlacesContent fun node => (first node).bind second := by
  obtain ⟨place?, hfirst⟩ := hfirst
  obtain ⟨place'?, hsecond⟩ := hsecond
  refine ⟨place?.bind fun place => place'?.map fun place' content => place' (place content),
    fun node content hcontent => ?_⟩
  dsimp only
  rw [hfirst node content hcontent]
  cases place? with
  | none => rfl
  | some place =>
    have hchildren := Node.children?_withChildren hcontent (place content)
    simp only [Option.map_some, Option.bind_some, hsecond _ _ hchildren, Option.map_map]
    cases place'? with
    | none => rfl
    | some place' => simp [Node.withChildren_withChildren]

/-! ### Registered variants -/

def applyBody (body : List Node) : VariantApply := fun node _ _ =>
  some ((node.mapChildren? fun content => replaceDirective .slot content body).getD node)

theorem applyBody_of_children {body content : List Node} {node : Node}
    (h : node.children? = some content) (v : Variant) (theme : Theme) :
    applyBody body node v theme = some (node.withChildren (allReplaced .slot content body)) := by
  rw [applyBody, Node.mapChildren?_of_children h, replaceDirective_eq, Option.getD_some]

def gathered : List Node → Node
  | [only] => only
  | several => .rule "&" several

structure Negates (node : Node) (v : Variant) (c : Conditions) (selectors : List String)
    (atRules : List Node) : Prop where
  variant : ∃ root inner, v = .compound root none inner ∧ inner.isRelative = false
  conditions : node.conditions? = some c
  selectors_le : c.selectors.length ≤ 1
  atRules_le : c.atRules.length ≤ 1
  selectors : c.selectors.mapM negateSelector? = some selectors
  atRules : (c.atRules.mapM fun (name, params) => negateAtRule? name params) = some atRules

theorem negate_eq_some {node node' : Node} {v : Variant} {theme : Theme}
    (h : negate node v theme = some node') : ∃ c selectors atRules,
      Negates node v c selectors atRules ∧
        node' = gathered (selectors.map (fun s => Node.rule s []) ++ atRules) := by
  unfold negate at h
  split at h
  next root inner =>
    split at h
    · cases h
    next hrelative =>
      obtain ⟨c, hc, h⟩ := Option.bind_eq_some_iff.1 h
      split at h
      · cases h
      next hlength =>
        obtain ⟨selectors, hselectors, h⟩ := Option.bind_eq_some_iff.1 h
        obtain ⟨atRules, hatRules, h⟩ := Option.bind_eq_some_iff.1 h
        simp only [Bool.or_eq_true, decide_eq_true_eq, not_or, Nat.not_lt] at hlength
        refine ⟨c, selectors, atRules, ⟨⟨root, inner, rfl, by simpa using hrelative⟩, hc, hlength.1,
          hlength.2, hselectors, hatRules⟩, ?_⟩
        generalize selectors.map (fun s => Node.rule s []) ++ atRules = blocks at h ⊢
        match blocks, h with
        | [], rfl => rfl
        | [only], rfl => rfl
        | first :: second :: rest, rfl => rfl
  · cases h

theorem exists_of_negateAtRule? {name params : String} {node : Node}
    (h : negateAtRule? name params = some node) : ∃ params', node = .atRule name params' [] := by
  simp only [negateAtRule?] at h
  split at h
  · cases h
    exact ⟨_, rfl⟩
  · cases h
    exact ⟨_, rfl⟩
  · cases h

/-- What is known of a registered variant. A variant that does more than filling nests cannot be
part of a compound, unless it has a body. -/
inductive VariantDefinition.Known (name : String) (d : VariantDefinition) : Prop
  | compound (hkind : d.kind = .compound) (happly : (name, d.apply) ∈ compoundApplications)
  | fills (hkind : d.kind ≠ .compound)
      (happly : ∀ v theme, FillsNests fun node => d.apply node v theme)
  | body (hkind : d.kind = .static) (body : List Node) (happly : d.apply = applyBody body)
  | alone (hkind : d.kind ≠ .compound)
    (happly : ∀ v theme, PlacesContent fun node => d.apply node v theme)
    (hcompounds : d.compounds = .never)

theorem VariantDefinition.Known.places {name : String} {d : VariantDefinition} (h : d.Known name)
    (hkind : d.kind ≠ .compound) (v : Variant) (theme : Theme) :
    PlacesContent fun node => d.apply node v theme := by
  cases h with
  | compound hcompound _ => exact absurd hcompound hkind
  | fills _ happly => exact (happly v theme).places
  | body _ body happly =>
    refine ⟨some fun content => allReplaced .slot content body, fun node content hcontent => ?_⟩
    dsimp only
    rw [happly, applyBody_of_children hcontent, Option.map_some]
  | alone _ happly _ => exact happly v theme

theorem VariantDefinition.Known.mem_compoundApplications {name : String} {d : VariantDefinition}
    (h : d.Known name) (hkind : d.kind = .compound) : (name, d.apply) ∈ compoundApplications := by
  cases h with
  | compound _ happly => exact happly
  | fills hne _ => exact absurd hkind hne
  | body hstatic _ _ => simp [hkind] at hstatic
  | alone hne _ _ => exact absurd hkind hne

theorem VariantDefinition.Known.fills_or_body {name : String} {d : VariantDefinition}
    (h : d.Known name) (hkind : d.kind ≠ .compound) (hcompounds : d.compounds ≠ .never) :
    (∀ v theme, FillsNests fun node => d.apply node v theme) ∨
      d.kind = .static ∧ ∃ body, d.apply = applyBody body := by
  cases h with
  | compound hcompound _ => exact absurd hcompound hkind
  | fills _ happly => exact .inl happly
  | body hstatic body happly => exact .inr ⟨hstatic, body, happly⟩
  | alone _ _ hnever => exact absurd hnever hcompounds

theorem VariantDefinition.Stock.known {name : String} {d : VariantDefinition} (h : d.Stock name) :
    d.Known name := by
  cases h with
  | compound hkind happly => exact .compound hkind happly
  | nests hkind happly => exact .fills hkind fun v theme => (happly v theme).fills
  | element hkind selector happly hcompounds =>
    exact .alone hkind (fun _ _ => happly ▸ .mapChildren? _) hcompounds

namespace VariantRegistry

variable {r : VariantRegistry}

def Known (r : VariantRegistry) : Prop :=
  r.Each fun name d => d.Known name

private theorem builtin_known (theme : Theme) : (builtin theme).Known :=
  fun name d hd => (builtin_stock theme name d hd).known

theorem Known.ofSelectors (h : r.Known) (name : String) (selectors : List String) :
    (r.ofSelectors name selectors).Known := by
  refine Each.set h fun _ => ?_
  cases selectors with
  | nil => exact .alone (by simp) (fun _ _ => .mapChildren? _) rfl
  | cons first rest =>
    refine .fills (by simp) fun _ _ => ?_
    exact (ofSelectors_fillsEach _).fills (selectorNests_ne_nil (List.cons_ne_nil _ _))

theorem Known.ofBody (h : r.Known) (name : String) (body : List Node) :
    (r.ofBody name body).Known :=
  Each.set h fun _ => .body rfl body rfl

theorem Extended.known (h : r.Extended) : r.Known := by
  induction h with
  | builtin theme => exact builtin_known theme
  | ofSelectors name selectors _ ih => exact ih.ofSelectors name selectors
  | ofBody name body _ ih => exact ih.ofBody name body

/-- All variants but the compounds put the content of a rule into other nodes, whatever rule it is.
-/
def Places (r : VariantRegistry) : Prop :=
  r.Each fun _ d => d.kind ≠ .compound → ∀ v theme, PlacesContent fun node => d.apply node v theme

theorem Known.places (h : r.Known) : r.Places :=
  fun name d hd hkind v theme => (h name d hd).places hkind v theme

/-! ### Applying variants -/

def blocks? (r : VariantRegistry) (theme : Theme) (depth : Nat) (v : Variant) :
    Option (List Node) :=
  (applyVariant r theme depth v .slot).map fun made => made.children?.getD []

def rebuilt? (r : VariantRegistry) (theme : Theme) (v : Variant) (root : String)
    (blocks : List Node) : Option (List Node) :=
  (r.get? root).bind fun d => blocks.mapM fun block => d.apply block v theme

theorem applyVariant_compound (r : VariantRegistry) (theme : Theme) (depth : Nat) (root : String)
    (modifier : Option Modifier) (inner : Variant) (node : Node) :
    applyVariant r theme depth (.compound root modifier inner) node =
      ((r.blocks? theme (depth + 1) inner).bind
        (r.rebuilt? theme (.compound root modifier inner) root)).bind fun rebuilt =>
          node.mapChildren? fun content => fillAllLeaves content rebuilt := by
  rw [applyVariant, blocks?]
  cases hget : r.get? root with
  | none => cases applyVariant r theme (depth + 1) inner .slot <;> simp [rebuilt?, hget]
  | some d =>
    cases applyVariant r theme (depth + 1) inner .slot <;> simp [rebuilt?, hget]

theorem blocks?_compound (r : VariantRegistry) (theme : Theme) (depth : Nat) (root : String)
    (modifier : Option Modifier) (inner : Variant) :
    r.blocks? theme depth (.compound root modifier inner) =
      (r.blocks? theme (depth + 1) inner).bind
        (r.rebuilt? theme (.compound root modifier inner) root) := by
  rw [blocks?, applyVariant_compound]
  cases (r.blocks? theme (depth + 1) inner).bind
    (r.rebuilt? theme (.compound root modifier inner) root) with
  | none => rfl
  | some rebuilt => exact congrArg some (fillAllLeaves_nil rebuilt)

theorem applyVariant_compound_eq_fill (r : VariantRegistry) (theme : Theme) (depth : Nat)
    (root : String)
    (modifier : Option Modifier) (inner : Variant) {node : Node} {content : List Node}
    (hcontent : node.children? = some content) :
    applyVariant r theme depth (.compound root modifier inner) node =
      (r.blocks? theme depth (.compound root modifier inner)).map fun blocks =>
        node.withChildren (fillAllLeaves content blocks) := by
  rw [applyVariant_compound, blocks?_compound]
  simp only [Node.mapChildren?_of_children hcontent]
  rw [Option.map_eq_bind]
  rfl

theorem blocks?_arbitrary (r : VariantRegistry) (theme : Theme) (depth : Nat) (selector : String)
    (relative : Bool) :
    r.blocks? theme depth (.arbitrary selector relative) =
      if relative && depth == 0 then none else some [Node.ofSelector selector []] := by
  rw [blocks?, applyVariant]
  split <;> rfl

theorem blocks?_static {r : VariantRegistry} {root : String} {d : VariantDefinition}
    (hd : r.get? root = some d) (theme : Theme) (depth : Nat) :
    r.blocks? theme depth (.static root) =
      (d.apply .slot (.static root) theme).map fun made => made.children?.getD [] := by
  simp [blocks?, applyVariant, hd]

theorem exists_of_rebuilt? {r : VariantRegistry} {theme : Theme} {v : Variant} {root : String}
    {blocks rebuilt : List Node} (h : r.rebuilt? theme v root blocks = some rebuilt) :
    ∃ d, r.get? root = some d ∧
      List.Forall₂ (fun block made => d.apply block v theme = some made) blocks rebuilt := by
  obtain ⟨d, hd, hrebuilt⟩ := Option.bind_eq_some_iff.1 h
  exact ⟨d, hd, forall₂_of_mapM hrebuilt⟩

theorem compoundsOf?_ne_never {r : VariantRegistry} {parent : String} {v : Variant}
    (h : r.mayWrap parent v = true) : r.compoundsOf? v ≠ some .never := by
  intro hnever
  unfold mayWrap at h
  rw [hnever] at h
  cases hparent : r.get? parent with
  | none => simp [hparent] at h
  | some d => simp [hparent, Compounds.intersects, Compounds.never] at h

def HasBody (r : VariantRegistry) (root : String) (body : List Node) : Prop :=
  ∃ d, r.get? root = some d ∧ d.apply = applyBody body

theorem HasBody.apply_eq {root : String} {body : List Node} (h : r.HasBody root body)
    (theme : Theme)
    (depth : Nat) {node : Node} {content : List Node} (hcontent : node.children? = some content) :
    applyVariant r theme depth (.static root) node =
      some (node.withChildren (allReplaced .slot content body)) := by
  obtain ⟨d, hd, happly⟩ := h
  simp only [applyVariant, hd, Option.bind_eq_bind, Option.bind_some]
  rw [happly, applyBody_of_children hcontent]

theorem HasBody.blocks_eq {root : String} {body : List Node} (h : r.HasBody root body)
    (theme : Theme)
    (depth : Nat) : r.blocks? theme depth (.static root) = some (allReplaced .slot [] body) := by
  have hslot : Node.slot.children? = some [] := rfl
  rw [blocks?, h.apply_eq theme depth hslot]
  rfl

theorem arbitrary_nests (r : VariantRegistry) (theme : Theme) (depth : Nat) (selector : String)
    (relative : Bool) :
    NestsContent (fun _ => True) (applyVariant r theme depth (.arbitrary selector relative)) := by
  by_cases h : relative && depth == 0
  · exact .inl fun node => by simp [applyVariant, h]
  · refine .one (.ofSelector selector) ⟨Shell.named_true _, by simp [Nest.ofSelector]⟩ ?_
    intro node
    simp only [applyVariant, h, Node.wrapContent, Nest.around_ofSelector]
    rfl

theorem Known.static_fills_or_body (hr : r.Known) {root parent : String}
    (hadmits : r.Admits (.static root))
    (hparent : r.mayWrap parent (.static root) = true) (theme : Theme) (depth : Nat) :
    FillsNests (applyVariant r theme depth (.static root)) ∨ ∃ body, r.HasBody root body := by
  obtain ⟨d, hd, hkind⟩ := Option.map_eq_some_iff.1 hadmits
  have hcompounds : d.compounds ≠ .never := by
    simpa [compoundsOf?, Variant.root?, hd] using compoundsOf?_ne_never hparent
  rcases (hr root d hd).fills_or_body (by simp [hkind]) hcompounds with hfills | ⟨-, body, hbody⟩
  · left
    simp only [applyVariant, hd]
    exact hfills (.static root) theme
  · exact .inr ⟨body, d, hd, hbody⟩

theorem Known.functional_fills (hr : r.Known) {root parent : String} {value : Option VariantValue}
    {modifier : Option Modifier} (hadmits : r.Admits (.functional root value modifier))
    (hparent : r.mayWrap parent (.functional root value modifier) = true) (theme : Theme)
    (depth : Nat) : FillsNests (applyVariant r theme depth (.functional root value modifier)) := by
  obtain ⟨d, hd, hkind⟩ := Option.map_eq_some_iff.1 hadmits
  have hcompounds : d.compounds ≠ .never := by
    simpa [compoundsOf?, Variant.root?, hd] using compoundsOf?_ne_never hparent
  rcases (hr root d hd).fills_or_body (by simp [hkind]) hcompounds with hfills | ⟨hstatic, -⟩
  · simp only [applyVariant, hd]
    exact hfills (.functional root value modifier) theme
  · simp [hkind] at hstatic

/-- Every compound in a variant may be put around what stands in it. -/
def WrapsRightly (r : VariantRegistry) : Variant → Prop
  | .compound root _ inner => r.mayWrap root inner = true ∧ r.WrapsRightly inner
  | _ => True

/-- What every application has that is no compound, a variant has that is put on a rule, if the
compounds have it. -/
theorem applyVariant_induction {C : (Node → Option Node) → Prop} {theme : Theme} {depth : Nat}
    (hr : r.Each fun _ d => d.kind ≠ .compound → ∀ v theme, C fun node => d.apply node v theme)
    (harbitrary : ∀ apply, NestsContent (fun _ => True) apply → C apply)
    (hcompound : ∀ root modifier inner,
      C (applyVariant r theme depth (.compound root modifier inner)))
    {v : Variant} (hv : r.Admits v) : C (applyVariant r theme depth v) := by
  have registered : ∀ {root : String} {v : Variant} {kind : VariantKind}, r.kind? root = some kind →
      kind ≠ .compound → C fun node => (r.get? root).bind fun d => d.apply node v theme := by
    intro root v kind hkind hne
    obtain ⟨d, hd, rfl⟩ := Option.map_eq_some_iff.1 hkind
    simp only [hd, Option.bind_some]
    exact hr root d hd hne v theme
  cases v with
  | arbitrary selector relative =>
    exact harbitrary _ (arbitrary_nests r theme depth selector relative)
  | static root => exact registered hv (by simp)
  | functional root value modifier => exact registered hv (by simp)
  | compound root modifier inner => exact hcompound root modifier inner

/-- Putting a variant on a rule changes nothing but what is inside, whatever the rule is. -/
theorem Places.applyVariant (h : r.Places) {v : Variant} (hv : r.Admits v) (theme : Theme)
    (depth : Nat) : PlacesContent (UtilityCss.applyVariant r theme depth v) := by
  refine applyVariant_induction h (fun _ h => h.fills.places) (fun root modifier inner => ?_) hv
  refine ⟨(r.blocks? theme depth (.compound root modifier inner)).map fun blocks content =>
    fillAllLeaves content blocks, fun node content hcontent => ?_⟩
  rw [applyVariant_compound_eq_fill r theme depth root modifier inner hcontent, Option.map_map]
  rfl

end VariantRegistry

theorem Variant.parse?_wrapsRightly {r : VariantRegistry} {s : String} {v : Variant}
    (h : Variant.parse? r s = some v) : r.WrapsRightly v := by
  replace h := parse?_reads h
  induction h with
  | selector _ hv =>
    obtain ⟨selector, relative, rfl⟩ := exists_of_ofSelector? hv
    exact trivial
  | static => exact trivial
  | functional => exact trivial
  | compound _ _ _ hwrap _ _ ih => exact ⟨hwrap, ih⟩

end UtilityCss
