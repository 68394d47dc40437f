import UtilityCss.Proofs.CollectShape

/-!
Collecting by recursion on the tree. What the visit of an at-rule can come to is said once. No visit
ends the walk by itself, so the walk is a recursion that stops at the first failure. The bodies that
are collected come from the tree, and placeholders without children are all that is put into it.
-/
namespace UtilityCss

def ModuleKind.atRule : ModuleKind → Directive
  | .plugin => .plugin
  | .config => .config

def Directive.isEntered (params : String) : Directive → Bool
  | .theme | .utility | .variant | .source | .plugin | .config | .importSheet => false
  | .tailwind => Text.trim params != "utilities"
  | _ => true

theorem quotedArgument_ok {directive params argument : String} {nodes : List Node} {scope : Scope}
    (h : quotedArgument directive params nodes scope = .ok argument) :
    scope.isRoot = true ∧ Text.unquote? (Text.trim params) = some argument := by
  unfold quotedArgument at h
  split at h
  · cases h
  next hroot =>
    split at h
    · cases h
    · split at h
      next path hpath =>
        cases h
        exact ⟨by simpa using hroot, hpath⟩
      next => cases h

namespace Collected

/-- What the visit of an at-rule comes to, unless it fails. -/
inductive Takes (base : Path) (scope : Scope) (c : Collected) (name params : String)
    (nodes : List Node) : Action → Collected → Prop
  | theme {p : ThemeParams} {theme : Theme} : Directive.ofName name = .theme →
      ThemeParams.parse params = .ok p →
      nodes.foldlM (Theme.addNode p.flags)
        { c.theme with keyPrefix := p.keyPrefix.or c.theme.keyPrefix } = .ok theme →
      Takes base scope c name params nodes
        (.replace (if p.flags.reference || c.themePlaced then [] else [placeholder themeKey]))
        { c with theme, themePlaced := c.themePlaced || !p.flags.reference }
  | utility : Directive.ofName name = .utility →
      Takes base scope c name params nodes .skip
        { c with utilities := c.utilities ++ [(Text.trim params, nodes)] }
  | variant {variant : String × CustomVariant} : Directive.ofName name = .variant →
      CustomVariant.parse params nodes = .ok variant →
      Takes base scope c name params nodes (.replace [])
        { c with variants := c.variants ++ [variant] }
  | source {pattern : String} : Directive.ofName name = .source → scope.isRoot = true →
      Text.unquote? (Text.trim params) = some pattern →
      Takes base scope c name params nodes (.replace [])
        { c with globs := c.globs ++ [⟨baseAt base scope, pattern⟩] }
  | request {kind : ModuleKind} {id : String} : Directive.ofName name = kind.atRule →
      scope.isRoot = true → Text.unquote? (Text.trim params) = some id →
      Takes base scope c name params nodes (.replace [])
        { c with modules := c.modules ++ [⟨id, baseAt base scope, kind⟩] }
  | place : Directive.ofName name = .tailwind → Text.trim params = "utilities" →
      Takes base scope c name params nodes
        (.replace (if c.utilitiesPlaced then [] else [placeholder utilitiesKey]))
        { c with utilitiesPlaced := true }
  | imported : Directive.ofName name = .importSheet → Takes base scope c name params nodes .skip c
  | pass : (Directive.ofName name).isEntered params = true →
      Takes base scope c name params nodes .descend c

variable {base : Path} {scope : Scope} {c c' : Collected} {name params : String} {nodes : List Node}
  {action : Action}

theorem takes_theme (hname : Directive.ofName name = .theme)
    (h : c.addTheme params nodes = .ok (action, c')) :
    Takes base scope c name params nodes action c' := by
  obtain ⟨p, hp, h⟩ := Except.exists_of_bind h
  obtain ⟨theme, htheme, h⟩ := Except.exists_of_bind h
  have htakes : Takes base scope c name params nodes _ _ := .theme hname hp htheme
  dsimp only at h
  split at h
  next hcond =>
    have hplaced : (c.themePlaced || !p.flags.reference) = c.themePlaced := by
      cases hc : c.themePlaced <;> simp_all
    rw [if_pos hcond, hplaced] at htakes
    cases h
    exact htakes
  next hcond =>
    have hplaced : (c.themePlaced || !p.flags.reference) = true := by
      cases hc : c.themePlaced <;> simp_all
    rw [if_neg hcond, hplaced] at htakes
    cases h
    exact htakes

theorem takes_utility (hname : Directive.ofName name = .utility)
    (h : c.addUtility params nodes scope = .ok (action, c')) :
    Takes base scope c name params nodes action c' := by
  unfold addUtility at h
  dsimp only at h
  split at h
  · cases h
  split at h
  · cases h
  split at h
  · cases h
  cases h
  exact .utility hname

private theorem takes_variant (hname : Directive.ofName name = .variant)
    (h : c.addVariant params nodes scope = .ok (action, c')) :
    Takes base scope c name params nodes action c' := by
  unfold addVariant at h
  split at h
  · cases h
  · obtain ⟨variant, hvariant, h⟩ := Except.exists_of_bind h
    cases h
    exact .variant hname hvariant

private theorem takes_source (hname : Directive.ofName name = .source)
    (h : c.addSource base params nodes scope = .ok (action, c')) :
    Takes base scope c name params nodes action c' := by
  obtain ⟨pattern, hpattern, h⟩ := Except.exists_of_bind h
  obtain ⟨hroot, hquoted⟩ := quotedArgument_ok hpattern
  cases h
  exact .source hname hroot hquoted

theorem takes_request (kind : ModuleKind) (hname : Directive.ofName name = kind.atRule)
    (h : c.addModule base kind params nodes scope = .ok (action, c')) :
    Takes base scope c name params nodes action c' := by
  obtain ⟨id, hid, h⟩ := Except.exists_of_bind h
  obtain ⟨hroot, hquoted⟩ := quotedArgument_ok hid
  cases h
  exact .request hname hroot hquoted

private theorem takes_place (hname : Directive.ofName name = .tailwind) :
    Takes base scope c name params nodes (c.placeUtilities params).1
      (c.placeUtilities params).2 := by
  unfold placeUtilities
  split
  next hparams => exact .pass (by simp [hname, Directive.isEntered, hparams])
  next hparams =>
    have hplace : Takes base scope c name params nodes _ _ :=
      .place hname (Decidable.not_not.1 hparams)
    split
    next hplaced =>
      rw [if_pos hplaced] at hplace
      cases c
      cases hplaced
      exact hplace
    next hplaced => rwa [if_neg hplaced] at hplace

theorem takes_of_visit (h : visit base (.atRule name params nodes) scope c = .ok (action, c')) :
    Takes base scope c name params nodes action c' := by
  unfold visit at h
  dsimp only at h
  split at h
  next hname =>
    have htakes : Takes base scope c name params nodes (c.placeUtilities params).1
        (c.placeUtilities params).2 := takes_place hname
    rwa [Except.ok.inj h] at htakes
  next hname => exact takes_utility hname h
  next hname => exact takes_variant hname h
  next hname => exact takes_source hname h
  next hname => exact takes_request .plugin hname h
  next hname => exact takes_request .config hname h
  next hname => exact takes_theme hname h
  next hname =>
    cases h
    exact .imported hname
  next =>
    cases h
    refine .pass ?_
    cases hname : Directive.ofName name <;> simp_all [Directive.isEntered]

end Collected

def Action.carryOut (node : Node) (inside : Collected → Except Error (List Node × Collected)) :
    Action × Collected → Except Error (List Node × Collected)
  | (.replace nodes, c) => .ok (nodes, c)
  | (.descend, c) => (inside c).map fun r => ([node.withChildren r.1], r.2)
  | (_, c) => .ok ([node], c)

mutual

def Node.collectFrom (base : Path) (scope : Scope) (c : Collected) :
    Node → Except Error (List Node × Collected)
  | .context entries nodes =>
    (collectAllFrom base (scope.enter entries) c nodes).map fun r => ([.context entries r.1], r.2)
  | .rule selector nodes =>
    (collectAllFrom base (scope.below (.rule selector nodes)) c nodes).map fun r =>
      ([.rule selector r.1], r.2)
  | .atRoot nodes =>
    (collectAllFrom base (scope.below (.atRoot nodes)) c nodes).map fun r => ([.atRoot r.1], r.2)
  | .atRule name params nodes =>
    Collected.visit base (.atRule name params nodes) scope c >>=
      Action.carryOut (.atRule name params nodes) fun c =>
        collectAllFrom base (scope.below (.atRule name params nodes)) c nodes
  | .declaration property value important => .ok ([.declaration property value important], c)
  | .comment text => .ok ([.comment text], c)

def collectAllFrom (base : Path) (scope : Scope) (c : Collected) :
    List Node → Except Error (List Node × Collected)
  | [] => .ok ([], c)
  | n :: ns => do
    let first ← n.collectFrom base scope c
    let rest ← collectAllFrom base scope first.2 ns
    return (first.1 ++ rest.1, rest.2)

end

def guarded {σ : Type} (visit : Node → Scope → σ → Except Error (Action × σ)) :
    Visitor (Except Error σ) := fun node scope state =>
  match state with
  | .error e => (.stop, .error e)
  | .ok s =>
    match visit node scope s with
    | .error e => (.stop, .error e)
    | .ok (action, s) => (action, .ok s)

theorem walkExcept_eq {σ : Type} (visit : Node → Scope → σ → Except Error (Action × σ)) (state : σ)
    (nodes : List Node) : walkExcept visit state nodes =
      (walk (guarded visit) (.ok state) nodes).2.map fun last =>
        ((walk (guarded visit) (.ok state) nodes).1, last) := rfl

def Walked.Is (walked : Walked (Except Error Collected)) :
    Except Error (List Node × Collected) → Prop
  | .ok r => walked = ⟨r.1, .ok r.2, false⟩
  | .error e => walked.state = .error e ∧ walked.stopped = true

namespace Walked.Is

variable {walked : Walked (Except Error Collected)} {x : Except Error (List Node × Collected)}

theorem wrap (h : walked.Is x) (f : List Node → Node) :
    Walked.Is ⟨[f walked.nodes], walked.state, walked.stopped⟩ (x.map fun r => ([f r.1], r.2)) := by
  cases x with
  | error e => exact h
  | ok r =>
    obtain rfl : walked = ⟨r.1, .ok r.2, false⟩ := h
    rfl

end Walked.Is

mutual

private theorem walkNode_collect (base : Path) (scope : Scope) (c : Collected) :
    ∀ node : Node, (walkNode (guarded (Collected.visit base)) scope (.ok c) node).Is
      (node.collectFrom base scope c)
  | .context entries nodes => by
    rw [walkNode, Node.collectFrom]
    exact (walkFrom_collect base (scope.enter entries) c nodes).wrap (.context entries)
  | .rule selector nodes => by
    rw [walkNode, Node.collectFrom]
    exact (walkFrom_collect base (scope.below (.rule selector nodes)) c nodes).wrap (.rule selector)
  | .atRoot nodes => by
    rw [walkNode, Node.collectFrom]
    exact (walkFrom_collect base (scope.below (.atRoot nodes)) c nodes).wrap .atRoot
  | .declaration property value important => by
    rw [walkNode, Node.collectFrom]
    rfl
  | .comment text => by
    rw [walkNode, Node.collectFrom]
    rfl
  | .atRule name params nodes => by
    rw [walkNode, Node.collectFrom, guarded]
    cases hvisit : Collected.visit base (.atRule name params nodes) scope c with
    | error e => exact ⟨rfl, rfl⟩
    | ok answer =>
      obtain ⟨action, c'⟩ := answer
      have htakes := Collected.takes_of_visit hvisit
      -- no answer ends the walk
      cases action with
      | descend =>
        exact (walkFrom_collect base (scope.below (.atRule name params nodes)) c' nodes).wrap
          (.atRule name params)
      | skip => rfl
      | replace nodes' => rfl
      | stop => cases htakes
      | replaceAndStop nodes' => cases htakes

theorem walkFrom_collect (base : Path) (scope : Scope) (c : Collected) :
    ∀ nodes : List Node, (walkFrom (guarded (Collected.visit base)) scope (.ok c) nodes).Is
      (collectAllFrom base scope c nodes)
  | [] => by
    rw [walkFrom, collectAllFrom]
    rfl
  | n :: ns => by
    have hfirst := walkNode_collect base scope c n
    rw [walkFrom, collectAllFrom]
    dsimp only
    cases hn : n.collectFrom base scope c with
    | error e =>
      rw [hn] at hfirst
      rw [if_pos hfirst.2]
      exact ⟨hfirst.1, rfl⟩
    | ok first =>
      rw [hn] at hfirst
      obtain ⟨nodes, c'⟩ := first
      have hwalked : walkNode (guarded (Collected.visit base)) scope (.ok c) n =
        ⟨nodes, .ok c', false⟩ := hfirst
      have hrest := walkFrom_collect base scope c' ns
      rw [hwalked, if_neg Bool.false_ne_true]
      change Walked.Is _ (collectAllFrom base scope c' ns >>= _)
      cases hns : collectAllFrom base scope c' ns with
      | error e =>
        rw [hns] at hrest
        exact hrest
      | ok rest =>
        rw [hns] at hrest
        obtain ⟨others, c''⟩ := rest
        have hlater : walkFrom (guarded (Collected.visit base)) scope (.ok c') ns =
          ⟨others, .ok c'', false⟩ := hrest
        rw [hlater]
        rfl

end

theorem collect_eq (base : Path) (nodes : List Node) :
    collect base nodes = collectAllFrom base {} {} nodes := by
  have hwalked := walkFrom_collect base {} {} nodes
  rw [collect, walkExcept_eq]
  simp only [walk]
  cases h : collectAllFrom base {} {} nodes with
  | error e =>
    rw [h] at hwalked
    rw [hwalked.1]
    rfl
  | ok r =>
    rw [h] at hwalked
    rw [show walkFrom (guarded (Collected.visit base)) {} (.ok {}) nodes = ⟨r.1, .ok r.2, false⟩
      from hwalked]
    rfl

/-! ### What collecting keeps -/

def IsHereditary (Q : Node → Prop) : Prop :=
  ∀ {node : Node} {nodes : List Node}, Q node → node.children? = some nodes → ∀ n ∈ nodes, Q n

theorem isHereditary_true : IsHereditary fun _ => True :=
  fun _ _ _ _ => trivial

section Keeps

variable {P : Collected → Prop} {Q : Node → Prop} {base : Path}

mutual

theorem Node.collectFrom_keeps (hQ : IsHereditary Q)
    (hstep : ∀ {scope c name params nodes action c'}, Q (.atRule name params nodes) → P c →
      Collected.Takes base scope c name params nodes action c' → P c') :
    ∀ {node : Node} {scope : Scope} {c c' : Collected} {out : List Node}, Q node → P c →
      node.collectFrom base scope c = .ok (out, c') → P c'
  | .context entries nodes, scope, c, c', out, hnode, hc, h => by
    rw [Node.collectFrom] at h
    obtain ⟨inner, hinner, h⟩ := Except.exists_of_map h
    cases h
    exact collectAllFrom_keeps hQ hstep (hQ hnode rfl) hc hinner
  | .rule selector nodes, scope, c, c', out, hnode, hc, h => by
    rw [Node.collectFrom] at h
    obtain ⟨inner, hinner, h⟩ := Except.exists_of_map h
    cases h
    exact collectAllFrom_keeps hQ hstep (hQ hnode rfl) hc hinner
  | .atRoot nodes, scope, c, c', out, hnode, hc, h => by
    rw [Node.collectFrom] at h
    obtain ⟨inner, hinner, h⟩ := Except.exists_of_map h
    cases h
    exact collectAllFrom_keeps hQ hstep (hQ hnode rfl) hc hinner
  | .declaration property value important, scope, c, c', out, hnode, hc, h => by
    cases h
    exact hc
  | .comment text, scope, c, c', out, hnode, hc, h => by
    cases h
    exact hc
  | .atRule name params nodes, scope, c, c', out, hnode, hc, h => by
    rw [Node.collectFrom] at h
    obtain ⟨⟨action, c₁⟩, hvisit, h⟩ := Except.exists_of_bind h
    have hc₁ := hstep hnode hc (Collected.takes_of_visit hvisit)
    cases action with
    | descend =>
      obtain ⟨inner, hinner, h⟩ := Except.exists_of_map h
      cases h
      exact collectAllFrom_keeps hQ hstep (hQ hnode rfl) hc₁ hinner
    | skip | stop | replace _ | replaceAndStop _ =>
      cases h
      exact hc₁

theorem collectAllFrom_keeps (hQ : IsHereditary Q)
    (hstep : ∀ {scope c name params nodes action c'}, Q (.atRule name params nodes) → P c →
      Collected.Takes base scope c name params nodes action c' → P c') :
    ∀ {nodes : List Node} {scope : Scope} {c c' : Collected} {out : List Node},
      (∀ n ∈ nodes, Q n) → P c → collectAllFrom base scope c nodes = .ok (out, c') → P c'
  | [], scope, c, c', out, hnodes, hc, h => by
    cases h
    exact hc
  | n :: ns, scope, c, c', out, hnodes, hc, h => by
    rw [collectAllFrom] at h
    obtain ⟨first, hfirst, h⟩ := Except.exists_of_bind h
    obtain ⟨rest, hrest, h⟩ := Except.exists_of_bind h
    cases h
    rw [List.forall_mem_cons] at hnodes
    have hnext := Node.collectFrom_keeps hQ hstep hnodes.1 hc hfirst
    exact collectAllFrom_keeps hQ hstep hnodes.2 hnext hrest

end

end Keeps

structure Collected.Has (s : Shape) (c : Collected) : Prop where
  keyframes : AllHave s c.theme.keyframes
  utilities : ∀ entry ∈ c.utilities, AllHave s entry.2
  variants : ∀ name nodes, (name, CustomVariant.body nodes) ∈ c.variants → AllHave s nodes

section Shapes

variable {s t : Shape}

theorem isHereditary_has : IsHereditary (Node.Has s) :=
  fun h hnodes => allHave_iff.1 (h.children hnodes)

theorem Theme.add_keyframes {t t' : Theme} {key value : String} {flags : ThemeFlags}
    (h : t.add key value flags = .ok t') (ht : AllHave s t.keyframes) : AllHave s t'.keyframes := by
  rcases Theme.add_cases h with ⟨space, -, -, rfl⟩ | ⟨-, rfl | ⟨-, rfl | rfl⟩⟩
  · unfold Theme.clear
    split
    · trivial
    · exact ht
  · exact ht
  · exact ht
  · exact ht

theorem Theme.addNode_keyframes {flags : ThemeFlags} {t t' : Theme} {node : Node}
    (hnode : node.Has s) (h : t.addNode flags node = .ok t') (ht : AllHave s t.keyframes) :
    AllHave s t'.keyframes := by
  unfold Theme.addNode at h
  dsimp only at h
  split at h
  · cases h
    exact ht
  · split at h
    · exact Theme.add_keyframes h ht
    · cases h
  · split at h
    · cases h
      exact allHave_append.2 ⟨ht, allHave_singleton.2 hnode⟩
    · cases h
  · cases h

private theorem body_of_parse {params name : String} {nodes body : List Node}
    (h : CustomVariant.parse params nodes = .ok (name, .body body)) : body = nodes := by
  unfold CustomVariant.parse at h
  generalize variantParams params = parts at h
  dsimp only at h
  split at h
  · split at h
    · cases h
    · cases h
      rfl
  · split at h
    · cases h
    · cases h

namespace Collected

variable {base : Path} {scope : Scope} {c c' : Collected} {name params : String} {nodes : List Node}
  {action : Action}

theorem Has.takes (h : c.Has s) (hnodes : AllHave s nodes)
    (htakes : Takes base scope c name params nodes action c') : c'.Has s := by
  cases htakes with
  | theme hname hparams htheme =>
    refine ⟨?_, h.utilities, h.variants⟩
    refine Except.foldlM_keeps (P := fun t : Theme => AllHave s t.keyframes) ?_ ?_ htheme
    · intro t node hnode t' ht hadd
      exact Theme.addNode_keyframes (allHave_iff.1 hnodes node hnode) hadd ht
    · exact h.keyframes
  | utility hname =>
    refine ⟨h.keyframes, fun entry hentry => ?_, h.variants⟩
    rcases List.mem_append.1 hentry with hentry | hentry
    · exact h.utilities entry hentry
    · rw [List.mem_singleton.1 hentry]
      exact hnodes
  | variant hname hvariant =>
    refine ⟨h.keyframes, h.utilities, fun name' body hmem => ?_⟩
    rcases List.mem_append.1 hmem with hmem | hmem
    · exact h.variants name' body hmem
    · rw [← List.mem_singleton.1 hmem] at hvariant
      rw [body_of_parse hvariant]
      exact hnodes
  | source | request | place | imported | pass => exact ⟨h.keyframes, h.utilities, h.variants⟩

theorem Takes.replaced {nodes' : List Node}
    (h : Takes base scope c name params nodes (.replace nodes') c') :
    nodes' = [] ∨ nodes' = [placeholder themeKey] ∨ nodes' = [placeholder utilitiesKey] := by
  generalize haction : Action.replace nodes' = action at h
  cases h with
  | theme =>
    cases haction
    split
    · exact .inl rfl
    · exact .inr (.inl rfl)
  | place =>
    cases haction
    split
    · exact .inl rfl
    · exact .inr (.inr rfl)
  | variant | source | request =>
    cases haction
    exact .inl rfl
  | utility | imported | pass => cases haction

end Collected

section Replacing

variable {P : Collected → Prop} {Q : Node → Prop} {base : Path}

mutual

theorem Node.Has.collectFrom (hst : s.Le t) (hQ : IsHereditary Q)
    (hstep : ∀ {scope c name params nodes action c'}, Q (.atRule name params nodes) → P c →
      Collected.Takes base scope c name params nodes action c' → P c')
    (hreplace : ∀ {scope c name params nodes nodes' c'}, Q (.atRule name params nodes) → P c →
      Collected.Takes base scope c name params nodes (.replace nodes') c' → AllHave t nodes') :
    ∀ {node : Node} {scope : Scope} {c c' : Collected} {out : List Node}, Q node →
      P c → node.Has s →
      node.collectFrom base scope c = .ok (out, c') → AllHave t out
  | .context entries nodes, scope, c, c', out, hq, hc, hnode, h => by
    rw [Node.collectFrom] at h
    obtain ⟨inner, hinner, h⟩ := Except.exists_of_map h
    cases h
    have hall := AllHave.collectAllFrom hst hQ hstep hreplace (hQ hq rfl) hc hnode.2 hinner
    refine allHave_singleton.2 ⟨(hst.allows hnode.1).replace ?_, hall⟩
    rintro rfl
    cases hinner
    rfl
  | .rule selector nodes, scope, c, c', out, hq, hc, hnode, h => by
    rw [Node.collectFrom] at h
    obtain ⟨inner, hinner, h⟩ := Except.exists_of_map h
    cases h
    exact allHave_singleton.2
      (AllHave.collectAllFrom hst hQ hstep hreplace (hQ hq rfl) hc hnode hinner)
  | .atRoot nodes, scope, c, c', out, hq, hc, hnode, h => by
    rw [Node.collectFrom] at h
    obtain ⟨inner, hinner, h⟩ := Except.exists_of_map h
    cases h
    exact allHave_singleton.2 ⟨hst.hoist hnode.1,
      AllHave.collectAllFrom hst hQ hstep hreplace (hQ hq rfl) hc hnode.2 hinner⟩
  | .declaration property value important, scope, c, c', out, hq, hc, hnode, h => by
    cases h
    exact ⟨trivial, trivial⟩
  | .comment text, scope, c, c', out, hq, hc, hnode, h => by
    cases h
    exact ⟨trivial, trivial⟩
  | .atRule name params nodes, scope, c, c', out, hq, hc, hnode, h => by
    rw [Node.collectFrom] at h
    obtain ⟨⟨action, c₁⟩, hvisit, h⟩ := Except.exists_of_bind h
    have htakes := Collected.takes_of_visit hvisit
    cases action with
    | descend =>
      obtain ⟨inner, hinner, h⟩ := Except.exists_of_map h
      cases h
      exact allHave_singleton.2
        (AllHave.collectAllFrom hst hQ hstep hreplace (hQ hq rfl) (hstep hq hc htakes) hnode hinner)
    | replace nodes' =>
      cases h
      exact hreplace hq hc htakes
    | skip | stop | replaceAndStop _ =>
      cases h
      exact allHave_singleton.2 (hnode.mono hst)

/-- Collecting leads from one shape to another that allows what is put in the place of at-rules. -/
theorem AllHave.collectAllFrom (hst : s.Le t) (hQ : IsHereditary Q)
    (hstep : ∀ {scope c name params nodes action c'}, Q (.atRule name params nodes) → P c →
      Collected.Takes base scope c name params nodes action c' → P c')
    (hreplace : ∀ {scope c name params nodes nodes' c'}, Q (.atRule name params nodes) → P c →
      Collected.Takes base scope c name params nodes (.replace nodes') c' → AllHave t nodes') :
    ∀ {nodes : List Node} {scope : Scope} {c c' : Collected} {out : List Node},
      (∀ n ∈ nodes, Q n) → P c → AllHave s nodes →
      collectAllFrom base scope c nodes = .ok (out, c') → AllHave t out
  | [], scope, c, c', out, hq, hc, hnodes, h => by
    cases h
    trivial
  | n :: ns, scope, c, c', out, hq, hc, hnodes, h => by
    rw [UtilityCss.collectAllFrom] at h
    obtain ⟨first, hfirst, h⟩ := Except.exists_of_bind h
    obtain ⟨rest, hrest, h⟩ := Except.exists_of_bind h
    cases h
    rw [List.forall_mem_cons] at hq
    have hnext := Node.collectFrom_keeps hQ hstep hq.1 hc hfirst
    exact allHave_append.2 ⟨Node.Has.collectFrom hst hQ hstep hreplace hq.1 hc hnodes.1 hfirst,
      AllHave.collectAllFrom hst hQ hstep hreplace hq.2 hnext hnodes.2 hrest⟩

end

end Replacing

theorem collect_has {base : Path} {nodes nodes' : List Node} {c : Collected}
    (hnodes : AllHave s nodes) (h : collect base nodes = .ok (nodes', c)) : c.Has s := by
  rw [collect_eq] at h
  refine collectAllFrom_keeps isHereditary_has ?_ (allHave_iff.1 hnodes) ?_ h
  · intro scope c name params nodes action c' hnode hc htakes
    exact hc.takes hnode htakes
  · exact ⟨trivial, fun _ h => by simp at h, fun _ _ h => by simp at h⟩

theorem collect_sited {base : Path} {nodes nodes' : List Node} {c : Collected}
    (hnodes : AllHave .free nodes) (h : collect base nodes = .ok (nodes', c)) :
    AllHave .sited nodes' := by
  rw [collect_eq] at h
  refine AllHave.collectAllFrom (P := fun _ => True) Shape.free_le_sited isHereditary_true
    (fun _ _ _ => trivial) ?_ (fun _ _ => trivial) trivial hnodes h
  intro scope c name params nodes nodes' c' _ _ htakes
  rcases htakes.replaced with rfl | rfl | rfl
  · trivial
  · exact allHave_singleton.2 ⟨.inl rfl, trivial⟩
  · exact allHave_singleton.2 ⟨.inr rfl, trivial⟩

end Shapes

end UtilityCss
