import UtilityCss.Proofs.Compilation
import UtilityCss.Proofs.ThemeOverride
import UtilityCss.Proofs.TreePlace

/-!
Printing the theme. All theme blocks of a stylesheet are printed in one rule, which stands where the
first block stood that is not a mere reference. The place is marked when the directives are
collected; the later stages change what stands around the mark, and it is filled at the end.
-/
namespace UtilityCss

/-! ### The entries of a theme -/

namespace Theme

variable {t t' : Theme} {flags : ThemeFlags}

private theorem turns_addNode {node : Node} (h : t.addNode flags node = .ok t') :
    Turns flags t.entries t'.entries := by
  unfold addNode at h
  dsimp only at h
  split at h
  · cases h
    exact .refl _
  · split at h
    · exact turns_add h
    · cases h
  · split at h
    · cases h
      exact .refl _
    · cases h
  · cases h

theorem mem_put {key : String} {entry : ThemeEntry} {entries : List (String × ThemeEntry)}
    {e : String × ThemeEntry} (h : e ∈ put key entry entries) : e ∈ entries ∨ e = (key, entry) := by
  induction entries with
  | nil => exact .inr (List.mem_singleton.1 h)
  | cons first rest ih =>
    rw [put] at h
    split at h
    · rcases List.mem_cons.1 h with rfl | h
      · exact .inr rfl
      · exact .inl (List.mem_cons_of_mem _ h)
    · rcases List.mem_cons.1 h with rfl | h
      · exact .inl List.mem_cons_self
      · exact (ih h).imp_left (List.mem_cons_of_mem _)

theorem Turns.mem {entries entries' : List (String × ThemeEntry)} (h : Turns flags entries entries')
    {e : String × ThemeEntry} (he : e ∈ entries') : e ∈ entries ∨ e.2.flags = flags := by
  rcases h with ⟨keep, rfl⟩ | ⟨key, value, rfl⟩
  · exact .inl (List.mem_filter.1 he).1
  · exact (mem_put he).imp_right fun heq => by rw [heq]

theorem block_keeps {P : List (String × ThemeEntry) → Prop} {nodes : List Node}
    (hstep : ∀ entries entries', Turns flags entries entries' → P entries → P entries')
    (h : nodes.foldlM (addNode flags) t = .ok t') (ht : P t.entries) : P t'.entries := by
  refine Except.foldlM_keeps (P := fun t : Theme => P t.entries) ?_ ht h
  intro t node _ t' ht hadd
  exact hstep _ _ (turns_addNode hadd) ht

def addBlock (t : Theme) (block : String × List Node) : Except Error Theme := do
  let p ← ThemeParams.parse block.1
  block.2.foldlM (addNode p.flags) { t with keyPrefix := p.keyPrefix.or t.keyPrefix }

theorem nodup_addBlocks {blocks : List (String × List Node)} (h : blocks.foldlM addBlock t = .ok t')
    (ht : (t.entries.map Prod.fst).Nodup) : (t'.entries.map Prod.fst).Nodup := by
  refine Except.foldlM_keeps (P := fun t : Theme => (t.entries.map Prod.fst).Nodup) ?_ ht h
  intro t block _ t' ht hadd
  obtain ⟨p, _, hadd⟩ := Except.exists_of_bind hadd
  exact block_keeps (P := fun entries => (entries.map Prod.fst).Nodup)
    (fun _ _ hturns => hturns.nodup) hadd ht

def shown (t : Theme) : List (String × ThemeEntry) :=
  t.entries.filter fun e => !e.2.flags.reference

/-- One rule declares each variable that is printed, in the order of the entries; the animations
that they name are printed at the end of the document. -/
def emitted (t : Theme) : List Node :=
  (if t.shown = [] then []
    else [.rule ":root" (t.shown.map fun e => .decl (Text.escape (t.prefixed e.1)) e.2.value)]) ++
  (if t.referencedKeyframes = [] then [] else [.atRoot t.referencedKeyframes])

theorem nodes_eq_emitted (t : Theme) : t.nodes = t.emitted := by
  have hdeclarations : t.declarations =
    t.shown.map fun e => .decl (Text.escape (t.prefixed e.1)) e.2.value := rfl
  simp only [nodes, emitted, hdeclarations, List.isEmpty_iff, List.map_eq_nil_iff]

end Theme

/-! ### Collecting the blocks -/

def AtHead.isShownTheme (h : AtHead) : Bool :=
  h.directive == .theme && (ThemeParams.parse h.params).toOption.any fun p => !p.flags.reference

def AtHead.isOpen (h : AtHead) : Bool :=
  h.directive == .media || h.directive == .other

theorem AtHead.isOpen_iff {h : AtHead} :
    h.isOpen = true ↔ h.directive = .media ∨ h.directive = .other := by
  simp [AtHead.isOpen]

/-- A frame that every stage goes into and leaves in place. -/
def Frame.IsOpen (frame : Frame) : Prop :=
  ∀ h ∈ frame.heads, h.isOpen = true

def Node.HidesThemes (node : Node) : Prop :=
  ∀ h ∈ node.heads, h.isShownTheme = false

theorem isHereditary_hidesThemes : IsHereditary Node.HidesThemes := by
  intro node nodes hnode hchildren n hn h hh
  refine hnode h ?_
  have hmem := mem_allHeads.2 ⟨n, hn, hh⟩
  cases node with
  | declaration | comment => cases hchildren
  | rule | context | atRoot =>
    cases hchildren
    exact hmem
  | atRule name params nodes =>
    cases hchildren
    exact List.mem_cons_of_mem _ hmem

theorem forall_hidesThemes {nodes : List Node} :
    (∀ n ∈ nodes, n.HidesThemes) ↔ ∀ h ∈ allHeads nodes, h.isShownTheme = false := by
  simp only [Node.HidesThemes, mem_allHeads]
  grind

structure Collected.HidesTheme (c : Collected) : Prop where
  themePlaced : c.themePlaced = false
  entries : ∀ e ∈ c.theme.entries, e.2.flags.reference = true

mutual

def Node.themeBlocks : Node → List (String × List Node)
  | .atRule name params nodes =>
    (if Directive.ofName name = .theme then [(params, nodes)] else []) ++ allThemeBlocks nodes
  | .rule _ nodes => allThemeBlocks nodes
  | .context _ nodes => allThemeBlocks nodes
  | .atRoot nodes => allThemeBlocks nodes
  | .declaration .. => []
  | .comment _ => []

def allThemeBlocks : List Node → List (String × List Node)
  | [] => []
  | n :: ns => n.themeBlocks ++ allThemeBlocks ns

end

mutual

theorem Node.themeBlocks_eq_nil : ∀ {node : Node}, (∀ h ∈ node.heads, h.directive ≠ .theme) →
    node.themeBlocks = []
  | .atRule name params nodes, h => by
    rw [Node.heads, List.forall_mem_cons] at h
    have hname : Directive.ofName name ≠ .theme := h.1
    rw [Node.themeBlocks, if_neg hname, allThemeBlocks_eq_nil h.2]
    rfl
  | .rule _ _, h => allThemeBlocks_eq_nil h
  | .context _ _, h => allThemeBlocks_eq_nil h
  | .atRoot _, h => allThemeBlocks_eq_nil h
  | .declaration .., _ => rfl
  | .comment _, _ => rfl

theorem allThemeBlocks_eq_nil :
    ∀ {nodes : List Node}, (∀ h ∈ allHeads nodes, h.directive ≠ .theme) →
    allThemeBlocks nodes = []
  | [], _ => rfl
  | n :: ns, h => by
    rw [allHeads, List.forall_mem_append] at h
    rw [allThemeBlocks, Node.themeBlocks_eq_nil h.1, allThemeBlocks_eq_nil h.2]
    rfl

end

section Collecting

variable {base : Path} {scope : Scope} {c c' : Collected} {name params : String}
  {nodes out : List Node} {action : Action}

theorem Collected.HidesTheme.takes (h : c.HidesTheme)
    (hnode : (Node.atRule name params nodes).HidesThemes)
    (htakes : Takes base scope c name params nodes action c') : c'.HidesTheme := by
  cases htakes with
  | @theme p theme hname hparams htheme =>
    have hreference : p.flags.reference = true := by
      simpa [AtHead.isShownTheme, AtHead.directive, hname, hparams, Except.toOption] using
        hnode ⟨name, params⟩ List.mem_cons_self
    refine ⟨by simp [h.themePlaced, hreference], ?_⟩
    refine Theme.block_keeps
      (P := fun entries => ∀ e ∈ entries, e.2.flags.reference = true) ?_ htheme
      h.entries
    intro entries entries' hturns hentries e he
    rcases hturns.mem he with he | hflags
    · exact hentries e he
    · rw [hflags]
      exact hreference
  | utility | variant | source | request | place | imported | pass =>
    exact ⟨h.themePlaced, h.entries⟩

theorem hidesTheme_collectAllFrom (hc : c.HidesTheme)
    (hnodes : ∀ h ∈ allHeads nodes, h.isShownTheme = false)
    (h : collectAllFrom base scope c nodes = .ok (out, c')) : c'.HidesTheme :=
  collectAllFrom_keeps isHereditary_hidesThemes (fun hnode hc htakes => hc.takes hnode htakes)
    (forall_hidesThemes.2 hnodes) hc h

theorem Collected.Takes.addBlock (h : Takes base scope c name params nodes action c') :
    (if Directive.ofName name = .theme then [(params, nodes)] else []).foldlM
      Theme.addBlock c.theme =
      .ok c'.theme := by
  cases h with
  | theme hname hparams htheme =>
    rw [if_pos hname, List.foldlM_cons, Theme.addBlock, hparams]
    dsimp only [bind, Except.bind]
    rw [htheme]
    rfl
  | utility hname | variant hname | source hname | place hname | imported hname =>
    rw [hname]
    rfl
  | @request kind id hname =>
    rw [hname]
    cases kind <;> rfl
  | pass hentered =>
    rw [if_neg]
    · rfl
    · intro hname
      rw [hname] at hentered
      cases hentered

theorem Collected.Takes.isOpen_eq_false (h : Takes base scope c name params nodes action c')
    (haction : action ≠ .descend) : AtHead.isOpen ⟨name, params⟩ = false := by
  cases h with
  | theme hname | utility hname | variant hname | source hname | place hname | imported hname =>
    simp [AtHead.isOpen, AtHead.directive, hname]
  | @request kind id hname =>
    cases kind <;> simp [AtHead.isOpen, AtHead.directive, hname, ModuleKind.atRule]
  | pass => contradiction

private theorem themeBlocks_of_closed {outer : List AtHead}
    (hopen : ∀ s ∈ (Node.atRule name params nodes).spots outer, s.head.directive = .theme →
      ∀ h ∈ s.outer, h.isOpen = true) (hclosed : AtHead.isOpen ⟨name, params⟩ = false) :
    allThemeBlocks nodes = [] := by
  refine allThemeBlocks_eq_nil fun h hh htheme => ?_
  obtain ⟨s, hs, rfl, houter⟩ := exists_spot (⟨name, params⟩ :: outer) hh
  have hhead := hopen s (List.mem_cons_of_mem _ hs) htheme _ (houter _ List.mem_cons_self)
  rw [hclosed] at hhead
  cases hhead

mutual

theorem Node.addBlocks_collectFrom {base : Path} :
    ∀ {node : Node} {outer : List AtHead} {scope : Scope} {c c' : Collected} {out : List Node},
      (∀ s ∈ node.spots outer, s.head.directive = .theme → ∀ h ∈ s.outer, h.isOpen = true) →
      node.collectFrom base scope c = .ok (out, c') →
      node.themeBlocks.foldlM Theme.addBlock c.theme = .ok c'.theme
  | .context entries nodes, outer, scope, c, c', out, hopen, h => by
    rw [Node.collectFrom] at h
    obtain ⟨inner, hinner, h⟩ := Except.exists_of_map h
    cases h
    exact addBlocks_collectAllFrom hopen hinner
  | .rule selector nodes, outer, scope, c, c', out, hopen, h => by
    rw [Node.collectFrom] at h
    obtain ⟨inner, hinner, h⟩ := Except.exists_of_map h
    cases h
    exact addBlocks_collectAllFrom hopen hinner
  | .atRoot nodes, outer, scope, c, c', out, hopen, h => by
    rw [Node.collectFrom] at h
    obtain ⟨inner, hinner, h⟩ := Except.exists_of_map h
    cases h
    exact addBlocks_collectAllFrom hopen hinner
  | .declaration property value important, outer, scope, c, c', out, hopen, h => by
    cases h
    rfl
  | .comment text, outer, scope, c, c', out, hopen, h => by
    cases h
    rfl
  | .atRule name params nodes, outer, scope, c, c', out, hopen, h => by
    rw [Node.collectFrom] at h
    obtain ⟨⟨action, c₁⟩, hvisit, h⟩ := Except.exists_of_bind h
    have htakes := Collected.takes_of_visit hvisit
    rw [Node.themeBlocks, List.foldlM_append, htakes.addBlock]
    cases action with
    | descend =>
      obtain ⟨inner, hinner, h⟩ := Except.exists_of_map h
      cases h
      exact addBlocks_collectAllFrom (fun s hs => hopen s (List.mem_cons_of_mem _ hs)) hinner
    | skip | stop | replace _ | replaceAndStop _ =>
      cases h
      rw [themeBlocks_of_closed hopen (htakes.isOpen_eq_false (by simp))]
      rfl

theorem addBlocks_collectAllFrom {base : Path} :
    ∀ {nodes : List Node} {outer : List AtHead} {scope : Scope} {c c' : Collected}
      {out : List Node},
      (∀ s ∈ allSpots outer nodes, s.head.directive = .theme → ∀ h ∈ s.outer, h.isOpen = true) →
      collectAllFrom base scope c nodes = .ok (out, c') →
      (allThemeBlocks nodes).foldlM Theme.addBlock c.theme = .ok c'.theme
  | [], outer, scope, c, c', out, hopen, h => by
    cases h
    rfl
  | n :: ns, outer, scope, c, c', out, hopen, h => by
    rw [collectAllFrom] at h
    obtain ⟨first, hfirst, h⟩ := Except.exists_of_bind h
    obtain ⟨rest, hrest, h⟩ := Except.exists_of_bind h
    cases h
    rw [allSpots, List.forall_mem_append] at hopen
    rw [allThemeBlocks, List.foldlM_append, Node.addBlocks_collectFrom hopen.1 hfirst]
    exact addBlocks_collectAllFrom hopen.2 hrest

end

theorem Collected.Takes.themePlaced (h : Takes base scope c name params nodes action c')
    (hc : c.themePlaced = true) : c'.themePlaced = true := by
  cases h with
  | theme => simp [hc]
  | utility | variant | source | request | place | imported | pass => exact hc

theorem themePlaced_collectAllFrom (hc : c.themePlaced = true)
    (h : collectAllFrom base scope c nodes = .ok (out, c')) : c'.themePlaced = true := by
  refine collectAllFrom_keeps (P := fun c : Collected => c.themePlaced = true) isHereditary_true ?_
    (fun _ _ => trivial) hc h
  intro scope c name params nodes action c' _ hc htakes
  exact htakes.themePlaced hc

/-- The only thing that a visit can put into the tree for the theme is the mark of its place. -/
theorem Collected.Takes.replaced_without {nodes' : List Node}
    (h : Takes base scope c name params nodes (.replace nodes') c')
    (hplaced : c'.themePlaced = c.themePlaced) : AllHave (.without themeKey) nodes' := by
  generalize haction : Action.replace nodes' = action at h
  cases h with
  | @theme p =>
    cases haction
    split
    · trivial
    next hcond => simp_all
  | place =>
    cases haction
    split
    · trivial
    · exact allHave_singleton.2 ⟨rfl, trivial⟩
  | variant | source | request =>
    cases haction
    trivial
  | utility | imported | pass => cases haction

theorem without_collectAllFrom_hidden (hc : c.HidesTheme)
    (hheads : ∀ h ∈ allHeads nodes, h.isShownTheme = false)
    (hnodes : AllHave (.without themeKey) nodes)
    (h : collectAllFrom base scope c nodes = .ok (out, c')) : AllHave (.without themeKey) out := by
  refine AllHave.collectAllFrom (Shape.Le.refl _) isHereditary_hidesThemes
    (fun hnode hc htakes => hc.takes hnode htakes) ?_ (forall_hidesThemes.2 hheads) hc hnodes h
  intro scope c name params nodes nodes' c' hnode hc htakes
  exact htakes.replaced_without ((hc.takes hnode htakes).themePlaced.trans hc.themePlaced.symm)

theorem without_collectAllFrom_placed (hc : c.themePlaced = true)
    (hnodes : AllHave (.without themeKey) nodes)
    (h : collectAllFrom base scope c nodes = .ok (out, c')) : AllHave (.without themeKey) out := by
  refine AllHave.collectAllFrom (P := fun c : Collected => c.themePlaced = true) (Shape.Le.refl _)
    isHereditary_true ?_ ?_ (fun _ _ => trivial) hc hnodes h
  · intro scope c name params nodes action c' _ hc htakes
    exact htakes.themePlaced hc
  · intro scope c name params nodes nodes' c' _ hc htakes
    exact htakes.replaced_without ((htakes.themePlaced hc).trans hc.symm)

/-! ### The mark of the place -/

theorem collectFrom_shown {head : AtHead} (hhead : head.isShownTheme = true)
    (hc : c.themePlaced = false)
    (h : (Node.atRule head.name head.params nodes).collectFrom base scope c = .ok (out, c')) :
    out = [placeholder themeKey] ∧ c'.themePlaced = true := by
  obtain ⟨htheme, hflags⟩ := Bool.and_eq_true_iff.1 hhead
  have htheme : Directive.ofName head.name = .theme := eq_of_beq htheme
  rw [Node.collectFrom] at h
  obtain ⟨⟨action, c₁⟩, hvisit, h⟩ := Except.exists_of_bind h
  have htakes := Collected.takes_of_visit hvisit
  cases htakes with
  | theme _ hparams _ =>
    rw [hparams] at hflags
    simp [Except.toOption] at hflags
    cases h
    simp [hc, hflags]
  | utility hname | variant hname | source hname | place hname | imported hname =>
    rw [htheme] at hname
    cases hname
  | @request kind id hname =>
    rw [htheme] at hname
    cases kind <;> cases hname
  | pass hentered =>
    rw [htheme] at hentered
    cases hentered

theorem exists_of_collectAllFrom_append {ns ms : List Node}
    (h : collectAllFrom base scope c (ns ++ ms) = .ok (out, c')) :
    ∃ first c₁ rest, collectAllFrom base scope c ns = .ok (first, c₁) ∧
      collectAllFrom base scope c₁ ms = .ok (rest, c') ∧ out = first ++ rest := by
  induction ns generalizing c out with
  | nil => exact ⟨[], c, out, rfl, h, rfl⟩
  | cons n ns ih =>
    rw [List.cons_append, collectAllFrom] at h
    obtain ⟨⟨made, c₁⟩, hmade, h⟩ := Except.exists_of_bind h
    obtain ⟨⟨others, c₂⟩, hothers, h⟩ := Except.exists_of_bind h
    cases h
    obtain ⟨first, c₃, rest, hfirst, hrest, rfl⟩ := ih hothers
    refine ⟨made ++ first, c₃, rest, ?_, hrest, (List.append_assoc ..).symm⟩
    rw [collectAllFrom, hmade]
    change collectAllFrom base scope c₁ ns >>= _ = _
    rw [hfirst]
    rfl

theorem exists_of_collectAllFrom_cons {n : Node} {ns : List Node}
    (h : collectAllFrom base scope c (n :: ns) = .ok (out, c')) :
    ∃ first c₁ rest, n.collectFrom base scope c = .ok (first, c₁) ∧
      collectAllFrom base scope c₁ ns = .ok (rest, c') ∧ out = first ++ rest := by
  rw [collectAllFrom] at h
  obtain ⟨⟨first, c₁⟩, hfirst, h⟩ := Except.exists_of_bind h
  obtain ⟨⟨rest, c₂⟩, hrest, h⟩ := Except.exists_of_bind h
  cases h
  exact ⟨first, c₁, rest, hfirst, hrest, rfl⟩

private theorem exists_of_collectFrom_around {frame : Frame} (hframe : frame.IsOpen)
    (h : (frame.around nodes).collectFrom base scope c = .ok (out, c')) :
    ∃ scope' inner, collectAllFrom base scope' c nodes = .ok (inner, c') ∧
      out = [frame.around inner] := by
  cases frame with
  | rule | context | atRoot =>
    rw [Frame.around, Node.collectFrom] at h
    obtain ⟨⟨inner, c₁⟩, hinner, h⟩ := Except.exists_of_map h
    cases h
    exact ⟨_, inner, hinner, rfl⟩
  | atRule name params =>
    have hopen := hframe ⟨name, params⟩ List.mem_cons_self
    rw [Frame.around, Node.collectFrom] at h
    obtain ⟨⟨action, c₁⟩, hvisit, h⟩ := Except.exists_of_bind h
    have htakes := Collected.takes_of_visit hvisit
    obtain rfl : action = .descend := by
      by_contra haction
      rw [htakes.isOpen_eq_false haction] at hopen
      cases hopen
    cases htakes
    obtain ⟨⟨inner, c₂⟩, hinner, h⟩ := Except.exists_of_map h
    cases h
    exact ⟨_, inner, hinner, rfl⟩

end Collecting

def Collects (base : Path) (nodes out : List Node) : Prop :=
  ∃ scope c c', collectAllFrom base scope c nodes = .ok (out, c')

theorem Place.exists_collected {base : Path} {head : AtHead} {body : List Node} {p : Place}
    (hhead : head.isShownTheme = true) (hfirst : ∀ h ∈ p.headsBefore, h.isShownTheme = false)
    (hopen : ∀ frame ∈ p.frames, frame.IsOpen)
    (hp : p.Has (.without themeKey)) {scope : Scope} {c c' : Collected} {out : List Node}
    (hc : c.HidesTheme)
    (h : collectAllFrom base scope c (p.fill [.atRule head.name head.params body]) =
      .ok (out, c')) :
    ∃ q : Place, out = q.fill [placeholder themeKey] ∧ p.Follows (Collects base) Eq q ∧
      q.Has (.without themeKey) ∧ q.frames = p.frames ∧ c'.themePlaced = true := by
  induction p generalizing scope c c' out with
  | here before after =>
    obtain ⟨before', c₁, rest, hbefore, hrest, rfl⟩ := exists_of_collectAllFrom_append h
    obtain ⟨mark, c₂, after', hmark, hafter, rfl⟩ := exists_of_collectAllFrom_cons hrest
    -- no other mark is made: before this one no block is shown, behind it the place is known
    have hc₁ := hidesTheme_collectAllFrom hc hfirst hbefore
    obtain ⟨rfl, hc₂⟩ := collectFrom_shown hhead hc₁.themePlaced hmark
    refine ⟨here before' after', rfl, .here ⟨_, _, _, hbefore⟩ ⟨_, _, _, hafter⟩, ?_, rfl, ?_⟩
    · exact ⟨without_collectAllFrom_hidden hc hfirst hp.1 hbefore,
        without_collectAllFrom_placed hc₂ hp.2 hafter⟩
    · exact themePlaced_collectAllFrom hc₂ hafter
  | inside before frame inner after ih =>
    obtain ⟨before', c₁, rest, hbefore, hrest, rfl⟩ := exists_of_collectAllFrom_append h
    obtain ⟨framed, c₂, after', hframed, hafter, rfl⟩ := exists_of_collectAllFrom_cons hrest
    obtain ⟨hhasBefore, hhasFrame, hhasInner, hhasAfter⟩ := hp
    rw [headsBefore, List.forall_mem_append, List.forall_mem_append] at hfirst
    rw [frames, List.forall_mem_cons] at hopen
    have hc₁ := hidesTheme_collectAllFrom hc hfirst.1 hbefore
    obtain ⟨scope', made, hmade, rfl⟩ := exists_of_collectFrom_around hopen.1 hframed
    obtain ⟨q, rfl, hfollows, hq, hframes, hc₂⟩ := ih hfirst.2.2 hopen.2 hhasInner hc₁ hmade
    refine ⟨inside before' frame q after', rfl,
      .inside ⟨_, _, _, hbefore⟩ rfl hfollows ⟨_, _, _, hafter⟩, ?_, ?_, ?_⟩
    · exact ⟨without_collectAllFrom_hidden hc hfirst.1 hhasBefore hbefore, hhasFrame, hq,
        without_collectAllFrom_placed hc₂ hhasAfter hafter⟩
    · rw [frames, frames, hframes]
    · exact themePlaced_collectAllFrom hc₂ hafter

/-! ### The later stages -/

def Finishes (d : DesignSystem) (nodes out : List Node) : Prop :=
  ∃ applied, (substituteAllApply d nodes).result = .ok applied ∧
    expandAllCalls d.theme (replaceDirective .utility [] applied) = .ok out

def Frame.expandCalls (t : Theme) : Frame → Except Error Frame
  | atRule name params =>
    (if callAtRules.contains name then t.expandText params else .ok params).map (.atRule name)
  | frame => .ok frame

section Finishing

variable {d : DesignSystem} {nodes out : List Node}

private theorem exists_of_substituteAllApply_append {ns ms : List Node}
    (h : (substituteAllApply d (ns ++ ms)).result = .ok out) :
    ∃ first rest, (substituteAllApply d ns).result = .ok first ∧
      (substituteAllApply d ms).result = .ok rest ∧ out = first ++ rest := by
  induction ns generalizing out with
  | nil => exact ⟨[], out, rfl, h, rfl⟩
  | cons n ns ih =>
    rw [List.cons_append, substituteAllApply] at h
    obtain ⟨made, hmade, h⟩ := Traced.exists_of_bind h
    obtain ⟨others, hothers, h⟩ := Traced.exists_of_bind h
    cases h
    obtain ⟨first, rest, hfirst, hrest, rfl⟩ := ih hothers
    refine ⟨made ++ first, rest, ?_, hrest, (List.append_assoc ..).symm⟩
    simp only [substituteAllApply, Traced.result_bind, hmade, hfirst, Except.bind]
    rfl

private theorem allReplaced_append (directive : Directive) (content ns ms : List Node) :
    allReplaced directive content (ns ++ ms) =
      allReplaced directive content ns ++ allReplaced directive content ms := by
  induction ns with
  | nil => rfl
  | cons n ns ih => rw [List.cons_append, allReplaced, allReplaced, ih, List.append_assoc]

private theorem exists_of_expandAllCalls_append {t : Theme} {ns ms : List Node}
    (h : expandAllCalls t (ns ++ ms) = .ok out) :
    ∃ first rest, expandAllCalls t ns = .ok first ∧ expandAllCalls t ms = .ok rest ∧
      out = first ++ rest := by
  induction ns generalizing out with
  | nil => exact ⟨[], out, rfl, h, rfl⟩
  | cons n ns ih =>
    rw [List.cons_append, expandAllCalls] at h
    obtain ⟨made, hmade, h⟩ := Except.exists_of_bind h
    obtain ⟨others, hothers, h⟩ := Except.exists_of_bind h
    cases h
    obtain ⟨first, rest, hfirst, hrest, rfl⟩ := ih hothers
    refine ⟨made :: first, rest, ?_, hrest, rfl⟩
    rw [expandAllCalls, hmade]
    change expandAllCalls t ns >>= _ = _
    rw [hfirst]
    rfl

theorem Finishes.exists_of_append {ns ms : List Node} (h : Finishes d (ns ++ ms) out) :
    ∃ first rest, Finishes d ns first ∧ Finishes d ms rest ∧ out = first ++ rest := by
  obtain ⟨applied, happlied, hout⟩ := h
  obtain ⟨a, b, ha, hb, rfl⟩ := exists_of_substituteAllApply_append happlied
  rw [replaceDirective_eq, allReplaced_append] at hout
  obtain ⟨first, rest, hfirst, hrest, rfl⟩ := exists_of_expandAllCalls_append hout
  rw [← replaceDirective_eq] at hfirst hrest
  exact ⟨first, rest, ⟨a, ha, hfirst⟩, ⟨b, hb, hrest⟩, rfl⟩

theorem Finishes.eq_nil (h : Finishes d [] out) : out = [] := by
  obtain ⟨applied, happlied, hout⟩ := h
  cases happlied
  cases hout
  rfl

theorem Frame.expandCalls_around {t : Theme} {frame : Frame} {node : Node}
    (h : (frame.around nodes).expandCalls t = .ok node) :
    ∃ frame' inner, frame.expandCalls t = .ok frame' ∧ expandAllCalls t nodes = .ok inner ∧
      node = frame'.around inner := by
  cases frame with
  | atRule name params =>
    rw [Frame.around, Node.expandCalls] at h
    dsimp only at h
    rw [Frame.expandCalls]
    split at h
    next hname =>
      obtain ⟨params', hparams, h⟩ := Except.exists_of_bind h
      obtain ⟨inner, hinner, h⟩ := Except.exists_of_bind h
      cases h
      exact ⟨.atRule name params', inner, by rw [if_pos hname, hparams]; rfl, hinner, rfl⟩
    next hname =>
      obtain ⟨params', hparams, h⟩ := Except.exists_of_bind h
      cases hparams
      obtain ⟨inner, hinner, h⟩ := Except.exists_of_bind h
      cases h
      exact ⟨.atRule name params, inner, by rw [if_neg hname]; rfl, hinner, rfl⟩
  | rule | context | atRoot =>
    rw [Frame.around, Node.expandCalls] at h
    obtain ⟨inner, hinner, rfl⟩ := Except.exists_of_map h
    exact ⟨_, inner, rfl, hinner, rfl⟩

theorem Frame.substituteApply_around {frame : Frame} (hframe : frame.IsOpen)
    (h : ((frame.around nodes).substituteApply d).result = .ok out) :
    ∃ inner, (substituteAllApply d nodes).result = .ok inner ∧ out = [frame.around inner] := by
  cases frame with
  | rule | context | atRoot =>
    rw [Frame.around, Node.substituteApply] at h
    obtain ⟨inner, hinner, h⟩ := Traced.exists_of_bind h
    cases h
    exact ⟨inner, hinner, rfl⟩
  | atRule name params =>
    have hopen := hframe ⟨name, params⟩ List.mem_cons_self
    rw [Frame.around, Node.substituteApply] at h
    split at h
    next hname => simp [AtHead.isOpen, AtHead.directive, hname] at hopen
    next hname => simp [AtHead.isOpen, AtHead.directive, hname] at hopen
    next =>
      obtain ⟨inner, hinner, h⟩ := Traced.exists_of_bind h
      cases h
      exact ⟨inner, hinner, rfl⟩

theorem Frame.replaced_around {frame : Frame} (hframe : frame.IsOpen)
    (nodes : List Node) : (frame.around nodes).replaced .utility [] =
      [frame.around (allReplaced .utility [] nodes)] := by
  cases frame with
  | rule | context | atRoot => rfl
  | atRule name params =>
    have hopen := hframe ⟨name, params⟩ List.mem_cons_self
    rw [Frame.around, Node.replaced, if_neg]
    · rfl
    · intro hname
      simp [AtHead.isOpen, AtHead.directive, hname] at hopen

theorem Frame.Has.expandCalls {s : Shape} {t : Theme} {frame frame' : Frame} (h : frame.Has s)
    (heq : frame.expandCalls t = .ok frame') : frame'.Has s := by
  cases frame with
  | atRule name params =>
    obtain ⟨params', _, rfl⟩ := Except.exists_of_map heq
    trivial
  | rule | context | atRoot =>
    cases heq
    exact h

theorem Finishes.exists_of_around {frame : Frame} (hframe : frame.IsOpen)
    (h : Finishes d [frame.around nodes] out) :
    ∃ frame' inner, frame.expandCalls d.theme = .ok frame' ∧ Finishes d nodes inner ∧
      out = [frame'.around inner] := by
  obtain ⟨applied, happlied, hout⟩ := h
  rw [substituteAllApply] at happlied
  obtain ⟨first, hfirst, happlied⟩ := Traced.exists_of_bind happlied
  cases happlied
  obtain ⟨inner, hinner, rfl⟩ := Frame.substituteApply_around hframe hfirst
  have hreplaced : replaceDirective .utility [] ([frame.around inner] ++ []) =
      [frame.around (replaceDirective .utility [] inner)] := by
    rw [replaceDirective_eq, replaceDirective_eq, List.append_nil, allReplaced,
      Frame.replaced_around hframe, allReplaced, List.append_nil]
  rw [hreplaced, expandAllCalls] at hout
  obtain ⟨node, hnode, hout⟩ := Except.exists_of_bind hout
  cases hout
  obtain ⟨frame', inner', hframe', hinner', rfl⟩ := Frame.expandCalls_around hnode
  exact ⟨frame', inner', hframe', ⟨inner, hinner, hinner'⟩, rfl⟩

theorem Finishes.has {s : Shape} (hs : s.Uniform) (hd : d.Has s) (hnodes : AllHave s nodes)
    (h : Finishes d nodes out) : AllHave s out := by
  obtain ⟨applied, happlied, hout⟩ := h
  have hnone : AllHave s [] := trivial
  have happlied := AllHave.substituteAllApply hs (Shape.Le.refl s) hd hnodes happlied
  exact AllHave.expandAllCalls (happlied.replaceDirective hnone) hout

/-- Between open frames, the mark stays where it is. -/
theorem Place.exists_finished (hd : d.Has (.without themeKey)) {q : Place}
    (hopen : ∀ frame ∈ q.frames, frame.IsOpen)
    (hq : q.Has (.without themeKey)) (h : Finishes d (q.fill [placeholder themeKey]) out) :
    ∃ q' : Place, out = q'.fill [placeholder themeKey] ∧
      q.Follows (Finishes d) (fun frame frame' => frame.expandCalls d.theme = .ok frame') q' ∧
      q'.Has (.without themeKey) := by
  have hhas : ∀ {ns ms : List Node}, AllHave (.without themeKey) ns → Finishes d ns ms →
      AllHave (.without themeKey) ms := fun hns => Finishes.has Shape.without_uniform hd hns
  induction q generalizing out with
  | here before after =>
    obtain ⟨before', rest, hbefore, hrest, rfl⟩ := h.exists_of_append
    obtain ⟨mark, after', hmark, hafter, rfl⟩ := hrest.exists_of_append
    have hmark : Finishes d [Frame.around [] (.context [(themeKey, "")])] mark := hmark
    obtain ⟨frame, inner, hframe, hinner, rfl⟩ :=
      hmark.exists_of_around (by simp [Frame.IsOpen, Frame.heads])
    cases hframe
    rw [hinner.eq_nil]
    exact ⟨here before' after', rfl, .here hbefore hafter, hhas hq.1 hbefore, hhas hq.2 hafter⟩
  | inside before frame inner after ih =>
    obtain ⟨hhasBefore, hhasFrame, hhasInner, hhasAfter⟩ := hq
    rw [frames, List.forall_mem_cons] at hopen
    rw [fill, ← List.singleton_append] at h
    obtain ⟨before', rest, hbefore, hrest, rfl⟩ := h.exists_of_append
    obtain ⟨framed, after', hframed, hafter, rfl⟩ := hrest.exists_of_append
    obtain ⟨frame', made, hframe', hmade, rfl⟩ := hframed.exists_of_around hopen.1
    obtain ⟨q', rfl, hfollows, hq'⟩ := ih hopen.2 hhasInner hmade
    refine ⟨inside before' frame' q' after', rfl, .inside hbefore hframe' hfollows hafter, ?_⟩
    exact ⟨hhas hhasBefore hbefore, hhasFrame.expandCalls hframe', hq', hhas hhasAfter hafter⟩

end Finishing

/-! ### The compiled stylesheet -/

theorem placeTheme_fill (t : Theme) {q : Place} (hq : q.Has (.without themeKey)) :
    placeTheme t (q.fill [placeholder themeKey]) =
      q.fill [.context [(themeKey, "")] t.emitted] := by
  rw [placeTheme, hq.find?_fill rfl, ← t.nodes_eq_emitted]
  exact q.modify_fill _ _

private theorem placeTheme_without (t : Theme) {nodes : List Node}
    (h : AllHave (.without themeKey) nodes) : placeTheme t nodes = nodes := by
  rw [placeTheme, h.find?_eq_none]

namespace Compilation

variable {css : String} {options : CompileOptions}

/-- What the stages behind the options of media queries leave of some nodes. -/
def Leaves (r : Compilation css options) : List Node → List Node → Prop :=
  Relation.Comp (Collects options.base) (Finishes r.system)

def Reframes (r : Compilation css options) (frame frame' : Frame) : Prop :=
  frame.expandCalls r.system.theme = .ok frame'

theorem forwarded_without (r : Compilation css options) :
    AllHave (.without themeKey) r.forwarded.nodes := by
  have hs : (Shape.without themeKey).Uniform := Shape.without_uniform
  have hspliced := spliceFrom_has hs (fun _ => rfl) (parse_has r.parse_eq) r.splice_eq
  exact AllHave.forwardAllOptions hs hspliced r.forward_eq

theorem ready_without (r : Compilation css options) (hmodules : r.collected.modules = []) :
    r.system.Ready (.without themeKey) := by
  have hs : (Shape.without themeKey).Uniform := Shape.without_uniform
  have hcollected := collect_has r.forwarded_without r.collect_eq
  have hdefine := r.system_eq
  rw [r.modules_of_none hmodules] at hdefine
  exact (hcollected.ready hs r.forwarded.important).defineUtilities hs hcollected.utilities hdefine

theorem finishes (r : Compilation css options) (hmodules : r.collected.modules = []) :
    Finishes r.system r.nodes r.expanded := by
  have happly := r.apply_eq
  rw [r.modules_of_none hmodules] at happly
  exact ⟨r.applied, happly, r.expand_eq⟩

theorem theme_eq (r : Compilation css options) (hmodules : r.collected.modules = [])
    (hopen : ∀ s ∈ allSpots [] r.forwarded.nodes, s.head.directive = .theme →
      ∀ h ∈ s.outer, h.isOpen = true) :
    (allThemeBlocks r.forwarded.nodes).foldlM Theme.addBlock {} = .ok r.compiler.system.theme := by
  have hcollect := r.collect_eq
  rw [UtilityCss.collect_eq] at hcollect
  rw [show r.compiler.system.theme = r.collected.theme from r.theme_system hmodules]
  exact addBlocks_collectAllFrom hopen hcollect

theorem hidesTheme_empty : Collected.HidesTheme {} :=
  ⟨rfl, fun _ h => (nomatch h)⟩

theorem theme_hidden (r : Compilation css options) (hmodules : r.collected.modules = [])
    (hheads : ∀ h ∈ allHeads r.forwarded.nodes, h.isShownTheme = false) :
    (∀ e ∈ r.compiler.system.theme.entries, e.2.flags.reference = true) ∧
      allSites themeKey r.compiler.tree = [] := by
  have hcollect := r.collect_eq
  rw [UtilityCss.collect_eq] at hcollect
  constructor
  · rw [show r.compiler.system.theme = r.collected.theme from r.theme_system hmodules]
    exact (hidesTheme_collectAllFrom hidesTheme_empty hheads hcollect).entries
  · have hnodes :=
      without_collectAllFrom_hidden hidesTheme_empty hheads r.forwarded_without hcollect
    have hexpanded :=
      (r.finishes hmodules).has Shape.without_uniform (r.ready_without hmodules).has hnodes
    rw [compiler, placeTheme_without _ hexpanded]
    exact hexpanded.allSites

private theorem theme_shown (r : Compilation css options) (hmodules : r.collected.modules = [])
    {p : Place} {head : AtHead} {body : List Node}
    (hfirst : p.HasFirst AtHead.isShownTheme r.forwarded.nodes head body)
    (hopen : ∀ frame ∈ p.frames, frame.IsOpen) :
    ∃ q : Place, p.Follows r.Leaves r.Reframes q ∧
      r.compiler.tree = q.fill [.context [(themeKey, "")] r.system.theme.emitted] ∧
      allSites themeKey r.compiler.tree = [r.system.theme.emitted] := by
  have hready := r.ready_without hmodules
  have hcollect := r.collect_eq
  rw [UtilityCss.collect_eq, hfirst.nodes_eq] at hcollect
  have hp : p.Has (.without themeKey) :=
    .of_fill (hfirst.nodes_eq ▸ r.forwarded_without) Shape.without_uniform
  obtain ⟨mid, hmid, hcollects, hhas, hframes, -⟩ :=
    Place.exists_collected hfirst.isKind hfirst.first hopen hp hidesTheme_empty hcollect
  have hfinishes := r.finishes hmodules
  rw [hmid] at hfinishes
  obtain ⟨q, hq, hfollows, hwithout⟩ :=
    Place.exists_finished hready.has (hframes ▸ hopen) hhas hfinishes
  have htree : r.compiler.tree = q.fill [.context [(themeKey, "")] r.system.theme.emitted] := by
    rw [compiler, hq]
    exact placeTheme_fill _ hwithout
  have hemitted : AllHave (.without themeKey) r.system.theme.emitted := by
    rw [← Theme.nodes_eq_emitted]
    exact Theme.nodes_has trivial hready.keyframes
  refine ⟨q, ?_, htree, ?_⟩
  · have hcomp := hcollects.comp hfollows
    rwa [Relation.eq_comp] at hcomp
  · rw [htree, hwithout.allSites_fill, allSites, Node.sites, hemitted.allSites]
    rfl

/-- The theme is made of all blocks in document order. Each of its variables that is not a mere
reference is printed once, in a rule that stands where the first block that is shown stood; without
such a block there is nothing to print. -/
theorem theme_emitted (r : Compilation css options) (hmodules : r.collected.modules = [])
    (hopen : ∀ s ∈ allSpots [] r.forwarded.nodes, s.head.directive = .theme →
      ∀ h ∈ s.outer, h.directive = .media ∨ h.directive = .other) :
    (compile css options).result = .ok r.compiler ∧
      (allThemeBlocks r.forwarded.nodes).foldlM Theme.addBlock {} = .ok r.compiler.system.theme ∧
      (r.compiler.system.theme.entries.map Prod.fst).Nodup ∧
      ((∀ h ∈ allHeads r.forwarded.nodes, h.isShownTheme = false) →
        (∀ e ∈ r.compiler.system.theme.entries, e.2.flags.reference = true) ∧
          allSites themeKey r.compiler.tree = []) ∧
      ((∃ h ∈ allHeads r.forwarded.nodes, h.isShownTheme = true) →
        ∃ p q head body, Place.HasFirst AtHead.isShownTheme r.forwarded.nodes p head body ∧
          p.Follows r.Leaves r.Reframes q ∧
          r.compiler.tree = q.fill [.context [(themeKey, "")] r.compiler.system.theme.emitted] ∧
          allSites themeKey r.compiler.tree = [r.compiler.system.theme.emitted]) := by
  simp only [← AtHead.isOpen_iff] at hopen
  have hblocks := r.theme_eq hmodules hopen
  refine ⟨r.compile_eq, hblocks, Theme.nodup_addBlocks hblocks List.nodup_nil,
    r.theme_hidden hmodules, fun hshown => ?_⟩
  obtain ⟨p, head, body, hfirst⟩ := exists_first hshown
  have hspot := Place.mem_allSpots_fill head body p []
  rw [← hfirst.nodes_eq] at hspot
  have htheme : head.directive = .theme := eq_of_beq (Bool.and_eq_true_iff.1 hfirst.isKind).1
  obtain ⟨q, hq⟩ := r.theme_shown hmodules hfirst fun frame hframe h hh =>
    hopen _ hspot htheme h (Place.heads_subset_outer hframe [] h hh)
  exact ⟨p, q, head, body, hfirst, hq⟩

end Compilation

/-! ### A stylesheet with three blocks -/

theorem Collected.addTheme_eq {c : Collected} {params : String} {nodes : List Node}
    {p : ThemeParams} {theme : Theme} (hparams : ThemeParams.parse params = .ok p)
    (htheme : nodes.foldlM (Theme.addNode p.flags)
      { c.theme with keyPrefix := p.keyPrefix.or c.theme.keyPrefix } = .ok theme) :
    c.addTheme params nodes =
      if p.flags.reference || c.themePlaced then .ok (.replace [], { c with theme })
      else .ok (.replace [placeholder themeKey], { c with theme, themePlaced := true }) := by
  rw [addTheme, hparams]
  dsimp only [bind, Except.bind]
  rw [htheme]
  rfl

def overridden : Compilation
    ("@theme reference \x7b --a: 1px; --b: 2px; \x7d .x \x7b color: red; \x7d @supports (gap: 1px) " ++
      "\x7b @theme \x7b --b: 3px; --c: 4px; \x7d \x7d @theme \x7b --c: initial; --d: 5px; \x7d")
    { base := ⟨"/"⟩ } :=
  let first : List Node := [.decl "--a" "1px", .decl "--b" "2px"]
  let second : List Node := [.decl "--b" "3px", .decl "--c" "4px"]
  let third : List Node := [.decl "--c" "initial", .decl "--d" "5px"]
  let rule : Node := .rule ".x" [.decl "color" "red"]
  let parsed : List Node :=
    [.atRule "theme" "reference" first, rule,
      .atRule "supports" "(gap: 1px)" [.atRule "theme" "" second], .atRule "theme" "" third]
  let nodes : List Node := [rule, .atRule "supports" "(gap: 1px)" [placeholder themeKey]]
  let a : String × ThemeEntry := ("--a", ⟨"1px", { reference := true }⟩)
  let theme : Theme := { entries := [a, ("--b", ⟨"3px", {}⟩), ("--d", ⟨"5px", {}⟩)] }
  .plain parsed nodes nodes { theme, themePlaced := true } (by cbv) (by cbv) (by cbv)
    (by
      have hreference : ThemeParams.parse "reference" =
          .ok { flags := { reference := true } } := by cbv
      have hplain : ThemeParams.parse "" = .ok {} := by cbv
      have htheme : Directive.ofName "theme" = .theme := by decide
      have hsupports : Directive.ofName "supports" = .other := by decide
      let one : Theme := { entries := [a, ("--b", ⟨"2px", { reference := true }⟩)] }
      let two : Theme := { entries := [a, ("--b", ⟨"3px", {}⟩), ("--c", ⟨"4px", {}⟩)] }
      have hfirst : Collected.addTheme {} "reference" first = .ok (.replace [], { theme := one }) :=
        Collected.addTheme_eq hreference rfl
      have hrule : ∀ c, rule.collectFrom ⟨"/"⟩ {} c = .ok ([rule], c) := fun _ => rfl
      have hsecond : Collected.addTheme { theme := one } "" second =
          .ok (.replace [placeholder themeKey], { theme := two, themePlaced := true }) :=
        Collected.addTheme_eq hplain rfl
      have hthird : Collected.addTheme { theme := two, themePlaced := true } "" third =
          .ok (.replace [], { theme, themePlaced := true }) := Collected.addTheme_eq hplain rfl
      rw [UtilityCss.collect_eq]
      simp only [collectAllFrom, Node.collectFrom, Collected.visit, Action.carryOut,
        htheme, hsupports, hfirst, hrule, hsecond, hthird, bind, Except.bind, pure, Except.pure,
        Except.map, parsed]
      rfl)
    rfl rfl rfl
    (by
      have hkept : replaceDirective .utility [] nodes = nodes := rfl
      have hcolor : Theme.expandText theme "red" = .ok "red" := Theme.expandText_of_plain rfl
      have hgap : Theme.expandText theme "(gap: 1px)" = .ok "(gap: 1px)" :=
        Theme.expandText_of_plain rfl
      have htheme : (Collected.system { theme, themePlaced := true } false).theme = theme := rfl
      rw [hkept, htheme]
      simp [nodes, rule, placeholder, expandAllCalls, Node.expandCalls, Node.decl,
        callAtRules, hcolor, hgap, bind, Except.bind, Except.map, pure, Except.pure])

theorem Compilation.theme_emitted_overridden :
    overridden.collected.modules = [] ∧
      (∀ s ∈ allSpots [] overridden.forwarded.nodes, s.head.directive = .theme →
        ∀ h ∈ s.outer, h.directive = .media ∨ h.directive = .other) ∧
      overridden.compiler.system.theme.emitted =
        [.rule ":root" [.decl "--b" "3px", .decl "--d" "5px"]] ∧
      ∃ p q head body,
        Place.HasFirst AtHead.isShownTheme overridden.forwarded.nodes p head body ∧
          p.Follows overridden.Leaves overridden.Reframes q ∧
          overridden.compiler.tree =
            q.fill [.context [(themeKey, "")] overridden.compiler.system.theme.emitted] ∧
          allSites themeKey overridden.compiler.tree =
            [overridden.compiler.system.theme.emitted] := by
  have hspots : allSpots [] overridden.forwarded.nodes =
      [⟨⟨"theme", "reference"⟩, []⟩, ⟨⟨"supports", "(gap: 1px)"⟩, []⟩,
        ⟨⟨"theme", ""⟩, [⟨"supports", "(gap: 1px)"⟩]⟩, ⟨⟨"theme", ""⟩, []⟩] := rfl
  have hopen : ∀ s ∈ allSpots [] overridden.forwarded.nodes, s.head.directive = .theme →
      ∀ h ∈ s.outer, h.directive = .media ∨ h.directive = .other := by
    rw [hspots]
    decide
  have hshown : ∃ h ∈ allHeads overridden.forwarded.nodes, h.isShownTheme = true :=
    ⟨⟨"theme", ""⟩, .tail _ (.tail _ (.head _)), by cbv⟩
  have hb : Text.escape "--b" = "--b" := by cbv
  have hd : Text.escape "--d" = "--d" := by cbv
  have hemitted : overridden.compiler.system.theme.emitted =
      [.rule ":root" [.decl (Text.escape "--b") "3px", .decl (Text.escape "--d") "5px"]] := rfl
  rw [hb, hd] at hemitted
  exact ⟨rfl, hopen, hemitted, (overridden.theme_emitted rfl hopen).2.2.2.2 hshown⟩

end UtilityCss
