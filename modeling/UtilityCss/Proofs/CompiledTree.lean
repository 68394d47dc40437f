import UtilityCss.Proofs.CollectWalk
import UtilityCss.Proofs.SystemShape

/-!
What compiling leaves in the tree. Nothing that runs after the directives have been collected puts
anything into the placeholder for the utilities, so in the compiled tree it has no children.
-/
namespace UtilityCss

/-! ### Modules -/

section Styles

variable {s : Shape}

mutual

theorem StyleValue.nodes_has : ∀ v : StyleValue, AllHave s v.nodes
  | .object entries => by
    rw [StyleValue.nodes]
    exact memberNodes_has entries
  | .list items => by
    rw [StyleValue.nodes]
    exact itemNodes_has items
  | .null => trivial
  | .bool _ => trivial
  | .integer _ => trivial
  | .decimal _ => trivial
  | .text _ => trivial

theorem itemNodes_has : ∀ items : List StyleValue, AllHave s (itemNodes items)
  | [] => trivial
  | v :: vs => by
    rw [itemNodes]
    exact allHave_append.2 ⟨StyleValue.nodes_has v, itemNodes_has vs⟩

theorem memberNodes_has : ∀ entries : List (String × StyleValue), AllHave s (memberNodes entries)
  | [] => trivial
  | (key, v) :: rest => by
    rw [memberNodes]
    exact allHave_append.2 ⟨StyleValue.nodesAt_has key v, memberNodes_has rest⟩

theorem StyleValue.nodesAt_has (key : String) : ∀ v : StyleValue, AllHave s (v.nodesAt key)
  | .null => trivial
  | .bool b => by
    rw [StyleValue.nodesAt]
    split
    · exact ⟨trivial, trivial⟩
    · trivial
  | .integer _ => ⟨trivial, trivial⟩
  | .decimal _ => ⟨trivial, trivial⟩
  | .text text => by
    rw [StyleValue.nodesAt]
    split
    · exact allHave_singleton.2 (Node.has_ofSelector key ⟨trivial, trivial⟩)
    · exact ⟨trivial, trivial⟩
  | .list items => by
    rw [StyleValue.nodesAt]
    exact itemNodesAt_has key items
  | .object entries => by
    rw [StyleValue.nodesAt]
    exact allHave_singleton.2 (Node.has_ofSelector key (memberNodes_has entries))

theorem itemNodesAt_has (key : String) :
    ∀ items : List StyleValue, AllHave s (itemNodesAt key items)
  | [] => trivial
  | v :: vs => by
    rw [itemNodesAt]
    exact allHave_append.2 ⟨StyleValue.nodesAt_has key v, itemNodesAt_has key vs⟩

end

end Styles

structure DesignSystem.Ready (s : Shape) (d : DesignSystem) : Prop where
  variants : d.variants.Extended
  has : d.Has s
  keyframes : AllHave s d.theme.keyframes

namespace DesignSystem.Ready

variable {s : Shape} {d d' : DesignSystem}

theorem ofTheme (hs : s.Uniform) {theme : Theme} (h : AllHave s theme.keyframes) :
    (ofTheme theme).Ready s :=
  ⟨extended_ofTheme theme, has_ofTheme hs theme, h⟩

theorem remember (h : d.Ready s) (important : Bool) (invalid : List String) :
    Ready s { d with important, invalid } :=
  ⟨h.variants, ⟨h.has.utilities, h.has.variants⟩, h.keyframes⟩

theorem addUtility (h : d.Ready s) (name : String) {u : Utility}
    (hu : ∀ c theme nodes, u.resolve c theme = some nodes → AllHave s nodes) :
    (d.addUtility name u).Ready s :=
  ⟨h.variants, h.has.addUtility name hu, h.keyframes⟩

theorem addBody (h : d.Ready s) (name : String) {body : List Node} (hbody : AllHave s body) :
    (d.addUtility name (.ofBody body)).Ready s := by
  refine h.addUtility name fun c theme nodes hnodes => ?_
  dsimp only [Utility.ofBody] at hnodes
  split at hnodes <;> cases hnodes
  exact hbody

theorem addVariant (hs : s.Uniform) (h : d.Ready s) (name : String) (variant : CustomVariant)
    (hvariant : ∀ nodes, variant = .body nodes → AllHave s nodes) :
    (d.addVariant name variant).Ready s where
  variants := h.variants.addVariant name variant
  has := by
    cases variant with
    | selectors selectors =>
      exact ⟨h.has.utilities, h.has.variants.ofSelectors hs name selectors⟩
    | body nodes =>
      exact ⟨h.has.utilities, h.has.variants.ofBody hs name (hvariant nodes rfl)⟩
  keyframes := by
    cases variant <;> exact h.keyframes

end DesignSystem.Ready

theorem Collected.system_of_none {c : Collected} (h : c.variants = []) :
    c.system false = DesignSystem.ofTheme c.theme := by
  have hsame : ∀ d : DesignSystem, d.important = false → { d with important := false } = d := by
    rintro ⟨theme, utilities, variants, important, invalid⟩ rfl
    rfl
  rw [Collected.system, h, List.foldl_nil]
  exact hsame _ rfl

theorem Collected.Has.ready {s : Shape} (hs : s.Uniform) {c : Collected} (h : c.Has s)
    (important : Bool) : (c.system important).Ready s := by
  have hstart := (DesignSystem.Ready.ofTheme hs h.keyframes).remember important []
  refine List.foldlRecOn (motive := DesignSystem.Ready s) c.variants _ hstart ?_
  intro d hd entry hentry
  exact hd.addVariant hs entry.1 entry.2 fun nodes heq => h.variants entry.1 nodes (heq ▸ hentry)

private theorem addToGroup_has {name : String} {nodes : List Node}
    {groups : List (String × List Node)}
    (hgroups : ∀ entry ∈ groups, AllHave .free entry.2) (hnodes : AllHave .free nodes) :
    ∀ entry ∈ addToGroup name nodes groups, AllHave .free entry.2 := by
  induction groups with
  | nil =>
    intro entry hentry
    rw [List.mem_singleton.1 hentry]
    exact hnodes
  | cons group rest ih =>
    have hrest := ih fun entry hentry => hgroups entry (List.mem_cons_of_mem _ hentry)
    have hgroup := hgroups group List.mem_cons_self
    intro entry hentry
    rw [addToGroup] at hentry
    split at hentry
    · rcases List.mem_cons.1 hentry with rfl | hentry
      · exact allHave_append.2 ⟨hgroup, hnodes⟩
      · exact hgroups entry (List.mem_cons_of_mem _ hentry)
    · rcases List.mem_cons.1 hentry with rfl | hentry
      · exact hgroup
      · exact hrest entry hentry

private theorem utilityMember_has {member : String × StyleValue} {entry : String × List Node}
    (h : utilityMember member = .ok entry) : AllHave .free entry.2 := by
  unfold utilityMember at h
  split at h
  · cases h
  · cases h
    dsimp only
    split
    · exact StyleValue.nodes_has member.2
    · exact allHave_singleton.2 (StyleValue.nodes_has member.2)

theorem Except.exists_of_mem_mapM {ε α β : Type} {f : α → Except ε β} {xs : List α} {ys : List β}
    (h : xs.mapM f = .ok ys) {y : β} (hy : y ∈ ys) : ∃ x ∈ xs, f x = .ok y := by
  induction xs generalizing ys with
  | nil =>
    cases h
    simp at hy
  | cons x xs ih =>
    rw [List.mapM_cons] at h
    obtain ⟨first, hfirst, h⟩ := Except.exists_of_bind h
    obtain ⟨rest, hrest, h⟩ := Except.exists_of_bind h
    cases h
    rcases List.mem_cons.1 hy with rfl | hy
    · exact ⟨x, List.mem_cons_self, hfirst⟩
    · obtain ⟨x', hx', hf⟩ := ih hrest hy
      exact ⟨x', List.mem_cons_of_mem _ hx', hf⟩

private theorem utilityGroups_has {styles : StyleValue} {groups : List (String × List Node)}
    (h : utilityGroups styles = .ok groups) : ∀ entry ∈ groups, AllHave .free entry.2 := by
  unfold utilityGroups at h
  split at h
  · obtain ⟨parts, hparts, h⟩ := Except.exists_of_bind h
    cases h
    refine List.foldlRecOn (motive := fun groups : List (String × List Node) =>
      ∀ entry ∈ groups, AllHave .free entry.2) parts _ (fun _ h => by simp at h) ?_
    intro groups hgroups part hpart
    obtain ⟨member, _, hmember⟩ := Except.exists_of_mem_mapM hparts hpart
    exact addToGroup_has hgroups (utilityMember_has hmember)
  · cases h

structure ModuleState.Ready (m : ModuleState) : Prop where
  system : m.system.Ready .free
  nodes : AllHave .sited m.nodes

namespace ModuleState.Ready

variable {m m' : ModuleState}

theorem run (h : m.Ready) {base : Path} {action : ModuleAction}
    (hrun : (action.run base m).result = .ok m') : m'.Ready := by
  cases action with
  | addUtilities styles =>
    obtain ⟨groups, hgroups, hrun⟩ := Traced.exists_of_bind hrun
    cases hrun
    refine ⟨?_, h.nodes⟩
    refine List.foldlRecOn (motive := DesignSystem.Ready .free) groups _ h.system ?_
    intro d hd entry hentry
    exact hd.addBody entry.1 (utilityGroups_has hgroups entry hentry)
  | addBase styles =>
    cases hrun
    exact ⟨h.system, allHave_append.2 ⟨h.nodes, allHave_singleton.2 (StyleValue.nodes_has styles)⟩⟩
  | addVariant name selectors =>
    cases hrun
    refine ⟨h.system.addVariant Shape.free_uniform name (.selectors selectors) ?_, h.nodes⟩
    exact fun _ heq => (nomatch heq)
  | matchValues v =>
    cases hrun
    refine ⟨h.system.addUtility v.name fun c theme nodes hnodes => ?_, h.nodes⟩
    obtain ⟨value, _, hvalue⟩ := Option.bind_eq_some_iff.1 hnodes
    unfold ValueStyles.nodes? at hvalue
    split at hvalue <;> cases hvalue
    exact StyleValue.nodes_has _
  | lookUpTheme path | prefixClass className | tellBase | askVariant name =>
    obtain ⟨_, _, hrun⟩ := Traced.exists_of_bind hrun
    cases hrun
    exact h
  | fail message => cases hrun

private theorem runAll (h : m.Ready) {base : Path} {actions : List ModuleAction}
    (hrun : (actions.foldlM (ModuleAction.run base) m).result = .ok m') : m'.Ready := by
  induction actions generalizing m with
  | nil =>
    cases hrun
    exact h
  | cons action actions ih =>
    rw [List.foldlM_cons] at hrun
    obtain ⟨next, hnext, hrun⟩ := Traced.exists_of_bind hrun
    exact ih (h.run hnext) hrun

theorem modules (h : m.Ready) {loader : Option ModuleLoader} {requests : List ModuleRequest}
    {cache : ModuleCache} (hrun : (runModules loader requests cache m).result = .ok m') :
    m'.Ready := by
  induction requests generalizing cache m with
  | nil =>
    cases hrun
    exact h
  | cons request rest ih =>
    unfold runModules at hrun
    split at hrun
    · cases hrun
    · obtain ⟨⟨loaded, next⟩, _, hrun⟩ := Traced.exists_of_bind hrun
      obtain ⟨m₁, hm₁, hrun⟩ := Traced.exists_of_bind hrun
      exact ih (h.runAll hm₁) hrun

end ModuleState.Ready

/-! ### Expanding -/

section Expanding

variable {r s : Shape} {d d' : DesignSystem}

theorem Node.Has.unwrapClass {node : Node} (h : node.Has s) : AllHave s node.unwrapClass := by
  unfold Node.unwrapClass
  split
  · split
    · exact h
    · exact allHave_singleton.2 h
  · exact allHave_singleton.2 h

theorem DesignSystem.Has.expandApply (hs : s.Uniform) (h : d.Has s) {params : String}
    {nodes : List Node} (hexpand : (d.expandApply params).result = .ok nodes) :
    AllHave s nodes := by
  unfold DesignSystem.expandApply at hexpand
  obtain ⟨_, _, hexpand⟩ := Traced.exists_of_bind hexpand
  split at hexpand
  · cases hexpand
  · cases hexpand
    have hrules : AllHave s ((d.generate (splitApplyImportant (Text.words params)).1).rules.flatMap
        Node.unwrapClass) :=
      allHave_flatMap fun node hnode =>
        (allHave_iff.1 (h.generate hs _) node hnode).unwrapClass
    split
    · exact hrules.markAllImportant
    · exact hrules

mutual

theorem Node.Has.substituteApply (hr : r.Uniform) (hs : r.Le s) (hd : d.Has r) :
    ∀ {node : Node} {nodes : List Node}, node.Has s →
      (node.substituteApply d).result = .ok nodes → AllHave s nodes
  | .atRule name params children, nodes, h, heq => by
    rw [Node.substituteApply] at heq
    split at heq
    · cases heq
      exact allHave_singleton.2 h
    · exact (hd.expandApply hr heq).mono hs
    · obtain ⟨children', hchildren, heq⟩ := Traced.exists_of_bind heq
      cases heq
      exact allHave_singleton.2 (AllHave.substituteAllApply hr hs hd h hchildren)
  | .rule selector children, nodes, h, heq => by
    rw [Node.substituteApply] at heq
    obtain ⟨children', hchildren, heq⟩ := Traced.exists_of_bind heq
    cases heq
    exact allHave_singleton.2 (AllHave.substituteAllApply hr hs hd h hchildren)
  | .context entries children, nodes, h, heq => by
    rw [Node.substituteApply] at heq
    obtain ⟨children', hchildren, heq⟩ := Traced.exists_of_bind heq
    cases heq
    refine allHave_singleton.2 ⟨h.1.replace ?_, AllHave.substituteAllApply hr hs hd h.2 hchildren⟩
    rintro rfl
    cases hchildren
    rfl
  | .atRoot children, nodes, h, heq => by
    rw [Node.substituteApply] at heq
    obtain ⟨children', hchildren, heq⟩ := Traced.exists_of_bind heq
    cases heq
    exact allHave_singleton.2 ⟨h.1, AllHave.substituteAllApply hr hs hd h.2 hchildren⟩
  | .declaration property value important, nodes, h, heq => by
    rw [Node.substituteApply] at heq
    cases heq
    exact allHave_singleton.2 h
  | .comment text, nodes, h, heq => by
    rw [Node.substituteApply] at heq
    cases heq
    exact allHave_singleton.2 h

theorem AllHave.substituteAllApply (hr : r.Uniform) (hs : r.Le s) (hd : d.Has r) :
    ∀ {nodes nodes' : List Node}, AllHave s nodes →
      (substituteAllApply d nodes).result = .ok nodes' → AllHave s nodes'
  | [], nodes', h, heq => by
    rw [UtilityCss.substituteAllApply] at heq
    cases heq
    exact h
  | n :: ns, nodes', h, heq => by
    rw [UtilityCss.substituteAllApply] at heq
    obtain ⟨first, hfirst, heq⟩ := Traced.exists_of_bind heq
    obtain ⟨rest, hrest, heq⟩ := Traced.exists_of_bind heq
    cases heq
    exact allHave_append.2 ⟨Node.Has.substituteApply hr hs hd h.1 hfirst,
      AllHave.substituteAllApply hr hs hd h.2 hrest⟩

end

theorem DesignSystem.Ready.defineUtility (hs : s.Uniform) (h : d.Ready s) {name : String}
    {body : List Node} (hbody : AllHave s body)
    (hdefine : (d.defineUtility name body).result = .ok d') : d'.Ready s := by
  obtain ⟨expanded, hexpanded, hdefine⟩ := Traced.exists_of_bind hdefine
  cases hdefine
  exact h.addBody name (AllHave.substituteAllApply hs (Shape.Le.refl s) h.has hbody hexpanded)

theorem DesignSystem.theme_defineUtility {name : String} {body : List Node}
    (hdefine : (d.defineUtility name body).result = .ok d') : d'.theme = d.theme := by
  obtain ⟨expanded, hexpanded, hdefine⟩ := Traced.exists_of_bind hdefine
  cases hdefine
  rfl

theorem Traced.foldlM_keeps {α σ : Type} {step : σ → α → Traced σ} {motive : σ → Prop}
    {xs : List α} {s s' : σ} (h : motive s)
    (hstep : ∀ x ∈ xs, ∀ s s', motive s → (step s x).result = .ok s' → motive s')
    (hrun : (xs.foldlM step s).result = .ok s') : motive s' := by
  induction xs generalizing s with
  | nil =>
    cases hrun
    exact h
  | cons x xs ih =>
    rw [List.foldlM_cons] at hrun
    obtain ⟨next, hnext, hrun⟩ := Traced.exists_of_bind hrun
    rw [List.forall_mem_cons] at hstep
    exact ih (hstep.1 s next h hnext) hstep.2 hrun

theorem DesignSystem.defineUtilities_keeps {motive : DesignSystem → Prop}
    {pending : List (String × List Node)} (h : motive d)
    (hstep : ∀ entry ∈ pending, ∀ d d', motive d →
      (d.defineUtility entry.1 entry.2).result = .ok d' → motive d')
    (hdefine : (d.defineUtilities pending).result = .ok d') : motive d' := by
  -- each round leaves fewer utilities waiting
  induction hlength : pending.length using Nat.strongRecOn generalizing d pending with
  | ind n ih =>
    unfold DesignSystem.defineUtilities at hdefine
    cases pending with
    | nil =>
      cases hdefine
      exact h
    | cons entry rest =>
      dsimp only at hdefine
      split at hdefine
      · cases hdefine
      next hready =>
        obtain ⟨next, hnext, hdefine⟩ := Traced.exists_of_bind hdefine
        have hpart : ∀ p : String × List Node → Bool, ∀ e ∈ (entry :: rest).filter p, ∀ d d',
            motive d → (d.defineUtility e.1 e.2).result = .ok d' → motive d' :=
          fun p e he => hstep e (List.mem_filter.1 he).1
        refine ih _ ?_ (Traced.foldlM_keeps h (hpart _) hnext) (hpart _) hdefine rfl
        rw [← hlength]
        exact length_filter_not_lt hready

theorem DesignSystem.Ready.defineUtilities (hs : s.Uniform) (h : d.Ready s)
    {pending : List (String × List Node)} (hpending : ∀ entry ∈ pending, AllHave s entry.2)
    (hdefine : (d.defineUtilities pending).result = .ok d') : d'.Ready s :=
  defineUtilities_keeps h
    (fun entry hentry _ _ hd => hd.defineUtility hs (hpending entry hentry)) hdefine

mutual

theorem Node.Has.expandCalls {t : Theme} : ∀ {node node' : Node}, node.Has s →
    node.expandCalls t = .ok node' → node'.Has s
  | .declaration property none important, node', h, heq => by
    rw [Node.expandCalls] at heq
    cases heq
    exact h
  | .declaration property (some value) important, node', h, heq => by
    rw [Node.expandCalls] at heq
    obtain ⟨value', _, heq⟩ := Except.exists_of_bind heq
    cases heq
    exact trivial
  | .atRule name params nodes, node', h, heq => by
    rw [Node.expandCalls] at heq
    dsimp only at heq
    split at heq
    all_goals
      obtain ⟨params', _, heq⟩ := Except.exists_of_bind heq
      obtain ⟨nodes', hnodes', heq⟩ := Except.exists_of_bind heq
      cases heq
      exact AllHave.expandAllCalls h hnodes'
  | .rule selector nodes, node', h, heq => by
    rw [Node.expandCalls] at heq
    obtain ⟨nodes', hnodes', rfl⟩ := Except.exists_of_map heq
    exact AllHave.expandAllCalls h hnodes'
  | .context entries nodes, node', h, heq => by
    rw [Node.expandCalls] at heq
    obtain ⟨nodes', hnodes', rfl⟩ := Except.exists_of_map heq
    refine ⟨h.1.replace ?_, AllHave.expandAllCalls h.2 hnodes'⟩
    rintro rfl
    cases hnodes'
    rfl
  | .atRoot nodes, node', h, heq => by
    rw [Node.expandCalls] at heq
    obtain ⟨nodes', hnodes', rfl⟩ := Except.exists_of_map heq
    exact ⟨h.1, AllHave.expandAllCalls h.2 hnodes'⟩
  | .comment text, node', h, heq => by
    rw [Node.expandCalls] at heq
    cases heq
    exact h

theorem AllHave.expandAllCalls {t : Theme} : ∀ {nodes nodes' : List Node}, AllHave s nodes →
    expandAllCalls t nodes = .ok nodes' → AllHave s nodes'
  | [], nodes', h, heq => by
    rw [UtilityCss.expandAllCalls] at heq
    cases heq
    exact h
  | n :: ns, nodes', h, heq => by
    rw [UtilityCss.expandAllCalls] at heq
    obtain ⟨first, hfirst, heq⟩ := Except.exists_of_bind heq
    obtain ⟨rest, hrest, heq⟩ := Except.exists_of_bind heq
    cases heq
    exact ⟨Node.Has.expandCalls h.1 hfirst, AllHave.expandAllCalls h.2 hrest⟩

end

end Expanding

/-! ### The compiled stylesheet -/

theorem Theme.nodes_has {s : Shape} {t : Theme} (hs : s.hoist) (h : AllHave s t.keyframes) :
    AllHave s t.nodes := by
  have hdeclarations : AllHave s t.declarations := by
    rw [allHave_iff]
    intro n hn
    obtain ⟨entry, _, rfl⟩ := List.mem_map.1 hn
    exact trivial
  have hkeyframes : AllHave s t.referencedKeyframes := by
    rw [allHave_iff]
    intro n hn
    exact allHave_iff.1 h n (List.mem_filter.1 hn).1
  unfold Theme.nodes
  refine allHave_append.2 ⟨?_, ?_⟩
  · split
    · trivial
    · exact allHave_singleton.2 hdeclarations
  · split
    · trivial
    · exact allHave_singleton.2 ⟨hs, hkeyframes⟩

private theorem placeTheme_has {t : Theme} {nodes : List Node} (ht : AllHave .free t.keyframes)
    (h : AllHave .sited nodes) : AllHave .sited (placeTheme t nodes) := by
  unfold placeTheme
  split
  · exact h
  next address haddress =>
    obtain ⟨target, hget, hplaceholder⟩ := Address.get?_of_find? haddress
    refine Address.has_modify h fun node hnode => ?_
    rw [hget] at hnode
    cases hnode
    have htarget := Address.has_of_get? h hget
    cases target with
    | context entries inner =>
      have hfree : entries.lookup utilitiesKey = none := by
        rcases htarget.1.bare with hfree | htheme
        · exact hfree
        · simp [Node.isPlaceholder, htheme] at hplaceholder
      have hnodes : AllHave .sited t.nodes := Theme.nodes_has trivial (ht.mono Shape.free_le_sited)
      refine ⟨?_, allHave_append.2 ⟨htarget.2, hnodes⟩⟩
      unfold Shape.Allows
      split
      · exact .inl hfree
      · exact hfree
    | _ => simp [Node.isPlaceholder] at hplaceholder

structure Compiler.Ready (c : Compiler) : Prop where
  variants : c.system.variants.Extended
  tree : AllHave .sited c.tree
  site : c.site = Address.find? (Node.isPlaceholder utilitiesKey) c.tree
  css : c.css = toCss c.tree
  candidates : c.candidates = []
  ruleCount : c.ruleCount = 0

theorem compile_ready {css : String} {options : CompileOptions} {c : Compiler}
    (h : (compile css options).result = .ok c) : c.Ready := by
  obtain ⟨parsed, hparsed, h⟩ := Traced.exists_of_bind h
  obtain ⟨spliced, hspliced, h⟩ := Traced.exists_of_bind h
  obtain ⟨forwarded, hforwarded, h⟩ := Traced.exists_of_bind h
  obtain ⟨⟨nodes, collected⟩, hcollected, h⟩ := Traced.exists_of_bind h
  obtain ⟨m, hm, h⟩ := Traced.exists_of_bind h
  obtain ⟨system, hsystem, h⟩ := Traced.exists_of_bind h
  obtain ⟨applied, happlied, h⟩ := Traced.exists_of_bind h
  obtain ⟨expanded, hexpanded, h⟩ := Traced.exists_of_bind h
  cases h
  have hs := Shape.free_uniform
  have hspliced := spliceFrom_has hs (fun _ => rfl) (parse_has hparsed) hspliced
  have hforwarded := AllHave.forwardAllOptions hs hspliced hforwarded
  have hnodes := collect_sited hforwarded hcollected
  have hcollected := collect_has hforwarded hcollected
  have hm := ModuleState.Ready.modules ⟨hcollected.ready hs forwarded.important, hnodes⟩ hm
  have hsystem := hm.system.defineUtilities hs hcollected.utilities hsystem
  have happlied := AllHave.substituteAllApply hs Shape.free_le_sited hsystem.has hm.nodes happlied
  have hnone : AllHave .sited [] := trivial
  have hexpanded := AllHave.expandAllCalls (happlied.replaceDirective hnone) hexpanded
  exact ⟨hsystem.variants, placeTheme_has hsystem.keyframes hexpanded, rfl, rfl, rfl, rfl⟩

theorem Compiler.Ready.site_empty {c : Compiler} (h : c.Ready) {address : Address}
    (hsite : c.site = some address) :
    ∃ entries, address.get? c.tree = some (.context entries []) ∧
      (entries.lookup utilitiesKey).isSome := by
  obtain ⟨target, hget, hplaceholder⟩ := Address.get?_of_find? (h.site ▸ hsite)
  have htarget := Address.has_of_get? h.tree hget
  cases target with
  | context entries inner =>
    cases inner with
    | nil => exact ⟨entries, hget, hplaceholder⟩
    | cons n ns =>
      have hfree : entries.lookup utilitiesKey = none := htarget.1
      simp [Node.isPlaceholder, hfree] at hplaceholder
  | _ => simp [Node.isPlaceholder] at hplaceholder

end UtilityCss
