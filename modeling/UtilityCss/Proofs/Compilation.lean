import UtilityCss.Proofs.IncrementalBuild

/-!
The stages of a compilation. A stylesheet is accepted if every stage succeeds; what the stages came
to is kept here, so that properties of the compiled tree can be told from the trees it was made of.
-/
namespace UtilityCss

theorem Collected.theme_system (c : Collected) (important : Bool) :
    (c.system important).theme = c.theme := by
  refine List.foldlRecOn (motive := fun d : DesignSystem => d.theme = c.theme) c.variants _ rfl ?_
  rintro d hd ⟨name, variant⟩ _
  cases variant <;> exact hd

/-- What is true of a design system stays so when a module or a stylesheet registers more with it.
-/
structure DesignSystem.Lasting (motive : DesignSystem → Prop) : Prop where
  body : ∀ d name body, motive d → motive (d.addUtility name (.ofBody body))
  values : ∀ d (v : ValueStyles), motive d → motive (d.addUtility v.name v.utility)
  selectors : ∀ d name selectors, motive d → motive (d.addVariant name (.selectors selectors))

namespace DesignSystem.Lasting

variable {motive : DesignSystem → Prop}

theorem run (h : Lasting motive) {base : Path} {s s' : ModuleState} {action : ModuleAction}
    (hs : motive s.system) (hrun : (action.run base s).result = .ok s') : motive s'.system := by
  cases action with
  | addUtilities styles =>
    obtain ⟨groups, _, hrun⟩ := Traced.exists_of_bind hrun
    cases hrun
    apply List.foldlRecOn (motive := motive) groups _ hs
    intro d hd entry _
    exact h.body d entry.1 entry.2 hd
  | addBase styles =>
    cases hrun
    exact hs
  | addVariant name selectors =>
    cases hrun
    exact h.selectors s.system name selectors hs
  | matchValues v =>
    cases hrun
    exact h.values s.system v hs
  | lookUpTheme path | prefixClass className | tellBase | askVariant name =>
    obtain ⟨_, _, hrun⟩ := Traced.exists_of_bind hrun
    cases hrun
    exact hs
  | fail message => cases hrun

theorem runModules (h : Lasting motive) {loader : Option ModuleLoader}
    {requests : List ModuleRequest}
    {cache : ModuleCache} {s s' : ModuleState} (hs : motive s.system)
    (hrun : (runModules loader requests cache s).result = .ok s') : motive s'.system := by
  induction requests generalizing cache s with
  | nil =>
    cases hrun
    exact hs
  | cons request rest ih =>
    unfold UtilityCss.runModules at hrun
    split at hrun
    · cases hrun
    · obtain ⟨⟨loaded, next⟩, _, hrun⟩ := Traced.exists_of_bind hrun
      obtain ⟨m, hm, hrun⟩ := Traced.exists_of_bind hrun
      refine ih ?_ hrun
      exact Traced.foldlM_keeps (motive := fun m => motive m.system) hs
        (fun _ _ _ _ hkept haction => h.run hkept haction) hm

theorem defineUtilities (h : Lasting motive) {d d' : DesignSystem}
    {pending : List (String × List Node)}
    (hd : motive d) (hdefine : (d.defineUtilities pending).result = .ok d') : motive d' := by
  refine defineUtilities_keeps hd ?_ hdefine
  intro entry _ d₁ d₂ hkept hnext
  obtain ⟨expanded, _, hnext⟩ := Traced.exists_of_bind hnext
  cases hnext
  exact h.body d₁ entry.1 expanded hkept

end DesignSystem.Lasting

/-- A successful run of the compiler, stage by stage. -/
structure Compilation (css : String) (options : CompileOptions) where
  parsed : List Node
  spliced : List Node
  forwarded : Forwarded
  /-- the tree that the directives were collected from, without them -/
  nodes : List Node
  collected : Collected
  /-- the design system and the tree behind the modules -/
  modules : ModuleState
  system : DesignSystem
  /-- the tree with the class names expanded -/
  applied : List Node
  /-- the tree with the theme calls expanded -/
  expanded : List Node
  parse_eq : parse css = .ok parsed
  splice_eq : substituteImports options.sheets options.base parsed = .ok spliced
  forward_eq : forwardMediaOptions spliced = .ok forwarded
  collect_eq : collect options.base forwarded.nodes = .ok (nodes, collected)
  modules_eq : (runModules options.modules collected.modules {}
    ⟨collected.system forwarded.important, nodes⟩).result = .ok modules
  system_eq : (modules.system.defineUtilities collected.utilities).result = .ok system
  apply_eq : (substituteAllApply system modules.nodes).result = .ok applied
  expand_eq : expandAllCalls system.theme (replaceDirective .utility [] applied) = .ok expanded

namespace Compilation

variable {css : String} {options : CompileOptions}

def compiler (r : Compilation css options) : Compiler :=
  let tree := placeTheme r.system.theme r.expanded
  { tree
    system := r.system
    globs := r.collected.globs
    site := Address.find? (Node.isPlaceholder utilitiesKey) tree
    css := toCss tree }

theorem compile_eq (r : Compilation css options) :
    (compile css options).result = .ok r.compiler := by
  simp only [compile, Traced.result_bind, Traced.ofExcept, r.parse_eq, r.splice_eq, r.forward_eq,
    r.collect_eq, r.modules_eq, r.system_eq, r.apply_eq, r.expand_eq, Except.bind]
  rfl

theorem compile_iff {c : Compiler} :
    (compile css options).result = .ok c ↔ ∃ r : Compilation css options, r.compiler = c := by
  refine ⟨fun h => ?_, fun ⟨r, hr⟩ => hr ▸ r.compile_eq⟩
  obtain ⟨parsed, hparsed, h⟩ := Traced.exists_of_bind h
  obtain ⟨spliced, hspliced, h⟩ := Traced.exists_of_bind h
  obtain ⟨forwarded, hforwarded, h⟩ := Traced.exists_of_bind h
  obtain ⟨⟨nodes, collected⟩, hcollected, h⟩ := Traced.exists_of_bind h
  obtain ⟨m, hm, h⟩ := Traced.exists_of_bind h
  obtain ⟨system, hsystem, h⟩ := Traced.exists_of_bind h
  obtain ⟨applied, happlied, h⟩ := Traced.exists_of_bind h
  obtain ⟨expanded, hexpanded, h⟩ := Traced.exists_of_bind h
  exact ⟨⟨parsed, spliced, forwarded, nodes, collected, m, system, applied, expanded, hparsed,
    hspliced, hforwarded, hcollected, hm, hsystem, happlied, hexpanded⟩, Except.ok.inj h⟩

/-- The run on a stylesheet without imports, options, modules and utilities of its own, in which no
class name is applied. -/
def plain (parsed nodes expanded : List Node) (collected : Collected)
    (hparse : parse css = .ok parsed)
    (hsplice : substituteImports options.sheets options.base parsed = .ok parsed)
    (hforward : forwardMediaOptions parsed = .ok ⟨parsed, false⟩)
    (hcollect : collect options.base parsed = .ok (nodes, collected))
    (hmodules : collected.modules = []) (hutilities : collected.utilities = [])
    (happly : (substituteAllApply (collected.system false) nodes).result = .ok nodes)
    (hexpand : expandAllCalls (collected.system false).theme (replaceDirective .utility [] nodes) =
      .ok expanded) : Compilation css options where
  parsed
  spliced := parsed
  forwarded := ⟨parsed, false⟩
  nodes
  collected
  modules := ⟨collected.system false, nodes⟩
  system := collected.system false
  applied := nodes
  expanded
  parse_eq := hparse
  splice_eq := hsplice
  forward_eq := hforward
  collect_eq := hcollect
  modules_eq := by
    rw [hmodules]
    rfl
  system_eq := by
    rw [hutilities, DesignSystem.defineUtilities]
    rfl
  apply_eq := happly
  expand_eq := hexpand

theorem modules_of_none (r : Compilation css options) (h : r.collected.modules = []) :
    r.modules = ⟨r.collected.system r.forwarded.important, r.nodes⟩ := by
  have heq := r.modules_eq
  rw [h] at heq
  exact (Except.ok.inj heq).symm

theorem theme_system (r : Compilation css options) (h : r.collected.modules = []) :
    r.system.theme = r.collected.theme := by
  have hdefine := r.system_eq
  rw [r.modules_of_none h] at hdefine
  refine DesignSystem.defineUtilities_keeps (motive := fun d => d.theme = r.collected.theme)
    (r.collected.theme_system r.forwarded.important) ?_ hdefine
  intro entry _ d d' hd hnext
  exact (DesignSystem.theme_defineUtility hnext).trans hd

theorem system_of_lasting (r : Compilation css options) {motive : DesignSystem → Prop}
    (h : DesignSystem.Lasting motive)
    (hstart : motive (r.collected.system r.forwarded.important)) : motive r.system :=
  h.defineUtilities (h.runModules hstart r.modules_eq) r.system_eq

theorem tree_buildAll (r : Compilation css options) (batches : List (List String)) :
    (r.compiler.buildAll batches).tree = r.compiler.placed batches.flatten := by
  have hready := compile_ready r.compile_eq
  exact (hready.tracks.buildAll hready.variants batches).tree

theorem css_buildAll (r : Compilation css options) (batches : List (List String)) :
    (r.compiler.buildAll batches).css = toCss (r.compiler.buildAll batches).tree := by
  have hready := compile_ready r.compile_eq
  have htracks := hready.tracks.buildAll hready.variants batches
  rw [htracks.tree]
  exact htracks.css

end Compilation

/-! ### What utilities look at -/

/-- The declarations depend on the base of a class name, not on its variants, its mark or its text.
-/
def Utility.ReadsBase (u : Utility) : Prop :=
  ∀ (c : Candidate) variants important raw theme,
    u.resolve { c with variants, important, raw } theme = u.resolve c theme

theorem Utility.builtin_readBase :
    ∀ entry ∈ UtilityRegistry.builtin.definitions, entry.2.ReadsBase := by
  have hbuiltin : ∀ entry ∈ UtilityRegistry.builtin.definitions,
      (fun (c : Candidate) variants important raw =>
        entry.2.resolve { c with variants, important, raw }) =
          fun c _ _ _ => entry.2.resolve c := by
    simp only [UtilityRegistry.builtin, List.forall_mem_append]
    refine ⟨⟨⟨⟨⟨?_, ?_⟩, ?_⟩, ?_⟩, ?_⟩, ?_⟩
    all_goals exact List.map_inj_left.1 rfl
  intro entry hentry c variants important raw theme
  have hentry := congrFun (congrFun (hbuiltin entry hentry) c) variants
  exact congrFun (congrFun (congrFun hentry important) raw) theme

theorem Compilation.utilities_readBase {css : String} {options : CompileOptions}
    (r : Compilation css options) :
    ∀ entry ∈ r.system.utilities.definitions, entry.2.ReadsBase := by
  have hadd : ∀ (d : DesignSystem) name (u : Utility), u.ReadsBase →
      (∀ entry ∈ d.utilities.definitions, entry.2.ReadsBase) →
        ∀ entry ∈ (d.addUtility name u).utilities.definitions, entry.2.ReadsBase :=
    fun d name u hu hd => List.forall_mem_append.2 ⟨hd, List.forall_mem_singleton.2 hu⟩
  refine r.system_of_lasting
    (motive := fun d => ∀ entry ∈ d.utilities.definitions, entry.2.ReadsBase)
    ⟨fun d name body => hadd d name _ fun _ _ _ _ _ => rfl,
      fun d v => hadd d v.name _ fun _ _ _ _ _ => rfl, fun d name selectors hd => hd⟩ ?_
  refine List.foldlRecOn (motive := fun d : DesignSystem =>
    ∀ entry ∈ d.utilities.definitions, entry.2.ReadsBase) r.collected.variants _
      Utility.builtin_readBase ?_
  rintro d hd ⟨name, variant⟩ _
  cases variant <;> exact hd

end UtilityCss
