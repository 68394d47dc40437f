import UtilityCss.Proofs.CollectWalk
import UtilityCss.Proofs.ImportChain
import UtilityCss.Proofs.MediaOptions

/-!
Directives that name files. Each keeps the directory of the stylesheet it is written in: the
contexts that splicing puts around imported stylesheets survive the handing on of options, and
collecting refuses a directive that does not stand at the root. So what is collected is what stands
at the roots of the entry and of the imported stylesheets.
-/
namespace UtilityCss

def Directive.namesFiles : Directive → Bool
  | .source | .plugin | .config => true
  | _ => false

structure FileDirective where
  directive : Directive
  base : Path
  params : String

namespace FileDirective

def argument? (w : FileDirective) : Option String :=
  Text.unquote? (Text.trim w.params)

def glob? (w : FileDirective) : Option Glob :=
  w.argument?.map fun pattern => ⟨w.base, pattern⟩

def kind? (w : FileDirective) : Option ModuleKind :=
  match w.directive with
  | .plugin => some .plugin
  | .config => some .config
  | _ => none

def request? (w : FileDirective) : Option ModuleRequest :=
  w.kind?.bind fun kind => w.argument?.map fun id => ⟨id, w.base, kind⟩

end FileDirective

def baseInside (base : Path) (entries : List (String × String)) : Path :=
  ((entries.lookup "base").map Path.mk).getD base

mutual

/-- The directives that name files at the root of a stylesheet. A media query of options alone
counts as unwrapped if it is read. -/
def Node.rootFiles (reading : Bool) (base : Path) : Node → List FileDirective
  | .atRule name params nodes =>
    if (Directive.ofName name).namesFiles then [⟨.ofName name, base, params⟩]
    else if reading && AtHead.isOptionsOnly ⟨name, params⟩ then allRootFiles false base nodes
    else []
  | .context entries nodes => allRootFiles reading (baseInside base entries) nodes
  | .rule .. => []
  | .atRoot _ => []
  | .declaration .. => []
  | .comment _ => []

def allRootFiles (reading : Bool) (base : Path) : List Node → List FileDirective
  | [] => []
  | n :: ns => n.rootFiles reading base ++ allRootFiles reading base ns

end

mutual

/-- The directives that name files in a stylesheet and in those it imports, in document order, each
with the directory of the stylesheet it is written in. -/
def ImportTree.files (base : Path) : ImportTree → List FileDirective
  | .kept node => node.rootFiles true base
  | .sheet _ sheet _ trees => filesOf sheet.base trees

def filesOf (base : Path) : List ImportTree → List FileDirective
  | [] => []
  | tree :: trees => tree.files base ++ filesOf base trees

end

/-! ### What collecting comes to -/

structure MetFile where
  file : FileDirective
  isRoot : Bool

mutual

def Node.metFiles (reading : Bool) (base : Path) (isRoot : Bool) : Node → List MetFile
  | .atRule name params nodes =>
    if (Directive.ofName name).namesFiles then [⟨⟨.ofName name, base, params⟩, isRoot⟩]
    else if reading && AtHead.isOptionsOnly ⟨name, params⟩ then allMetFiles false base isRoot nodes
    else if (Directive.ofName name).isEntered params then allMetFiles reading base false nodes
    else []
  | .context entries nodes => allMetFiles reading (baseInside base entries) isRoot nodes
  | .rule _ nodes => allMetFiles reading base false nodes
  | .atRoot nodes => allMetFiles reading base false nodes
  | .declaration .. => []
  | .comment _ => []

def allMetFiles (reading : Bool) (base : Path) (isRoot : Bool) : List Node → List MetFile
  | [] => []
  | n :: ns => n.metFiles reading base isRoot ++ allMetFiles reading base isRoot ns

end

theorem allMetFiles_append (reading : Bool) (base : Path) (isRoot : Bool) (ns ms : List Node) :
    allMetFiles reading base isRoot (ns ++ ms) =
      allMetFiles reading base isRoot ns ++ allMetFiles reading base isRoot ms := by
  induction ns with
  | nil => rfl
  | cons n ns ih => rw [List.cons_append, allMetFiles, allMetFiles, ih, List.append_assoc]

theorem allMetFiles_singleton (reading : Bool) (base : Path) (isRoot : Bool) (n : Node) :
    allMetFiles reading base isRoot [n] = n.metFiles reading base isRoot := by
  rw [allMetFiles, allMetFiles, List.append_nil]

mutual

theorem Node.isRoot_metFiles (reading : Bool) (base : Path) :
    ∀ node : Node, ∀ m ∈ node.metFiles reading base false, m.isRoot = false
  | .atRule name params nodes => by
    rw [Node.metFiles]
    split
    · simp
    split
    · exact isRoot_allMetFiles false base nodes
    split
    · exact isRoot_allMetFiles reading base nodes
    · simp
  | .context entries nodes => isRoot_allMetFiles reading (baseInside base entries) nodes
  | .rule _ nodes => isRoot_allMetFiles reading base nodes
  | .atRoot nodes => isRoot_allMetFiles reading base nodes
  | .declaration .. => by simp [Node.metFiles]
  | .comment _ => by simp [Node.metFiles]

theorem isRoot_allMetFiles (reading : Bool) (base : Path) :
    ∀ nodes : List Node, ∀ m ∈ allMetFiles reading base false nodes, m.isRoot = false
  | [] => by simp [allMetFiles]
  | n :: ns => by
    rw [allMetFiles, List.forall_mem_append]
    exact ⟨Node.isRoot_metFiles reading base n, isRoot_allMetFiles reading base ns⟩

end

private theorem isEntered_of_isOptionsOnly {name params : String}
    (h : AtHead.isOptionsOnly ⟨name, params⟩ = true) :
    (Directive.ofName name).isEntered params = true := by
  have hname : Directive.ofName name = .media := by
    simp only [AtHead.isOptionsOnly, Bool.and_eq_true, beq_iff_eq] at h
    exact h.1.1
  rw [hname]
  rfl

structure Between (files : List FileDirective) (met : List MetFile) : Prop where
  lower : ((met.filter MetFile.isRoot).map MetFile.file).Sublist files
  upper : files.Sublist (met.map MetFile.file)

namespace Between

variable {files files' : List FileDirective} {met met' : List MetFile}

theorem append (h : Between files met) (h' : Between files' met') :
    Between (files ++ files') (met ++ met') where
  lower := by
    rw [List.filter_append, List.map_append]
    exact h.lower.append h'.lower
  upper := by
    rw [List.map_append]
    exact h.upper.append h'.upper

theorem nil (h : ∀ m ∈ met, m.isRoot = false) : Between [] met where
  lower := by
    rw [List.filter_eq_nil_iff.2 fun m hm => by simp [h m hm]]
    exact .slnil
  upper := List.nil_sublist _

end Between

mutual

/-- A query that counts as unwrapped but is not read is met as something else, so it can only add
what does not stand at the root. -/
theorem Node.between_rootFiles {reading unwrapping : Bool} (h : reading = true → unwrapping = true)
    (base : Path) (isRoot : Bool) :
    ∀ node : Node, Between (node.rootFiles unwrapping base) (node.metFiles reading base isRoot)
  | .atRule name params nodes => by
    rw [Node.rootFiles, Node.metFiles]
    split
    · cases isRoot
      · exact ⟨List.nil_sublist _, .refl _⟩
      · exact ⟨.refl _, .refl _⟩
    split
    next hunwrapped =>
      obtain ⟨-, honly⟩ := (Bool.and_eq_true _ _).mp hunwrapped
      have hentered := isEntered_of_isOptionsOnly honly
      rw [honly, hentered, Bool.and_true, if_pos rfl]
      cases reading
      · exact between_allRootFiles (fun h => h) base false nodes
      · exact between_allRootFiles (fun h => h) base isRoot nodes
    next hkept =>
      have hkept : ¬(reading && AtHead.isOptionsOnly ⟨name, params⟩) = true := by
        intro hread
        obtain ⟨hreading, honly⟩ := (Bool.and_eq_true _ _).mp hread
        exact hkept (by rw [h hreading, honly]; rfl)
      rw [if_neg hkept]
      split
      · exact .nil (isRoot_allMetFiles reading base nodes)
      · exact .nil (by simp)
  | .context entries nodes => between_allRootFiles h (baseInside base entries) isRoot nodes
  | .rule _ nodes => .nil (isRoot_allMetFiles reading base nodes)
  | .atRoot nodes => .nil (isRoot_allMetFiles reading base nodes)
  | .declaration .. => .nil (by simp [Node.metFiles])
  | .comment _ => .nil (by simp [Node.metFiles])

theorem between_allRootFiles {reading unwrapping : Bool} (h : reading = true → unwrapping = true)
    (base : Path) (isRoot : Bool) :
    ∀ nodes : List Node,
      Between (allRootFiles unwrapping base nodes) (allMetFiles reading base isRoot nodes)
  | [] => .nil (by simp [allMetFiles])
  | n :: ns => by
    rw [allRootFiles, allMetFiles]
    exact (Node.between_rootFiles h base isRoot n).append (between_allRootFiles h base isRoot ns)

end

/-! ### Imported stylesheets -/

def MeetsAll (base : Path) (tree nodes : List Node) : Prop :=
  ∀ reading isRoot, ∃ reading' isRoot',
    allMetFiles reading base isRoot tree = allMetFiles reading' base isRoot' nodes

namespace MeetsAll

variable {base : Path} {tree nodes : List Node}

theorem refl : MeetsAll base nodes nodes :=
  fun reading isRoot => ⟨reading, isRoot, rfl⟩

theorem atRule (h : MeetsAll base tree nodes) {name : String} (params : String)
    (hname : Directive.ofName name = .media ∨ Directive.ofName name = .other) :
    MeetsAll base [.atRule name params tree] nodes := by
  intro reading isRoot
  have hnames : (Directive.ofName name).namesFiles = false := by
    rcases hname with hname | hname <;> rw [hname] <;> rfl
  have hentered : (Directive.ofName name).isEntered params = true := by
    rcases hname with hname | hname <;> rw [hname] <;> rfl
  rw [allMetFiles_singleton, Node.metFiles, if_neg (by simp [hnames]), if_pos hentered]
  split
  · exact h false isRoot
  · exact h reading false

theorem wrap (i : ImportParams) : MeetsAll base (i.wrap nodes) nodes := by
  have hmedia : MeetsAll base (if i.media.isEmpty then nodes
      else [.atRule "media" (String.intercalate " " i.media) nodes]) nodes := by
    split
    · exact refl
    · exact refl.atRule _ (.inl rfl)
  rw [ImportParams.wrap]
  cases i.supports <;> cases i.layer
  · exact hmedia
  · exact hmedia.atRule _ (.inr rfl)
  · exact hmedia.atRule _ (.inr rfl)
  · exact (hmedia.atRule _ (.inr rfl)).atRule _ (.inr rfl)

end MeetsAll

mutual

theorem ImportTree.between_files (reading : Bool) (base : Path) (isRoot : Bool) :
    ∀ tree : ImportTree, Between (tree.files base) (tree.node.metFiles reading base isRoot)
  | .kept node => Node.between_rootFiles (fun _ => rfl) base isRoot node
  | .sheet i sheet source trees => by
    have hwrap : MeetsAll sheet.base (i.wrap (nodesOf trees)) (nodesOf trees) := .wrap i
    obtain ⟨reading', isRoot', heq⟩ := hwrap reading isRoot
    have hcontext : (i.splice sheet (nodesOf trees)).metFiles reading base isRoot =
      allMetFiles reading sheet.base isRoot (i.wrap (nodesOf trees)) := rfl
    rw [ImportTree.files, ImportTree.node, hcontext, heq]
    exact between_filesOf reading' sheet.base isRoot' trees

theorem between_filesOf (reading : Bool) (base : Path) (isRoot : Bool) :
    ∀ trees : List ImportTree,
      Between (filesOf base trees) (allMetFiles reading base isRoot (nodesOf trees))
  | [] => .nil (by simp [nodesOf, allMetFiles])
  | tree :: trees => by
    rw [filesOf, nodesOf, allMetFiles]
    exact (ImportTree.between_files reading base isRoot tree).append
      (between_filesOf reading base isRoot trees)

end

/-! ### Handing on options -/

namespace Forwarding

variable {f : Forwarding} {h : AtHead}

private theorem directive_of_takesAway (htaken : f.takesAway h = true) : h.directive = .media := by
  simp only [takesAway, AtHead.isOptionsOnly, Bool.and_eq_true, beq_iff_eq] at htaken
  exact htaken.2.1.1

private theorem reading_within (f : Forwarding) (h : AtHead) :
    (f.within h).reading = (f.reading && !f.takesAway h) := by
  rw [within]
  split
  next hdir => simp [takesAway, AtHead.isOptionsOnly, hdir]
  next hdir =>
    split
    next hreading => simp [takesAway, hreading]
    next hreading => simp [hreading]
  next hmedia =>
    have honly : h.isOptionsOnly = false := by simp_all [AtHead.isOptionsOnly]
    simp [takesAway, honly]

private theorem paramsOf_of_namesFiles (hnames : h.directive.namesFiles = true) :
    f.paramsOf h = h.params := by
  rw [paramsOf]
  split
  next hdir => simp [hdir, Directive.namesFiles] at hnames
  next hdir => simp [hdir, Directive.namesFiles] at hnames
  next => rfl

private theorem isEntered_paramsOf (f : Forwarding) (h : AtHead) :
    h.directive.isEntered (f.paramsOf h) = h.directive.isEntered h.params := by
  rw [paramsOf]
  split
  next hdir => simp [hdir, Directive.isEntered]
  next hdir => simp [hdir, Directive.isEntered]
  next => rfl

end Forwarding

private theorem metFiles_rebuild {f : Forwarding} {h : AtHead} {base : Path} {isRoot : Bool}
    {nodes : List Node} {inner : Forwarded}
    (hinner : ∀ isRoot, allMetFiles false base isRoot inner.nodes =
      allMetFiles (f.within h).reading base isRoot nodes) :
    allMetFiles false base isRoot (f.rebuild h inner).nodes =
      (Node.atRule h.name h.params nodes).metFiles f.reading base isRoot := by
  have htakes : (f.reading && AtHead.isOptionsOnly ⟨h.name, h.params⟩) = f.takesAway h := rfl
  rw [Forwarding.reading_within] at hinner
  rw [Node.metFiles, htakes, Forwarding.rebuild]
  cases htaken : f.takesAway h with
  | true =>
    have hnames : (Directive.ofName h.name).namesFiles = false := by
      rw [show Directive.ofName h.name = .media from Forwarding.directive_of_takesAway htaken]
      rfl
    simpa [hnames, htaken] using hinner isRoot
  | false =>
    simp only [Bool.false_eq_true, if_false, allMetFiles_singleton, Node.metFiles, Bool.false_and]
    split
    next hnames => rw [Forwarding.paramsOf_of_namesFiles hnames]
    next =>
      have hentered : (Directive.ofName h.name).isEntered (f.paramsOf h) =
        (Directive.ofName h.name).isEntered h.params := f.isEntered_paramsOf h
      rw [hentered, hinner false, htaken, Bool.not_false, Bool.and_true]

mutual

theorem Node.metFiles_forwardOptions :
    ∀ {node : Node} {f : Forwarding} {out : Forwarded} (base : Path) (isRoot : Bool),
      node.forwardOptions f = .ok out →
      allMetFiles false base isRoot out.nodes = node.metFiles f.reading base isRoot
  | .comment text, f, out, base, isRoot, h => by
    rw [Node.forwardOptions] at h
    cases h
    rfl
  | .declaration property value important, f, out, base, isRoot, h => by
    rw [Node.forwardOptions] at h
    split at h <;> cases h
    rfl
  | .context entries nodes, f, out, base, isRoot, h => by
    rw [Node.forwardOptions] at h
    obtain ⟨inner, hinner, rfl⟩ := Except.exists_of_map h
    exact (allMetFiles_singleton ..).trans
      (metFiles_forwardAllOptions (baseInside base entries) isRoot hinner)
  | .rule selector nodes, f, out, base, isRoot, h => by
    rw [Node.forwardOptions] at h
    split at h
    · cases h
    · obtain ⟨inner, hinner, rfl⟩ := Except.exists_of_map h
      exact (allMetFiles_singleton ..).trans (metFiles_forwardAllOptions base false hinner)
  | .atRoot nodes, f, out, base, isRoot, h => by
    rw [Node.forwardOptions] at h
    split at h
    · cases h
    · obtain ⟨inner, hinner, rfl⟩ := Except.exists_of_map h
      exact (allMetFiles_singleton ..).trans (metFiles_forwardAllOptions base false hinner)
  | .atRule name params nodes, f, out, base, isRoot, h => by
    rw [Node.forwardOptions_atRule f ⟨name, params⟩] at h
    obtain ⟨inner, hinner, rfl⟩ := Except.exists_of_map h
    exact metFiles_rebuild fun isRoot => metFiles_forwardAllOptions base isRoot hinner

/-- Handing on options changes nothing about the directives that are met, but for the queries that
are unwrapped. -/
theorem metFiles_forwardAllOptions :
    ∀ {nodes : List Node} {f : Forwarding} {out : Forwarded} (base : Path) (isRoot : Bool),
      forwardAllOptions f nodes = .ok out →
      allMetFiles false base isRoot out.nodes = allMetFiles f.reading base isRoot nodes
  | [], f, out, base, isRoot, h => by
    rw [forwardAllOptions] at h
    cases h
    rfl
  | n :: ns, f, out, base, isRoot, h => by
    rw [forwardAllOptions] at h
    obtain ⟨first, hfirst, h⟩ := Except.exists_of_bind h
    obtain ⟨rest, hrest, h⟩ := Except.exists_of_bind h
    cases h
    rw [allMetFiles_append, Node.metFiles_forwardOptions base isRoot hfirst,
      metFiles_forwardAllOptions base isRoot hrest]
    rfl

end

/-! ### Collecting -/

structure Collected.Gains (c c' : Collected) (met : List MetFile) : Prop where
  isRoot : ∀ m ∈ met, m.isRoot = true
  globs : c'.globs.map some = c.globs.map some ++
    ((met.map MetFile.file).filter fun w => w.directive = .source).map FileDirective.glob?
  modules : c'.modules.map some = c.modules.map some ++
    ((met.map MetFile.file).filter fun w => w.directive ≠ .source).map FileDirective.request?

namespace Collected.Gains

variable {c c' c'' : Collected} {met met' : List MetFile}

theorem nothing (hglobs : c'.globs = c.globs) (hmodules : c'.modules = c.modules) :
    c.Gains c' [] where
  isRoot := by simp
  globs := by simp [hglobs]
  modules := by simp [hmodules]

theorem trans (h : c.Gains c' met) (h' : c'.Gains c'' met') : c.Gains c'' (met ++ met') where
  isRoot := List.forall_mem_append.2 ⟨h.isRoot, h'.isRoot⟩
  globs := by simp only [h'.globs, h.globs, List.map_append, List.filter_append, List.append_assoc]
  modules := by
    simp only [h'.modules, h.modules, List.map_append, List.filter_append, List.append_assoc]

end Collected.Gains

section Met

variable {name params : String} {nodes : List Node} {base : Path} {isRoot : Bool}

theorem metFiles_of_namesFiles (hnames : (Directive.ofName name).namesFiles = true) :
    (Node.atRule name params nodes).metFiles false base isRoot =
      [⟨⟨.ofName name, base, params⟩, isRoot⟩] := by
  rw [Node.metFiles, if_pos hnames]

theorem metFiles_of_isEntered (hentered : (Directive.ofName name).isEntered params = true) :
    (Node.atRule name params nodes).metFiles false base isRoot =
      allMetFiles false base false nodes := by
  have hnames : (Directive.ofName name).namesFiles = false := by
    cases hname : Directive.ofName name <;> simp_all [Directive.isEntered, Directive.namesFiles]
  rw [Node.metFiles, if_neg (by simp [hnames]), Bool.false_and, if_neg Bool.false_ne_true,
    if_pos hentered]

theorem metFiles_of_closed (hnames : (Directive.ofName name).namesFiles = false)
    (hentered : (Directive.ofName name).isEntered params = false) :
    (Node.atRule name params nodes).metFiles false base isRoot = [] := by
  rw [Node.metFiles, if_neg (by simp [hnames]), Bool.false_and, if_neg Bool.false_ne_true,
    if_neg (by simp [hentered])]

end Met

theorem Collected.Takes.gains {base : Path} {scope : Scope} {c c' : Collected}
    {name params : String}
    {nodes : List Node} {action : Action} (h : Takes base scope c name params nodes action c')
    (haction : action ≠ .descend) : c.Gains c' ((Node.atRule name params nodes).metFiles false
      (baseAt base scope) scope.isRoot) := by
  cases h with
  | theme hname | utility hname | variant hname | imported hname =>
    rw [metFiles_of_closed (by rw [hname]; rfl) (by rw [hname]; rfl)]
    exact .nothing rfl rfl
  | place hname hparams =>
    rw [metFiles_of_closed (by rw [hname]; rfl) (by simp [hname, Directive.isEntered, hparams])]
    exact .nothing rfl rfl
  | source hname hroot hpattern =>
    rw [metFiles_of_namesFiles (by rw [hname]; rfl), hroot]
    refine ⟨by simp, ?_, ?_⟩
    · simp [hname, FileDirective.glob?, FileDirective.argument?, hpattern]
    · simp [hname]
  | @request kind id hname hroot hid =>
    have hnames : (Directive.ofName name).namesFiles = true := by
      rw [hname]
      cases kind <;> rfl
    rw [metFiles_of_namesFiles hnames, hroot]
    refine ⟨by simp, ?_, ?_⟩
    · cases kind <;> simp [hname, ModuleKind.atRule]
    · cases kind <;> simp [hname, ModuleKind.atRule, FileDirective.request?, FileDirective.kind?,
        FileDirective.argument?, hid]
  | pass => contradiction

theorem Collected.baseAt_enter (base : Path) (scope : Scope) (entries : List (String × String)) :
    baseAt base (scope.enter entries) = baseInside (baseAt base scope) entries := by
  simp only [baseAt, baseInside, Scope.context?, Scope.enter, List.findSome?_cons]
  cases entries.lookup "base" <;> rfl

mutual

theorem Node.gains_collectFrom {base : Path} :
    ∀ {node : Node} {scope : Scope} {c c' : Collected} {out : List Node},
      node.collectFrom base scope c = .ok (out, c') →
      c.Gains c' (node.metFiles false (Collected.baseAt base scope) scope.isRoot)
  | .context entries nodes, scope, c, c', out, h => by
    rw [Node.collectFrom] at h
    obtain ⟨inner, hinner, h⟩ := Except.exists_of_map h
    cases h
    have hgains := gains_collectAllFrom hinner
    rwa [Collected.baseAt_enter] at hgains
  | .rule selector nodes, scope, c, c', out, h => by
    rw [Node.collectFrom] at h
    obtain ⟨inner, hinner, h⟩ := Except.exists_of_map h
    cases h
    exact gains_collectAllFrom hinner
  | .atRoot nodes, scope, c, c', out, h => by
    rw [Node.collectFrom] at h
    obtain ⟨inner, hinner, h⟩ := Except.exists_of_map h
    cases h
    exact gains_collectAllFrom hinner
  | .declaration property value important, scope, c, c', out, h => by
    cases h
    exact .nothing rfl rfl
  | .comment text, scope, c, c', out, h => by
    cases h
    exact .nothing rfl rfl
  | .atRule name params nodes, scope, c, c', out, h => by
    rw [Node.collectFrom] at h
    obtain ⟨⟨action, c₁⟩, hvisit, h⟩ := Except.exists_of_bind h
    have htakes := Collected.takes_of_visit hvisit
    cases action with
    | descend =>
      obtain ⟨inner, hinner, h⟩ := Except.exists_of_map h
      cases h
      cases htakes with
      | pass hentered =>
        rw [metFiles_of_isEntered hentered]
        exact gains_collectAllFrom hinner
    | skip | stop | replace _ | replaceAndStop _ =>
      cases h
      exact htakes.gains (by simp)

theorem gains_collectAllFrom {base : Path} :
    ∀ {nodes : List Node} {scope : Scope} {c c' : Collected} {out : List Node},
      collectAllFrom base scope c nodes = .ok (out, c') →
      c.Gains c' (allMetFiles false (Collected.baseAt base scope) scope.isRoot nodes)
  | [], scope, c, c', out, h => by
    cases h
    exact .nothing rfl rfl
  | n :: ns, scope, c, c', out, h => by
    rw [collectAllFrom] at h
    obtain ⟨first, hfirst, h⟩ := Except.exists_of_bind h
    obtain ⟨rest, hrest, h⟩ := Except.exists_of_bind h
    cases h
    exact (Node.gains_collectFrom hfirst).trans (gains_collectAllFrom hrest)

end

end UtilityCss
