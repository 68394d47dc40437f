import Mathlib
import UtilityCss.Proofs.CollectShape

/-!
Import chains. What splicing makes of a stylesheet is told by a tree that does not know how the
stylesheet was reached: splicing succeeds exactly if there is such a tree and none of its branches
holds a path twice. A circular import is reported with the chain of imports that leads to it.
-/
namespace UtilityCss

namespace Path

theorem same_comm (p q : Path) : p.same q = q.same p := by
  simp only [same]
  exact BEq.comm

end Path

def AreDistinct (paths : List Path) : Prop :=
  paths.Pairwise fun p q => p.same q = false

theorem areDistinct_append_singleton {chain : List Path} {p : Path} :
    AreDistinct (chain ++ [p]) ↔ AreDistinct chain ∧ chain.any p.same = false := by
  simp only [AreDistinct, List.pairwise_append, List.pairwise_singleton, true_and,
    List.mem_singleton, forall_eq, List.any_eq_false, Bool.not_eq_true, p.same_comm]

/-- An import that splicing has to replace. One without a readable address is among these. -/
def Node.isLocalImport (node : Node) : Bool :=
  node.importParams?.any fun params => !(ImportParams.parse? params).any ImportParams.isRemote

structure Node.AsksFor (node : Node) (i : ImportParams) : Prop where
  asks : node.importParams?.bind ImportParams.parse? = some i
  isLocal : i.isRemote = false

structure Imports (loader : SheetLoader) (base : Path) (node : Node) (i : ImportParams)
    (sheet : Sheet) : Prop extends node.AsksFor i where
  load : loader.load i.uri base = .ok sheet

/-- The root of a stylesheet with its imports: nodes that stay, and stylesheets, each with what was
written at its root, in the place of the imports that asked for them. -/
inductive ImportTree where
  | kept (node : Node)
  | sheet (i : ImportParams) (sheet : Sheet) (source : List Node) (trees : List ImportTree)

mutual

def ImportTree.node : ImportTree → Node
  | .kept node => node
  | .sheet i sheet _ trees => i.splice sheet (nodesOf trees)

def nodesOf : List ImportTree → List Node
  | [] => []
  | tree :: trees => tree.node :: nodesOf trees

end

/-- The tree that belongs to a stylesheet. Nothing here looks at the imports further out. -/
inductive ExpandsImports (loader : SheetLoader) : Path → List Node → List ImportTree → Prop
  | nil {base : Path} : ExpandsImports loader base [] []
  | kept {base : Path} {node : Node} {nodes : List Node} {trees : List ImportTree} :
      node.isLocalImport = false → ExpandsImports loader base nodes trees →
      ExpandsImports loader base (node :: nodes) (.kept node :: trees)
  | spliced {base : Path} {node : Node} {nodes : List Node} {trees : List ImportTree}
      {i : ImportParams} {sheet : Sheet} {source : List Node} {inner : List ImportTree} :
      Imports loader base node i sheet → parse sheet.content = .ok source →
      ExpandsImports loader sheet.base source inner → ExpandsImports loader base nodes trees →
      ExpandsImports loader base (node :: nodes) (.sheet i sheet source inner :: trees)

/-- The paths of stylesheets that stand inside each other, outermost first. -/
inductive Branch : List ImportTree → List Path → Prop
  | nil {trees : List ImportTree} : Branch trees []
  | cons {trees : List ImportTree} {i : ImportParams} {sheet : Sheet} {source : List Node}
      {inner : List ImportTree} {paths : List Path} :
      .sheet i sheet source inner ∈ trees → Branch inner paths →
      Branch trees (sheet.path :: paths)

/-- What was written at the root of the entry or of a spliced stylesheet, and what became of it. -/
inductive RootOf (nodes : List Node) (trees : List ImportTree) :
    List Node → List ImportTree → Prop
  | entry : RootOf nodes trees nodes trees
  | sheet {outer : List Node} {part : List ImportTree} {i : ImportParams} {sheet : Sheet}
      {source : List Node} {inner : List ImportTree} :
      RootOf nodes trees outer part → .sheet i sheet source inner ∈ part →
      RootOf nodes trees source inner

/-- A chain of imports from the root of a stylesheet: the first path is that of a stylesheet it
imports, each further one that of a stylesheet which the one before imports. -/
inductive ImportChain (loader : SheetLoader) : Path → List Node → List Path → Prop
  | last {base : Path} {nodes : List Node} {node : Node} {i : ImportParams} {sheet : Sheet} :
      node ∈ nodes → Imports loader base node i sheet → ImportChain loader base nodes [sheet.path]
  | next {base : Path} {nodes : List Node} {node : Node} {i : ImportParams} {sheet : Sheet}
      {source : List Node} {paths : List Path} :
      node ∈ nodes → Imports loader base node i sheet → parse sheet.content = .ok source →
      ImportChain loader sheet.base source paths →
      ImportChain loader base nodes (sheet.path :: paths)

section Step

variable {loader : SheetLoader} {chain : List Path} {base : Path} {node : Node}

def spliceNode (loader : SheetLoader) (chain : List Path) (base : Path) (node : Node) :
    Except Error Node :=
  match node.importParams? with
  | none => .ok node
  | some params =>
    match ImportParams.parse? params with
    | none => .error (.directive "import" (.invalidPath params))
    | some i =>
      if i.isRemote then .ok node
      else
        match loader.load i.uri base with
        | .error e => .error e
        | .ok sheet =>
          if chain.any sheet.path.same then .error (.circularImport sheet.path chain)
          else
            parse sheet.content >>= fun nodes =>
              (spliceFrom loader (chain ++ [sheet.path]) sheet.base nodes).map (i.splice sheet)

theorem spliceFrom_cons {nodes : List Node} :
    spliceFrom loader chain base (node :: nodes) = (do
      let spliced ← spliceNode loader chain base node
      let others ← spliceFrom loader chain base nodes
      return spliced :: others) := by
  rw [spliceFrom, spliceNode]
  dsimp only
  congr 1
  cases node.importParams? with
  | none => rfl
  | some params =>
    dsimp only
    cases ImportParams.parse? params with
    | none => rfl
    | some i =>
      dsimp only
      split
      · rfl
      · split <;> simp_all only [dite_eq_ite]

theorem Imports.isLocalImport {i : ImportParams} {sheet : Sheet}
    (h : Imports loader base node i sheet) : node.isLocalImport = true := by
  obtain ⟨params, hparams, hi⟩ := Option.bind_eq_some_iff.1 h.asks
  simp [Node.isLocalImport, hparams, hi, h.isLocal]

theorem spliceNode_of_asks {i : ImportParams} (h : node.AsksFor i) :
    spliceNode loader chain base node = (do
      let sheet ← loader.load i.uri base
      if chain.any sheet.path.same then .error (.circularImport sheet.path chain)
      else do
        let nodes ← parse sheet.content
        (spliceFrom loader (chain ++ [sheet.path]) sheet.base nodes).map (i.splice sheet)) := by
  obtain ⟨params, hparams, hi⟩ := Option.bind_eq_some_iff.1 h.asks
  simp only [spliceNode, hparams, hi, h.isLocal, Bool.false_eq_true, ↓reduceIte]
  cases loader.load i.uri base <;> rfl

theorem spliceNode_of_imports {i : ImportParams} {sheet : Sheet}
    (h : Imports loader base node i sheet) :
    spliceNode loader chain base node =
      if chain.any sheet.path.same then .error (.circularImport sheet.path chain)
      else parse sheet.content >>= fun nodes =>
        (spliceFrom loader (chain ++ [sheet.path]) sheet.base nodes).map (i.splice sheet) := by
  rw [spliceNode_of_asks h.toAsksFor, h.load]
  rfl

theorem spliceNode_of_kept (h : node.isLocalImport = false) :
    spliceNode loader chain base node = .ok node := by
  unfold spliceNode
  unfold Node.isLocalImport at h
  split
  · rfl
  next params hparams =>
    rw [hparams] at h
    split
    next hi => simp [hi] at h
    next i hi => simp_all

theorem Node.import_cases (node : Node) :
    node.isLocalImport = false ∨
      (∃ params, node.importParams? = some params ∧ ImportParams.parse? params = none) ∨
      ∃ i, node.AsksFor i := by
  cases hparams : node.importParams? with
  | none => exact .inl (by simp [Node.isLocalImport, hparams])
  | some params =>
    cases hi : ImportParams.parse? params with
    | none => exact .inr (.inl ⟨params, rfl, hi⟩)
    | some i =>
      cases hremote : i.isRemote with
      | true => exact .inl (by simp [Node.isLocalImport, hparams, hi, hremote])
      | false => exact .inr (.inr ⟨i, by simp [hparams, hi], hremote⟩)

theorem kept_or_imports_or_fails (loader : SheetLoader) (base : Path) (node : Node) :
    node.isLocalImport = false ∨ (∃ i sheet, Imports loader base node i sheet) ∨
      ∃ e, (∀ chain, spliceNode loader chain base node = .error e) ∧
        ∀ path found, e = .circularImport path found →
          ∃ i, node.AsksFor i ∧ loader.load i.uri base = .error e := by
  rcases node.import_cases with hkept | ⟨params, hparams, hi⟩ | ⟨i, hasks⟩
  · exact .inl hkept
  · refine .inr (.inr
      ⟨.directive "import" (.invalidPath params), fun chain => ?_, fun _ _ h => ?_⟩)
    · simp only [spliceNode, hparams, hi]
    · cases h
  · cases hload : loader.load i.uri base with
    | ok sheet => exact .inr (.inl ⟨i, sheet, hasks, hload⟩)
    | error e =>
      refine .inr (.inr ⟨e, fun chain => ?_, fun _ _ _ => ⟨i, hasks, hload⟩⟩)
      rw [spliceNode_of_asks hasks, hload]
      rfl

/-- A run of splicing asks the loader for a stylesheet by its id, from a directory. It has come that
far: what stands before the import was spliced, and no path came twice on the way down to it. -/
inductive Asks (loader : SheetLoader) : List Path → Path → List Node → String → Path → Prop
  | now {chain : List Path} {base : Path} {node : Node} {nodes : List Node} {i : ImportParams} :
      node.AsksFor i → Asks loader chain base (node :: nodes) i.uri base
  | inside {chain : List Path} {base : Path} {node : Node} {nodes : List Node} {i : ImportParams}
      {sheet : Sheet} {source : List Node} {id : String} {dir : Path} :
      Imports loader base node i sheet → chain.any sheet.path.same = false →
      parse sheet.content = .ok source →
      Asks loader (chain ++ [sheet.path]) sheet.base source id dir →
      Asks loader chain base (node :: nodes) id dir
  | later {chain : List Path} {base : Path} {node spliced : Node} {nodes : List Node} {id : String}
      {dir : Path} :
      spliceNode loader chain base node = .ok spliced → Asks loader chain base nodes id dir →
      Asks loader chain base (node :: nodes) id dir

end Step

section Success

variable {loader : SheetLoader} {chain : List Path} {base : Path} {nodes : List Node}
  {trees : List ImportTree}

theorem Imports.unique {node : Node} {i j : ImportParams} {sheet other : Sheet}
    (h : Imports loader base node i sheet) (h' : Imports loader base node j other) :
    i = j ∧ sheet = other := by
  obtain rfl : i = j := Option.some.inj (h.asks.symm.trans h'.asks)
  exact ⟨rfl, Except.ok.inj (h.load.symm.trans h'.load)⟩

theorem Branch.of_kept {node : Node} {paths : List Path}
    (h : Branch (.kept node :: trees) paths) : Branch trees paths := by
  cases h with
  | nil => exact .nil
  | cons hmem hinner =>
    cases hmem with
    | tail _ hmem => exact .cons hmem hinner

theorem Branch.of_sheet {i : ImportParams} {sheet : Sheet} {source : List Node}
    {inner : List ImportTree} {paths : List Path}
    (h : Branch (.sheet i sheet source inner :: trees) paths) :
    (∃ rest, paths = sheet.path :: rest ∧ Branch inner rest) ∨ Branch trees paths := by
  cases h with
  | nil => exact .inr .nil
  | cons hmem hinner =>
    cases hmem with
    | head => exact .inl ⟨_, rfl, hinner⟩
    | tail _ hmem => exact .inr (.cons hmem hinner)

theorem Branch.cons_tree {tree : ImportTree} {paths : List Path} (h : Branch trees paths) :
    Branch (tree :: trees) paths := by
  cases h with
  | nil => exact .nil
  | cons hmem hinner => exact .cons (List.mem_cons_of_mem _ hmem) hinner

theorem exists_expands {out : List Node} (hchain : AreDistinct chain)
    (h : spliceFrom loader chain base nodes = .ok out) :
    ∃ trees, ExpandsImports loader base nodes trees ∧ nodesOf trees = out ∧
      ∀ paths, Branch trees paths → AreDistinct (chain ++ paths) := by
  induction chain, base, nodes using spliceFrom.induct loader generalizing out with
  | case1 chain base =>
    rw [spliceFrom] at h
    cases h
    refine ⟨[], .nil, rfl, fun paths hpaths => ?_⟩
    cases hpaths with
    | nil => simpa using hchain
    | cons hmem => cases hmem
  | case2 chain base node nodes ih₁ ih₂ =>
    rw [spliceFrom_cons] at h
    obtain ⟨spliced, hspliced, h⟩ := Except.exists_of_bind h
    obtain ⟨others, hothers, h⟩ := Except.exists_of_bind h
    cases h
    obtain ⟨trees, hexpands, rfl, hbranch⟩ := ih₂ hchain hothers
    rcases kept_or_imports_or_fails loader base node with hkept | ⟨i, sheet, himports⟩ | ⟨e, he, _⟩
    · rw [spliceNode_of_kept hkept] at hspliced
      cases hspliced
      exact ⟨_, .kept hkept hexpands, rfl, fun paths hpaths => hbranch paths hpaths.of_kept⟩
    · rw [spliceNode_of_imports himports] at hspliced
      split at hspliced
      · cases hspliced
      next hnew =>
        obtain ⟨source, hsource, hspliced⟩ := Except.exists_of_bind hspliced
        obtain ⟨content, hcontent, rfl⟩ := Except.exists_of_map hspliced
        have hlonger : AreDistinct (chain ++ [sheet.path]) :=
          areDistinct_append_singleton.2 ⟨hchain, by simpa using hnew⟩
        obtain ⟨inner, hinner, rfl, hdeeper⟩ :=
          ih₁ i sheet himports.load hnew source hlonger hcontent
        refine ⟨_, .spliced himports hsource hinner hexpands, rfl, fun paths hpaths => ?_⟩
        rcases hpaths.of_sheet with ⟨rest, rfl, hrest⟩ | hpaths
        · simpa using hdeeper rest hrest
        · exact hbranch paths hpaths
    · rw [he] at hspliced
      cases hspliced

theorem ExpandsImports.spliceFrom (h : ExpandsImports loader base nodes trees)
    (hbranch : ∀ paths, Branch trees paths → AreDistinct (chain ++ paths)) :
    spliceFrom loader chain base nodes = .ok (nodesOf trees) := by
  induction h generalizing chain with
  | nil => rw [UtilityCss.spliceFrom, nodesOf]
  | kept hkept _ ih =>
    rw [spliceFrom_cons, spliceNode_of_kept hkept,
      ih fun paths hpaths => hbranch paths hpaths.cons_tree]
    rfl
  | @spliced base node nodes trees i sheet source inner himports hsource _ _ ih₁ ih₂ =>
    have hnew : chain.any sheet.path.same = false :=
      (areDistinct_append_singleton.1 (hbranch _ (.cons List.mem_cons_self .nil))).2
    have hinner : UtilityCss.spliceFrom loader (chain ++ [sheet.path]) sheet.base source =
        .ok (nodesOf inner) := ih₁ fun paths hpaths => by
      simpa using hbranch _ (.cons List.mem_cons_self hpaths)
    rw [spliceFrom_cons, spliceNode_of_imports himports, hnew, hsource,
      ih₂ fun paths hpaths => hbranch paths hpaths.cons_tree]
    simp only [Bool.false_eq_true, ↓reduceIte]
    change ((UtilityCss.spliceFrom loader (chain ++ [sheet.path]) sheet.base source).map _
      >>= _) = _
    rw [hinner]
    rfl

theorem ExpandsImports.exists_sheet {node : Node} {i : ImportParams} {sheet : Sheet}
    (h : ExpandsImports loader base nodes trees) (hmem : node ∈ nodes)
    (himports : Imports loader base node i sheet) :
    ∃ source inner, .sheet i sheet source inner ∈ trees ∧ parse sheet.content = .ok source ∧
      ExpandsImports loader sheet.base source inner := by
  induction h with
  | nil => cases hmem
  | kept hkept _ ih =>
    rcases List.mem_cons.1 hmem with rfl | hmem
    · simp [himports.isLocalImport] at hkept
    · obtain ⟨source, inner, htree, hrest⟩ := ih hmem himports
      exact ⟨source, inner, List.mem_cons_of_mem _ htree, hrest⟩
  | spliced himports' hsource hinner _ _ ih =>
    rcases List.mem_cons.1 hmem with rfl | hmem
    · obtain ⟨rfl, rfl⟩ := himports.unique himports'
      exact ⟨_, _, List.mem_cons_self, hsource, hinner⟩
    · obtain ⟨source, inner, htree, hrest⟩ := ih hmem himports
      exact ⟨source, inner, List.mem_cons_of_mem _ htree, hrest⟩

theorem ImportChain.branch {paths : List Path} (h : ImportChain loader base nodes paths)
    (hexpands : ExpandsImports loader base nodes trees) : Branch trees paths := by
  induction h generalizing trees with
  | last hmem himports =>
    obtain ⟨source, inner, htree, -, -⟩ := hexpands.exists_sheet hmem himports
    exact .cons htree .nil
  | next hmem himports hsource _ ih =>
    obtain ⟨source', inner, htree, hsource', hinner⟩ := hexpands.exists_sheet hmem himports
    obtain rfl := Except.ok.inj (hsource.symm.trans hsource')
    exact .cons htree (ih hinner)

/-- What splicing makes of the root of one stylesheet: one node for each, no local import, and every
node that is not a local import where it was. -/
structure Settles (source out : List Node) : Prop where
  length_eq : out.length = source.length
  keeps : ∀ (k : Nat) (node : Node), source[k]? = some node → node.isLocalImport = false →
    out[k]? = some node
  no_local : ∀ node ∈ out, node.isLocalImport = false

theorem ExpandsImports.settles (h : ExpandsImports loader base nodes trees) :
    Settles nodes (nodesOf trees) := by
  induction h with
  | nil => exact ⟨rfl, by simp, by simp [nodesOf]⟩
  | kept hkept _ ih =>
    refine ⟨by simp [nodesOf, ih.length_eq], fun k node hk hnode => ?_, fun node hmem => ?_⟩
    · cases k with
      | zero => exact hk
      | succ k => exact ih.keeps k node hk hnode
    · rcases List.mem_cons.1 hmem with rfl | hmem
      · exact hkept
      · exact ih.no_local node hmem
  | spliced himports _ _ _ _ ih =>
    refine ⟨by simp [nodesOf, ih.length_eq], fun k node hk hnode => ?_, fun node hmem => ?_⟩
    · cases k with
      | zero =>
        obtain rfl := Option.some.inj hk
        simp [himports.isLocalImport] at hnode
      | succ k => exact ih.keeps k node hk hnode
    · rcases List.mem_cons.1 hmem with rfl | hmem
      · rfl
      · exact ih.no_local node hmem

theorem ExpandsImports.of_mem {i : ImportParams} {sheet : Sheet} {source : List Node}
    {inner : List ImportTree} (h : ExpandsImports loader base nodes trees)
    (hmem : .sheet i sheet source inner ∈ trees) :
    ExpandsImports loader sheet.base source inner := by
  induction h with
  | nil => cases hmem
  | kept _ _ ih =>
    cases hmem with
    | tail _ hmem => exact ih hmem
  | spliced _ _ hinner _ _ ih =>
    cases hmem with
    | head => exact hinner
    | tail _ hmem => exact ih hmem

theorem RootOf.expands {source : List Node} {part : List ImportTree}
    (h : RootOf nodes trees source part) (hexpands : ExpandsImports loader base nodes trees) :
    ∃ dir, ExpandsImports loader dir source part := by
  induction h with
  | entry => exact ⟨base, hexpands⟩
  | sheet _ hmem ih =>
    obtain ⟨dir, hpart⟩ := ih
    exact ⟨_, hpart.of_mem hmem⟩

end Success

section Failure

def Error.IsText (e : Error) : Prop :=
  ∃ fault line column, e = .text fault line column

theorem Item.isText_of_declaration {i : Item} {text : String} {place : Location} {e : Error}
    (h : i.declaration text place = .error e) : e.IsText := by
  unfold Item.declaration at h
  split at h
  · cases h
    exact ⟨_, _, _, rfl⟩
  · simp at h

namespace Reader

private theorem isText_of_feed {r : Reader} {l : Lexeme} {e : Error} (h : r.feed l = .error e) :
    e.IsText := by
  unfold feed at h
  dsimp only at h
  split at h
  · cases h
  split at h
  · unfold feedFirst at h
    split at h
    all_goals try cases h
    split at h <;> cases h
    exact ⟨_, _, _, rfl⟩
  · unfold feedPrelude at h
    split at h
    all_goals try cases h
    split at h <;> cases h
    exact ⟨_, _, _, rfl⟩
  · unfold feedItem at h
    dsimp only at h
    split at h
    all_goals try cases h
    · exact Item.isText_of_declaration (Except.map_eq_error h)
    · split at h
      · cases h
        exact ⟨_, _, _, rfl⟩
      · exact Item.isText_of_declaration (Except.map_eq_error h)

private theorem isText_of_feedAll {ls : List Lexeme} {r : Reader} {e : Error}
    (h : ls.foldlM feed r = .error e) : e.IsText := by
  induction ls generalizing r with
  | nil => cases h
  | cons l ls ih =>
    rw [List.foldlM_cons] at h
    cases hfeed : r.feed l with
    | error other =>
      rw [hfeed] at h
      cases h
      exact isText_of_feed hfeed
    | ok r' =>
      rw [hfeed] at h
      exact ih h

private theorem isText_of_finish {r : Reader} {e : Error} (h : r.finish = .error e) : e.IsText := by
  have h := Except.map_eq_error h
  unfold settle at h
  split at h
  · cases h
  · cases h
  · exact Item.isText_of_declaration (Except.map_eq_error h)

end Reader

private theorem isText_of_parse {css : String} {e : Error} (h : parse css = .error e) :
    e.IsText := by
  unfold parse at h
  cases hfeed : (lex css.toList).foldlM Reader.feed {} with
  | error other =>
    rw [hfeed] at h
    cases h
    exact Reader.isText_of_feedAll hfeed
  | ok r =>
    rw [hfeed] at h
    exact Reader.isText_of_finish h

variable {loader : SheetLoader} {chain : List Path} {base : Path} {nodes : List Node}

theorem ImportChain.cons_node {node : Node} {paths : List Path}
    (h : ImportChain loader base nodes paths) : ImportChain loader base (node :: nodes) paths := by
  cases h with
  | last hmem himports => exact .last (List.mem_cons_of_mem _ hmem) himports
  | next hmem himports hsource hrest =>
    exact .next (List.mem_cons_of_mem _ hmem) himports hsource hrest

/-- A circular import is the loader's own answer, or it is reported with the chain of imports that
reaches a path a second time. -/
theorem circular_cases {path : Path} {found : List Path} (hchain : AreDistinct chain)
    (h : spliceFrom loader chain base nodes = .error (.circularImport path found)) :
    (∃ id dir, Asks loader chain base nodes id dir ∧
        loader.load id dir = .error (.circularImport path found)) ∨
      ∃ rest, found = chain ++ rest ∧ found.any path.same = true ∧ AreDistinct found ∧
        ImportChain loader base nodes (rest ++ [path]) := by
  induction chain, base, nodes using spliceFrom.induct loader with
  | case1 chain base =>
    rw [spliceFrom] at h
    cases h
  | case2 chain base node nodes ih₁ ih₂ =>
    rw [spliceFrom_cons] at h
    rcases Except.bind_eq_error h with hnode | ⟨spliced, hspliced, hothers⟩
    · rcases kept_or_imports_or_fails loader base node
        with hkept | ⟨i, sheet, himports⟩ | ⟨e, he, hown⟩
      · rw [spliceNode_of_kept hkept] at hnode
        cases hnode
      · rw [spliceNode_of_imports himports] at hnode
        split at hnode
        · next hseen =>
          cases hnode
          exact .inr ⟨[], by simp, hseen, hchain, .last List.mem_cons_self himports⟩
        next hnew =>
          rcases Except.bind_eq_error hnode with hparse | ⟨source, hsource, hinner⟩
          · obtain ⟨fault, line, column, hfault⟩ := isText_of_parse hparse
            cases hfault
          have hapart : chain.any sheet.path.same = false := by simpa using hnew
          have hlonger : AreDistinct (chain ++ [sheet.path]) :=
            areDistinct_append_singleton.2 ⟨hchain, hapart⟩
          rcases ih₁ i sheet himports.load hnew source hlonger (Except.map_eq_error hinner) with
            ⟨id, dir, hasks, hload⟩ | ⟨rest, rfl, hseen, hdistinct, hrest⟩
          · exact .inl ⟨id, dir, .inside himports hapart hsource hasks, hload⟩
          · exact .inr ⟨sheet.path :: rest, by simp, hseen, hdistinct,
              .next List.mem_cons_self himports hsource hrest⟩
      · rw [he] at hnode
        cases hnode
        obtain ⟨i, hasks, hload⟩ := hown path found rfl
        exact .inl ⟨i.uri, base, .now hasks, hload⟩
    · have hothers := Except.map_eq_error hothers
      rcases ih₂ hchain hothers
        with ⟨id, dir, hasks, hload⟩ | ⟨rest, hfound, hseen, hdistinct, hrest⟩
      · exact .inl ⟨id, dir, .later hspliced hasks, hload⟩
      · exact .inr ⟨rest, hfound, hseen, hdistinct, hrest.cons_node⟩

end Failure

section Termination

def answered {α : Type} (x : Except Error α) : ExceptT Error Option α :=
  ExceptT.mk (some x)

theorem answered_bind {α β : Type} {x : Except Error α} {f : α → ExceptT Error Option β}
    {g : α → Except Error β} (h : ∀ a, x = .ok a → f a = answered (g a)) :
    answered x >>= f = answered (x >>= g) := by
  cases x with
  | error e => rfl
  | ok a => exact h a rfl

theorem answered_map {α β : Type} {x : Except Error α} {f : α → β} :
    f <$> answered x = answered (x.map f) := by
  cases x <;> rfl

def spliceNodeWith (load : String → Path → Except Error Sheet) (chain : List Path) (base : Path)
    (inner : Sheet → List Node → ExceptT Error Option (List Node)) (node : Node) :
    ExceptT Error Option Node :=
  match node.importParams? with
  | none => pure node
  | some params =>
    match ImportParams.parse? params with
    | none => throw (.directive "import" (.invalidPath params))
    | some i =>
      if i.isRemote then pure node
      else do
        let sheet ← answered (load i.uri base)
        if chain.any sheet.path.same then throw (.circularImport sheet.path chain)
        else do
          let nodes ← answered (parse sheet.content)
          i.splice sheet <$> inner sheet nodes

/-- Splicing by recursion on a bound on how deep stylesheets may stand inside each other, with
nothing known of the loader. -/
def spliceWithin (load : String → Path → Except Error Sheet) :
    Nat → List Path → Path → List Node → ExceptT Error Option (List Node)
  | 0, chain, base, nodes => nodes.mapM (spliceNodeWith load chain base fun _ _ => ExceptT.mk none)
  | depth + 1, chain, base, nodes =>
    nodes.mapM (spliceNodeWith load chain base fun sheet =>
      spliceWithin load depth (chain ++ [sheet.path]) sheet.base)

theorem spliceNodeWith_of_asks {load : String → Path → Except Error Sheet} {chain : List Path}
    {base : Path} {inner : Sheet → List Node → ExceptT Error Option (List Node)} {node : Node}
    {i : ImportParams} (h : node.AsksFor i) :
    spliceNodeWith load chain base inner node = (do
      let sheet ← answered (load i.uri base)
      if chain.any sheet.path.same then throw (.circularImport sheet.path chain)
      else do
        let nodes ← answered (parse sheet.content)
        i.splice sheet <$> inner sheet nodes) := by
  obtain ⟨params, hparams, hi⟩ := Option.bind_eq_some_iff.1 h.asks
  simp only [spliceNodeWith, hparams, hi, h.isLocal, Bool.false_eq_true, ↓reduceIte]

theorem asksFor_or_answered (node : Node) :
    (∃ i, node.AsksFor i) ∨
      ∃ r, (∀ loader chain base, spliceNode loader chain base node = r) ∧
        ∀ load chain base inner, spliceNodeWith load chain base inner node = answered r := by
  rcases node.import_cases with hkept | ⟨params, hparams, hi⟩ | hasks
  · refine .inr ⟨.ok node, fun _ _ _ => spliceNode_of_kept hkept, fun _ _ _ _ => ?_⟩
    unfold spliceNodeWith
    unfold Node.isLocalImport at hkept
    split
    · rfl
    next params hparams =>
      rw [hparams] at hkept
      split
      next hi => simp [hi] at hkept
      next i hi =>
        rw [if_pos (by simpa [hi] using hkept)]
        rfl
  · refine .inr ⟨.error (.directive "import" (.invalidPath params)), fun _ _ _ => ?_,
      fun _ _ _ _ => ?_⟩
    · simp only [spliceNode, hparams, hi]
    · simp only [spliceNodeWith, hparams, hi]
      rfl
  · exact .inl hasks

private theorem spliceNodeWith_eq {loader : SheetLoader} {chain : List Path}
    {base : Path} {node : Node} {inner : Sheet → List Node → ExceptT Error Option (List Node)}
    (hinner : ∀ {id sheet nodes}, loader.load id base = .ok sheet →
      chain.any sheet.path.same = false →
      inner sheet nodes = answered (spliceFrom loader (chain ++ [sheet.path]) sheet.base nodes)) :
    spliceNodeWith loader.load chain base inner node =
      answered (spliceNode loader chain base node) := by
  rcases asksFor_or_answered node with ⟨i, hasks⟩ | ⟨r, hfrom, hwith⟩
  · rw [spliceNodeWith_of_asks hasks, spliceNode_of_asks hasks]
    refine answered_bind fun sheet hload => ?_
    split
    · rfl
    next hnew =>
      refine answered_bind fun source _ => ?_
      rw [hinner hload (by simpa using hnew), answered_map]
  · rw [hfrom, hwith]

theorem mapM_spliceNodeWith_eq {loader : SheetLoader} {chain : List Path} {base : Path}
    {nodes : List Node} {inner : Sheet → List Node → ExceptT Error Option (List Node)}
    (hinner : ∀ {id sheet nodes}, loader.load id base = .ok sheet →
      chain.any sheet.path.same = false →
      inner sheet nodes = answered (spliceFrom loader (chain ++ [sheet.path]) sheet.base nodes)) :
    nodes.mapM (spliceNodeWith loader.load chain base inner) =
      answered (spliceFrom loader chain base nodes) := by
  induction nodes with
  | nil =>
    rw [spliceFrom]
    rfl
  | cons node nodes ih =>
    rw [List.mapM_cons, spliceFrom_cons, spliceNodeWith_eq hinner, ih]
    exact answered_bind fun spliced _ => answered_bind fun others _ => rfl

/-- Stylesheets stand inside each other no deeper than there are paths left. -/
theorem spliceWithin_eq {loader : SheetLoader} {depth : Nat} {chain : List Path} {base : Path}
    {nodes : List Node} (h : loader.unvisited chain ≤ depth) :
    spliceWithin loader.load depth chain base nodes =
      answered (spliceFrom loader chain base nodes) := by
  have hless : ∀ {id : String} {base : Path} {chain : List Path} {sheet : Sheet},
      loader.load id base = .ok sheet → chain.any sheet.path.same = false →
        loader.unvisited (chain ++ [sheet.path]) < loader.unvisited chain :=
    fun hload hnew => loader.unvisited_lt (loader.path_mem hload) hnew
  induction depth generalizing chain base nodes with
  | zero =>
    refine mapM_spliceNodeWith_eq fun hload hnew => ?_
    have := hless hload hnew
    omega
  | succ depth ih =>
    refine mapM_spliceNodeWith_eq fun hload hnew => ih ?_
    have := hless hload hnew
    omega

theorem bind_eq_answered {α β : Type} {x : ExceptT Error Option α} {f : α → ExceptT Error Option β}
    {r : Except Error β} (h : x >>= f = answered r) :
    (∃ e, x = answered (.error e) ∧ r = .error e) ∨
      ∃ a, x = answered (.ok a) ∧ f a = answered r := by
  match x, h with
  | some (.error e), h =>
    have heq : some (.error e) = some r := h
    exact .inl ⟨e, rfl, (Option.some.inj heq).symm⟩
  | some (.ok a), h => exact .inr ⟨a, rfl, h⟩
  | none, h => cases h

theorem map_eq_answered {α β : Type} {x : ExceptT Error Option α} {f : α → β} {r : Except Error β}
    (h : f <$> x = answered r) : ∃ r', x = answered r' ∧ r'.map f = r := by
  match x, h with
  | some r', h => exact ⟨r', rfl, by cases r' <;> exact Option.some.inj h⟩
  | none, h => cases h

/-- Finitely many of a loader's answers fix a result: it is the same for every loader that gives
them. -/
def FixedBy {α : Type} (load : String → Path → Except Error Sheet)
    (run : SheetLoader → Except Error α) (r : Except Error α) : Prop :=
  ∃ requests : List (String × Path), ∀ loader : SheetLoader,
    (∀ q ∈ requests, loader.load q.1 q.2 = load q.1 q.2) → run loader = r

namespace FixedBy

variable {α β : Type} {load : String → Path → Except Error Sheet}
  {run : SheetLoader → Except Error α}
  {r : Except Error α}

theorem of_eq (h : ∀ loader, run loader = r) : FixedBy load run r :=
  ⟨[], fun loader _ => h loader⟩

private theorem of_load {id : String} {dir : Path} : FixedBy load (·.load id dir) (load id dir) :=
  ⟨[(id, dir)], fun _ hloader => hloader (id, dir) List.mem_cons_self⟩

theorem bind_error {e : Error} {next : SheetLoader → α → Except Error β}
    (h : FixedBy load run (.error e)) :
    FixedBy load (fun loader => run loader >>= next loader) (.error e) := by
  obtain ⟨requests, hrun⟩ := h
  refine ⟨requests, fun loader hloader => ?_⟩
  change run loader >>= _ = _
  rw [hrun loader hloader]
  rfl

theorem bind_ok {a : α} {next : SheetLoader → α → Except Error β} {r' : Except Error β}
    (h : FixedBy load run (.ok a)) (hnext : FixedBy load (next · a) r') :
    FixedBy load (fun loader => run loader >>= next loader) r' := by
  obtain ⟨requests, hrun⟩ := h
  obtain ⟨further, hfurther⟩ := hnext
  refine ⟨requests ++ further, fun loader hloader => ?_⟩
  obtain ⟨hfirst, hsecond⟩ := List.forall_mem_append.1 hloader
  change run loader >>= _ = _
  rw [hrun loader hfirst]
  exact hfurther loader hsecond

theorem map {f : α → β} (h : FixedBy load run r) :
    FixedBy load (fun loader => (run loader).map f) (r.map f) := by
  obtain ⟨requests, hrun⟩ := h
  exact ⟨requests, fun loader hloader => congrArg (Except.map f) (hrun loader hloader)⟩

end FixedBy

section Fixed

variable {load : String → Path → Except Error Sheet} {chain : List Path} {base : Path}
  {inner : Sheet → List Node → ExceptT Error Option (List Node)}

theorem fixedBy_spliceNode {node : Node} {r : Except Error Node}
    (hinner : ∀ {sheet nodes r}, inner sheet nodes = answered r →
      FixedBy load (spliceFrom · (chain ++ [sheet.path]) sheet.base nodes) r)
    (h : spliceNodeWith load chain base inner node = answered r) :
    FixedBy load (spliceNode · chain base node) r := by
  rcases asksFor_or_answered node with ⟨i, hasks⟩ | ⟨r', hfrom, hwith⟩
  · simp only [spliceNode_of_asks hasks]
    rw [spliceNodeWith_of_asks hasks] at h
    have hload : FixedBy load (·.load i.uri base) (load i.uri base) := .of_load
    rcases bind_eq_answered h with ⟨e, hfails, rfl⟩ | ⟨sheet, hsheet, h⟩
    · rw [Option.some.inj hfails] at hload
      exact hload.bind_error
    rw [Option.some.inj hsheet] at hload
    refine hload.bind_ok ?_
    split at h
    next hseen =>
      refine .of_eq fun _ => ?_
      rw [if_pos hseen]
      exact Option.some.inj h
    next hnew =>
      simp only [if_neg hnew]
      rcases bind_eq_answered h with ⟨e, hfails, rfl⟩ | ⟨source, hsource, h⟩
      · rw [Option.some.inj hfails]
        exact .of_eq fun _ => rfl
      · obtain ⟨r', hr', rfl⟩ := map_eq_answered h
        rw [Option.some.inj hsource]
        exact (hinner hr').map
  · rw [hwith] at h
    exact .of_eq fun _ => (hfrom _ _ _).trans (Option.some.inj h)

theorem fixedBy_mapM {nodes : List Node} {r : Except Error (List Node)}
    (hinner : ∀ {sheet nodes r}, inner sheet nodes = answered r →
      FixedBy load (spliceFrom · (chain ++ [sheet.path]) sheet.base nodes) r)
    (h : nodes.mapM (spliceNodeWith load chain base inner) = answered r) :
    FixedBy load (spliceFrom · chain base nodes) r := by
  induction nodes generalizing r with
  | nil =>
    obtain rfl : .ok [] = r := Option.some.inj h
    exact .of_eq fun loader => by rw [spliceFrom]
  | cons node nodes ih =>
    simp only [spliceFrom_cons]
    rw [List.mapM_cons] at h
    rcases bind_eq_answered h with ⟨e, hnode, rfl⟩ | ⟨spliced, hnode, h⟩
    · exact (fixedBy_spliceNode hinner hnode).bind_error
    refine (fixedBy_spliceNode hinner hnode).bind_ok ?_
    rcases bind_eq_answered h with ⟨e, hothers, rfl⟩ | ⟨others, hothers, h⟩
    · exact (ih hothers).bind_error
    obtain rfl : .ok (spliced :: others) = r := Option.some.inj h
    exact (ih hothers).bind_ok (.of_eq fun _ => rfl)

private theorem fixedBy_spliceWithin {depth : Nat} {nodes : List Node}
    {r : Except Error (List Node)} (h : spliceWithin load depth chain base nodes = answered r) :
    FixedBy load (spliceFrom · chain base nodes) r := by
  induction depth generalizing chain base nodes r with
  | zero => exact fixedBy_mapM (fun hnone => by cases hnone) h
  | succ depth ih => exact fixedBy_mapM (fun hinner => ih hinner) h

end Fixed

def SheetLoader.cut (load : String → Path → Except Error Sheet) (requests : List (String × Path)) :
    SheetLoader where
  load id dir := if (id, dir) ∈ requests then load id dir else .error (.unresolvedImport id dir)
  paths := requests.filterMap fun q => (load q.1 q.2).toOption.map Sheet.path
  path_mem {id dir sheet} h := by
    split at h
    next hmem =>
      have hpath : (load id dir).toOption.map Sheet.path = some sheet.path := by rw [h]; rfl
      exact ⟨sheet.path, List.mem_filterMap.2 ⟨_, hmem, hpath⟩, sheet.path.same_self⟩
    next => cases h

/-- Nothing is lost by a loader with finitely many paths. Whatever the answers are, a run that ends
is the run with a loader that knows finitely many of them. -/
theorem exists_cut {load : String → Path → Except Error Sheet} {depth : Nat} {base : Path}
    {nodes : List Node} {r : Except Error (List Node)}
    (h : spliceWithin load depth [] base nodes = answered r) :
    ∃ requests, substituteImports (.cut load requests) base nodes = r := by
  obtain ⟨requests, hrequests⟩ := fixedBy_spliceWithin h
  exact ⟨requests, hrequests _ fun q hq => if_pos hq⟩

theorem SheetLoader.unvisited_le (loader : SheetLoader) (chain : List Path) :
    loader.unvisited chain ≤ loader.paths.length :=
  List.length_filter_le _ _

end Termination

/-- Splicing ends, with stylesheets no deeper inside each other than there are paths. It reports as
circular a chain of imports that comes back to one of its paths, and succeeds exactly if the tree of
the stylesheet has no branch with a path twice, so it misses no chain that comes back. Of what was
written at the root of the entry or of a spliced stylesheet, the local imports are gone and all else
is where it was. -/
theorem substituteImports_exact (loader : SheetLoader) (base : Path) (nodes : List Node) :
    spliceWithin loader.load loader.paths.length [] base nodes =
        answered (substituteImports loader base nodes) ∧
      (∀ path chain,
        substituteImports loader base nodes = .error (.circularImport path chain) →
          (∃ id dir, Asks loader [] base nodes id dir ∧
              loader.load id dir = .error (.circularImport path chain)) ∨
            chain.any path.same = true ∧ AreDistinct chain ∧
              ImportChain loader base nodes (chain ++ [path])) ∧
      (∀ out, substituteImports loader base nodes = .ok out ↔
        ∃ trees, ExpandsImports loader base nodes trees ∧ nodesOf trees = out ∧
          ∀ paths, Branch trees paths → AreDistinct paths) ∧
      (∀ trees, ExpandsImports loader base nodes trees →
        (∀ source part, RootOf nodes trees source part → Settles source (nodesOf part)) ∧
          ∀ chain, ImportChain loader base nodes chain → Branch trees chain) := by
  refine ⟨spliceWithin_eq (loader.unvisited_le []), fun path chain h => ?_,
    fun out => ⟨fun h => ?_, ?_⟩, fun trees htrees =>
      ⟨fun source part hpart => ?_, fun chain hchain => hchain.branch htrees⟩⟩
  · rcases circular_cases List.Pairwise.nil h with hown | ⟨rest, rfl, hseen, hdistinct, hchain⟩
    · exact .inl hown
    · exact .inr ⟨hseen, hdistinct, hchain⟩
  · exact exists_expands List.Pairwise.nil h
  · rintro ⟨trees, hexpands, rfl, hbranch⟩
    exact hexpands.spliceFrom hbranch
  · obtain ⟨dir, hexpands⟩ := hpart.expands htrees
    exact hexpands.settles

def mutualSheets : SheetLoader :=
  .ofList [("a", ⟨⟨"/a"⟩, ⟨"/"⟩, "@import url(b);"⟩), ("b", ⟨⟨"/b"⟩, ⟨"/"⟩, "@import url(a);"⟩)]

theorem mutualSheets_circular :
    substituteImports mutualSheets ⟨"/"⟩ [.atRule "import" "url(a)" []] =
      .error (.circularImport ⟨"/a"⟩ [⟨"/a"⟩, ⟨"/b"⟩]) := by
  have ha : Imports mutualSheets ⟨"/"⟩ (.atRule "import" "url(a)" []) ⟨"a", none, none, []⟩
      ⟨⟨"/a"⟩, ⟨"/"⟩, "@import url(b);"⟩ := ⟨⟨by cbv, by cbv⟩, by cbv⟩
  have hb : Imports mutualSheets ⟨"/"⟩ (.atRule "import" "url(b)" []) ⟨"b", none, none, []⟩
      ⟨⟨"/b"⟩, ⟨"/"⟩, "@import url(a);"⟩ := ⟨⟨by cbv, by cbv⟩, by cbv⟩
  have hreada : parse "@import url(b);" = .ok [.atRule "import" "url(b)" []] := by cbv
  have hreadb : parse "@import url(a);" = .ok [.atRule "import" "url(a)" []] := by cbv
  have hnew : [(⟨"/a"⟩ : Path)].any (Path.same ⟨"/b"⟩) = false := by cbv
  have hseen : [(⟨"/a"⟩ : Path), ⟨"/b"⟩].any (Path.same ⟨"/a"⟩) = true := by cbv
  rw [substituteImports, spliceFrom_cons, spliceNode_of_imports ha, hreada]
  simp only [List.any_nil, Bool.false_eq_true, ↓reduceIte, List.nil_append]
  change ((spliceFrom mutualSheets [⟨"/a"⟩] ⟨"/"⟩ [.atRule "import" "url(b)" []]).map _ >>= _) = _
  rw [spliceFrom_cons, spliceNode_of_imports hb, hreadb, hnew]
  simp only [Bool.false_eq_true, ↓reduceIte, List.cons_append, List.nil_append]
  change (((spliceFrom mutualSheets [⟨"/a"⟩, ⟨"/b"⟩] ⟨"/"⟩
    [.atRule "import" "url(a)" []]).map _ >>= _).map _ >>= _) = _
  rw [spliceFrom_cons, spliceNode_of_imports ha, hseen]
  rfl

theorem substituteImports_exact_mutual :
    substituteImports mutualSheets ⟨"/"⟩ [.atRule "import" "url(a)" []] =
        .error (.circularImport ⟨"/a"⟩ [⟨"/a"⟩, ⟨"/b"⟩]) ∧
      AreDistinct [⟨"/a"⟩, ⟨"/b"⟩] ∧
      ImportChain mutualSheets ⟨"/"⟩ [.atRule "import" "url(a)" []] [⟨"/a"⟩, ⟨"/b"⟩, ⟨"/a"⟩] := by
  refine ⟨mutualSheets_circular, ?_⟩
  rcases (substituteImports_exact mutualSheets ⟨"/"⟩ [.atRule "import" "url(a)" []]).2.1 _ _
    mutualSheets_circular with ⟨id, dir, -, hload⟩ | ⟨-, hdistinct, hchain⟩
  · simp only [mutualSheets, SheetLoader.ofList] at hload
    split at hload <;> cases hload
  · exact ⟨hdistinct, hchain⟩

end UtilityCss
