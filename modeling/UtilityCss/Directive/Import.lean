import UtilityCss.Node.Reader
import UtilityCss.Remaining
import UtilityCss.Text.Words

/-!
Splicing imported stylesheets. Each one is put where its import stands, inside a context that holds
the directory it came from. Remote imports stay. An import chain never holds one path twice, so
splicing ends whenever the loader answers with finitely many paths.
-/
namespace UtilityCss

structure Sheet where
  /-- which file this is -/
  path : Path
  /-- what relative paths inside it are relative to -/
  base : Path
  content : String

/-- A source of stylesheets. It answers to an id that is asked for from a directory. That it knows
finitely many paths is what lets splicing end, and loses nothing: whatever the answers are, a run
that ends is the run with a loader that knows only those it was given (`exists_cut`), and no other
step asks for stylesheets. -/
structure SheetLoader where
  load : String → Path → Except Error Sheet
  /-- all paths that it can answer with, in some spelling of each -/
  paths : List Path
  path_mem : ∀ {id : String} {base : Path} {sheet : Sheet},
    load id base = .ok sheet → ∃ p ∈ paths, p.same sheet.path

namespace SheetLoader

def missing : SheetLoader where
  load _ _ := .error (.missingLoader "import")
  paths := []
  path_mem h := by simp at h

def ofList (sheets : List (String × Sheet)) : SheetLoader where
  load id base :=
    match sheets.find? fun entry => entry.1 == id with
    | some entry => .ok entry.2
    | none => .error (.unresolvedImport id base)
  paths := sheets.map fun entry => entry.2.path
  path_mem h := by
    split at h
    · next entry hfind =>
      obtain rfl := Except.ok.inj h
      exact ⟨entry.2.path, List.mem_map.2 ⟨entry, List.mem_of_find?_eq_some hfind, rfl⟩,
        entry.2.path.same_self⟩
    · simp at h

def unvisited (loader : SheetLoader) (chain : List Path) : Nat :=
  (loader.paths.filter fun p => !chain.any p.same).length

end SheetLoader

structure ImportParams where
  uri : String
  /-- the layer; a layer without a name is empty -/
  layer : Option String := none
  supports : Option String := none
  media : List String := []

namespace ImportParams

def uri? (word : String) : Option String :=
  (Text.unquote? word).or <|
    (Text.between? "url(" ")" word).map fun inner =>
      let inner := Text.trim inner
      (Text.unquote? inner).getD inner

/-- Take in one word behind the address. What is neither a layer nor a supports condition belongs to
the media query. -/
def addWord (i : ImportParams) (word : String) : ImportParams :=
  if word = "layer" ∧ i.layer.isNone then { i with layer := some "" }
  else
    match Text.between? "layer(" ")" word with
    | some name => { i with layer := some (Text.trim name) }
    | none =>
      match Text.between? "supports(" ")" word with
      | some condition => { i with supports := some (Text.trim condition) }
      | none => { i with media := i.media ++ [word] }

def parse? (params : String) : Option ImportParams :=
  match Text.words params with
  | [] => none
  | first :: rest => (uri? first).map fun uri => rest.foldl addWord { uri }

def isRemote (i : ImportParams) : Bool :=
  ["http://", "https://", "//", "data:"].any fun scheme => Text.startsWith scheme i.uri

/-- Put imported nodes under the conditions of the import: the layer outermost, the media query
innermost. -/
def wrap (i : ImportParams) (nodes : List Node) : List Node :=
  let nodes := if i.media.isEmpty then nodes
    else [.atRule "media" (String.intercalate " " i.media) nodes]
  let nodes := match i.supports with
    | some c => [.atRule "supports" (if Text.startsWith "(" c then c else "(" ++ c ++ ")") nodes]
    | none => nodes
  match i.layer with
  | some layer => [.atRule "layer" layer nodes]
  | none => nodes

end ImportParams

def Node.importParams? : Node → Option String
  | .atRule name params _ => if Directive.ofName name = .importSheet then some params else none
  | _ => none

def ImportParams.splice (i : ImportParams) (sheet : Sheet) (nodes : List Node) : Node :=
  .context [("base", sheet.base.text)] (i.wrap nodes)

theorem SheetLoader.unvisited_lt (loader : SheetLoader) {chain : List Path} {p : Path}
    (hmem : ∃ q ∈ loader.paths, q.same p) (hnew : chain.any p.same = false) :
    loader.unvisited (chain ++ [p]) < loader.unvisited chain := by
  obtain ⟨q, hmem, hsame⟩ := hmem
  refine length_filter_lt (fun x _ hx => ?_) hmem ?_ ?_
  · simp only [List.any_append, Bool.not_or, Bool.and_eq_true] at hx
    exact hx.1
  · simp [Path.same_congr hsame, hnew]
  · simp [hsame]

/-- Splice the imports at the root of a stylesheet. `chain` holds the paths that are being imported,
outermost first. -/
def spliceFrom (loader : SheetLoader) (chain : List Path) (base : Path) :
    List Node → Except Error (List Node)
  | [] => .ok []
  | node :: rest => do
    let spliced ← show Except Error Node from
      match node.importParams? with
      | none => .ok node
      | some params =>
        match ImportParams.parse? params with
        | none => .error (.directive "import" (.invalidPath params))
        | some i =>
          if i.isRemote then .ok node
          else
            match _ : loader.load i.uri base with
            | .error e => .error e
            | .ok sheet =>
              if _ : chain.any sheet.path.same then .error (.circularImport sheet.path chain)
              else
                parse sheet.content >>= fun nodes =>
                  (spliceFrom loader (chain ++ [sheet.path]) sheet.base nodes).map (i.splice sheet)
    let others ← spliceFrom loader chain base rest
    return spliced :: others
termination_by nodes => (loader.unvisited chain, nodes.length)
decreasing_by
  · exact Prod.Lex.left _ _
      (loader.unvisited_lt (loader.path_mem ‹loader.load i.uri base = .ok sheet›)
        (by simpa using ‹¬chain.any sheet.path.same = true›))
  · exact Prod.Lex.right _ (Nat.lt_succ_self _)

def substituteImports (loader : SheetLoader) (base : Path) (nodes : List Node) :
    Except Error (List Node) :=
  spliceFrom loader [] base nodes

end UtilityCss
