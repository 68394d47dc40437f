import UtilityCss.Proofs.ApplyExpansion
import UtilityCss.Proofs.PrintedTree

/-!
Printing again what was read of a printed tree. Reading gives the nodes that the text shows, and
their text is the same exactly if no at-rule was printed with an empty block: an at-rule without
nodes is printed with a semicolon.
-/
namespace UtilityCss

/-! ### The document behind a text -/

def queueOrder : List Node → List Node
  | [] => []
  | n :: queue => n :: queueOrder (queue ++ n.hoisted)
termination_by queue => sizeAll queue
decreasing_by
  have h := Node.sizeAll_hoisted_lt n
  simp only [sizeAll_append, sizeAll]
  omega

/-- The nodes of a tree and behind them those that it hoists. -/
def document (nodes : List Node) : List Node :=
  nodes ++ queueOrder (hoistedAll nodes)

theorem renderAll_append (depth : Nat) (xs ys : List Node) :
    renderAll depth (xs ++ ys) = renderAll depth xs ++ renderAll depth ys := by
  induction xs with
  | nil => simp [renderAll]
  | cons n xs ih => simp [renderAll, ih, String.append_assoc]

private theorem renderQueue_eq (queue : List Node) :
    renderQueue queue = renderAll 0 (queueOrder queue) := by
  induction queue using renderQueue.induct with
  | case1 => rw [renderQueue, queueOrder, renderAll]
  | case2 n queue ih => rw [renderQueue, queueOrder, renderAll, ih]

theorem toCss_eq (nodes : List Node) : toCss nodes = renderAll 0 (document nodes) := by
  rw [toCss, document, renderAll_append, renderQueue_eq]

theorem document_of_unhoisted {nodes : List Node} (h : hoistedAll nodes = []) :
    document nodes = nodes := by
  rw [document, h, queueOrder, List.append_nil]

private theorem hoistedAll_append (xs ys : List Node) :
    hoistedAll (xs ++ ys) = hoistedAll xs ++ hoistedAll ys := by
  induction xs with
  | nil => rfl
  | cons n xs ih => rw [List.cons_append, hoistedAll, hoistedAll, ih, List.append_assoc]

mutual

theorem Node.hoistedAll_printed (node : Node) : hoistedAll node.printed = [] := by
  match node with
  | .declaration _ none _ => rfl
  | .declaration _ (some _) _ => rfl
  | .rule _ nodes => simp [Node.printed, hoistedAll, Node.hoisted, hoistedAll_printedAll nodes]
  | .atRule _ _ nodes => simp [Node.printed, hoistedAll, Node.hoisted, hoistedAll_printedAll nodes]
  | .comment _ => rfl
  | .context _ nodes => exact hoistedAll_printedAll nodes
  | .atRoot _ => rfl

theorem hoistedAll_printedAll (nodes : List Node) : hoistedAll (printedAll nodes) = [] := by
  match nodes with
  | [] => rfl
  | node :: nodes =>
    rw [printedAll, hoistedAll_append, Node.hoistedAll_printed node, hoistedAll_printedAll nodes]
    rfl

end

/-! ### At-rules with an empty block -/

mutual

def Node.IsSolid : Node → Prop
  | .declaration .. => True
  | .rule _ nodes => AllSolid nodes
  | .atRule _ _ nodes => (renderAll 0 nodes = "" → nodes = []) ∧ AllSolid nodes
  | .comment _ => True
  | .context _ nodes => AllSolid nodes
  | .atRoot _ => True

def AllSolid : List Node → Prop
  | [] => True
  | n :: ns => n.IsSolid ∧ AllSolid ns

end

mutual

instance Node.decidableSolid : (node : Node) → Decidable node.IsSolid
  | .declaration .. => inferInstanceAs (Decidable True)
  | .rule _ nodes => decidableAllSolid nodes
  | .atRule _ _ nodes =>
    have := decidableAllSolid nodes
    inferInstanceAs (Decidable ((renderAll 0 nodes = "" → nodes = []) ∧ AllSolid nodes))
  | .comment _ => inferInstanceAs (Decidable True)
  | .context _ nodes => decidableAllSolid nodes
  | .atRoot _ => inferInstanceAs (Decidable True)

instance decidableAllSolid : (nodes : List Node) → Decidable (AllSolid nodes)
  | [] => inferInstanceAs (Decidable True)
  | n :: ns =>
    have := n.decidableSolid
    have := decidableAllSolid ns
    inferInstanceAs (Decidable (n.IsSolid ∧ AllSolid ns))

end

mutual

theorem Node.printed_eq_nil (node : Node) (depth : Nat) : node.printed = [] ↔
    node.render depth = "" := by
  match node with
  | .declaration _ none _ => simp [Node.printed, Node.render]
  | .declaration _ (some _) _ => simp [Node.printed, Node.render]
  | .rule _ nodes => simp [Node.printed, Node.render]
  | .atRule _ _ nodes => simp [Node.printed, Node.render]
  | .comment _ => simp [Node.printed, Node.render]
  | .context _ nodes => exact printedAll_eq_nil nodes depth
  | .atRoot _ => simp [Node.printed, Node.render]

theorem printedAll_eq_nil (nodes : List Node) (depth : Nat) :
    printedAll nodes = [] ↔ renderAll depth nodes = "" := by
  match nodes with
  | [] => simp [printedAll, renderAll]
  | node :: nodes =>
    rw [printedAll, renderAll, List.append_eq_nil_iff, String.append_eq_empty_iff,
      Node.printed_eq_nil node depth, printedAll_eq_nil nodes depth]

end

theorem isEmpty_printedAll {nodes : List Node} (h : renderAll 0 nodes = "" → nodes = []) :
    (printedAll nodes).isEmpty = nodes.isEmpty := by
  rw [Bool.eq_iff_iff, List.isEmpty_iff, List.isEmpty_iff, printedAll_eq_nil nodes 0]
  refine ⟨h, fun hnodes => ?_⟩
  rw [hnodes, renderAll]

theorem Node.render_ofValue {text : String} (h : IsValue text) (property : String) (depth : Nat) :
    (Node.ofValue property text).render depth =
      indent depth ++ property ++ ": " ++ text ++ ";\n" := by
  rw [Node.ofValue, Node.render]
  conv_rhs => rw [← h.2]
  simp only [importantMark, String.append_assoc]

mutual

theorem Node.render_printed_eq (node : Node) (depth : Nat) (h : node.IsPrintable)
    (hs : node.IsSolid) : renderAll depth node.printed = node.render depth := by
  match node with
  | .declaration _ none _ => rfl
  | .declaration property (some value) important =>
    rw [Node.printed, renderAll, renderAll, String.append_empty, Node.render_ofValue h.2]
    simp [Node.render, importantMark, String.append_assoc]
  | .rule selector nodes =>
    simp only [Node.printed, renderAll, Node.render, String.append_empty,
      renderAll_printedAll_eq nodes (depth + 1) h.2 hs]
  | .atRule name params nodes =>
    simp only [Node.printed, renderAll, Node.render, String.append_empty, isEmpty_printedAll hs.1,
      renderAll_printedAll_eq nodes (depth + 1) h.2.2 hs.2]
  | .comment _ => simp only [Node.printed, renderAll, String.append_empty]
  | .context _ nodes => exact renderAll_printedAll_eq nodes depth h hs
  | .atRoot _ => rfl

theorem renderAll_printedAll_eq (nodes : List Node) (depth : Nat) (h : AllPrintable nodes)
    (hs : AllSolid nodes) : renderAll depth (printedAll nodes) = renderAll depth nodes := by
  match nodes with
  | [] => rfl
  | node :: nodes =>
    rw [printedAll, renderAll_append, renderAll, Node.render_printed_eq node depth h.1 hs.1,
      renderAll_printedAll_eq nodes depth h.2 hs.2]

end

mutual

/-- An empty block is printed again as a semicolon, which is shorter. -/
theorem Node.length_render_printed (node : Node) (depth : Nat) (h : node.IsPrintable)
    (hs : ¬node.IsSolid) : (renderAll depth node.printed).length < (node.render depth).length := by
  match node with
  | .declaration .. => exact absurd trivial hs
  | .rule selector nodes =>
    have hnodes := length_renderAll_printedAll nodes (depth + 1) h.2 hs
    simp only [Node.printed, renderAll, Node.render, String.append_empty, String.length_append]
    omega
  | .atRule name params nodes =>
    by_cases hempty : renderAll 0 nodes = "" → nodes = []
    -- the empty block is further down
    · have hsolid : ¬AllSolid nodes := fun hsolid => hs ⟨hempty, hsolid⟩
      have hne : nodes.isEmpty = false := by
        cases nodes with
        | nil => exact absurd trivial hsolid
        | cons => rfl
      have hnodes := length_renderAll_printedAll nodes (depth + 1) h.2.2 hsolid
      simp only [Node.printed, renderAll, Node.render, isEmpty_printedAll hempty, hne,
        String.append_empty, String.length_append, if_neg Bool.false_ne_true]
      omega
    -- the empty block is the one of this at-rule
    · obtain ⟨htext, hne⟩ := Classical.not_imp.1 hempty
      have hnone := (printedAll_eq_nil nodes 0).2 htext
      have hbody : renderAll (depth + 1) nodes = "" := (printedAll_eq_nil nodes (depth + 1)).1 hnone
      have hends : ";\n".length = 2 ∧ " \x7b\n".length = 3 := by decide
      simp only [Node.printed, renderAll, Node.render, hnone, hbody, List.isEmpty_nil, if_true,
        List.isEmpty_eq_false_iff.2 hne, if_neg Bool.false_ne_true, String.append_empty,
        String.length_append]
      omega
  | .comment _ => exact absurd trivial hs
  | .context _ nodes => exact length_renderAll_printedAll nodes depth h hs
  | .atRoot _ => exact absurd trivial hs

theorem length_renderAll_printedAll (nodes : List Node) (depth : Nat) (h : AllPrintable nodes)
    (hs : ¬AllSolid nodes) :
    (renderAll depth (printedAll nodes)).length < (renderAll depth nodes).length := by
  match nodes with
  | [] => exact absurd trivial hs
  | node :: nodes =>
    rw [printedAll, renderAll_append, renderAll, String.length_append, String.length_append]
    by_cases h₁ : node.IsSolid
    · have h₂ : ¬AllSolid nodes := fun h₂ => hs ⟨h₁, h₂⟩
      rw [Node.render_printed_eq node depth h.1 h₁]
      have hnodes := length_renderAll_printedAll nodes depth h.2 h₂
      omega
    · have hnode := Node.length_render_printed node depth h.1 h₁
      by_cases h₂ : AllSolid nodes
      · rw [renderAll_printedAll_eq nodes depth h.2 h₂]
        omega
      · have hnodes := length_renderAll_printedAll nodes depth h.2 h₂
        omega

end

private theorem toCss_printedAll {nodes : List Node} (h : AllPrintable (document nodes)) :
    toCss (printedAll (document nodes)) = toCss nodes ↔ AllSolid (document nodes) := by
  rw [toCss_eq, document_of_unhoisted (hoistedAll_printedAll _), toCss_eq]
  refine ⟨fun htext => ?_, renderAll_printedAll_eq _ 0 h⟩
  by_contra hs
  have hlength := length_renderAll_printedAll _ 0 h hs
  rw [htext] at hlength
  exact absurd hlength (Nat.lt_irrefl _)

/-- What a compiler prints after any builds can be read if its texts are closed, and it is printed
again as it was exactly if it shows no at-rule with an empty block. -/
theorem compile_reprints {css : String} {options : CompileOptions} {c : Compiler}
    (hc : (compile css options).result = .ok c) (batches : List (List String))
    (h : AllPrintable (document (c.buildAll batches).tree)) :
    parse (c.buildAll batches).css = .ok (printedAll (document (c.buildAll batches).tree)) ∧
      (toCss (printedAll (document (c.buildAll batches).tree)) = (c.buildAll batches).css ↔
        AllSolid (document (c.buildAll batches).tree)) := by
  obtain ⟨r, rfl⟩ := Compilation.compile_iff.1 hc
  rw [r.css_buildAll]
  refine ⟨?_, toCss_printedAll h⟩
  rw [toCss_eq]
  exact parse_renderAll h

def turn : List Node := [.rule "to" [.decl "a" "b"]]

def layeredNodes : List Node :=
  [placeholder themeKey, .atRule "layer" "utilities" [placeholder utilitiesKey]]

def layeredRun : Compilation
    ("@theme \x7b --animate-x: x; @keyframes x \x7b to \x7b a: b; \x7d \x7d \x7d " ++
      "@layer utilities { @tailwind utilities; }")
    { base := ⟨"/"⟩ } :=
  let parsed : List Node :=
    [.atRule "theme" "" [.decl "--animate-x" "x", .atRule "keyframes" "x" turn],
      .atRule "layer" "utilities" [.atRule "tailwind" "utilities" []]]
  let collected : Collected :=
    { theme := animatedTheme turn, themePlaced := true, utilitiesPlaced := true }
  .plain parsed layeredNodes layeredNodes collected (by cbv) (by cbv) (by cbv)
    (by
      have hparams : ThemeParams.parse "" = .ok {} := by cbv
      have hadd : Theme.add {} "--animate-x" "x" {} =
          .ok { entries := [("--animate-x", ⟨"x", {}⟩)] } := rfl
      have hframes : Theme.addKeyframes { entries := [("--animate-x", ⟨"x", {}⟩)] }
          (.atRule "keyframes" "x" turn) = animatedTheme turn := rfl
      have hvariable : Text.startsWith "--" "--animate-x" = true := rfl
      have htheme : Directive.ofName "theme" = .theme := by decide
      have hkeyframes : Directive.ofName "keyframes" = .keyframes := by decide
      have hlayer : Directive.ofName "layer" = .other := by decide
      have htailwind : Directive.ofName "tailwind" = .tailwind := by decide
      have hplace : Text.trim "utilities" = "utilities" := by cbv
      simp [collect, walkExcept, walk, walkFrom, walkNode, Collected.visit, Collected.addTheme,
        Collected.placeUtilities, hparams, htheme, hlayer, htailwind, hkeyframes, hplace,
        Walked.ofAnswer, Theme.addNode, Node.decl, hadd, hframes, hvariable, bind,
        Except.bind, pure,
        Except.pure, Except.map, Node.withChildren, parsed, layeredNodes, collected])
    rfl rfl rfl
    (by
      have hkept : replaceDirective .utility [] layeredNodes = layeredNodes := rfl
      rw [hkept]
      simp [layeredNodes, placeholder, expandAllCalls, Node.expandCalls, callAtRules, bind,
        Except.bind, Except.map, pure, Except.pure])

def layeredTree (rules : List Node) : List Node :=
  [.context [(themeKey, "")] [.rule ":root" [.decl "--animate-x" "x"],
      .atRoot [.atRule "keyframes" "x" turn]],
    .atRule "layer" "utilities" [.context [(utilitiesKey, "")] rules]]

theorem layeredRun_tree : layeredRun.compiler.tree = layeredTree [] := by
  have htheme : (animatedTheme turn).nodes =
      [.rule ":root" [.decl "--animate-x" "x"], .atRoot [.atRule "keyframes" "x" turn]] := by
    have hdeclarations : (animatedTheme turn).declarations = [.decl "--animate-x" "x"] := by cbv
    rw [Theme.nodes, animatedTheme_shows, hdeclarations]
    rfl
  have hplaced : layeredRun.compiler.tree = [.context [(themeKey, "")] (animatedTheme turn).nodes,
      .atRule "layer" "utilities" [placeholder utilitiesKey]] := rfl
  rw [hplaced, htheme]
  rfl

private theorem layeredRun_buildAll (batches : List (List String)) :
    (layeredRun.compiler.buildAll batches).tree =
      layeredTree (layeredRun.system.generate batches.flatten).rules := by
  have hsite : layeredRun.compiler.site = some [1, 0] := by
    change Address.find? (Node.isPlaceholder utilitiesKey) layeredRun.compiler.tree = _
    rw [layeredRun_tree]
    rfl
  rw [layeredRun.tree_buildAll, Compiler.placed, hsite, layeredRun_tree]
  rfl

private theorem layeredTree_document (rules : List Node) (h : hoistedAll rules = []) :
    document (layeredTree rules) = layeredTree rules ++ [.atRule "keyframes" "x" turn] := by
  simp [document, layeredTree, hoistedAll, Node.hoisted, h, queueOrder, turn, Node.decl]

theorem layeredRun_document : document (layeredRun.compiler.buildAll [["[a:b]"]]).tree =
    layeredTree [.rule ("." ++ Text.escape "[a:b]") [.decl "a" "b"]] ++
      [.atRule "keyframes" "x" turn] := by
  have hrules := (layeredRun.system.generate_property rfl rfl rfl).1
  rw [layeredRun_buildAll, List.flatten_singleton, hrules, layeredTree_document _ rfl]

theorem compile_reprints_layer :
    (compile ("@theme \x7b --animate-x: x; @keyframes x \x7b to \x7b a: b; \x7d \x7d \x7d " ++
      "@layer utilities { @tailwind utilities; }") { base := ⟨"/"⟩ }).result =
        .ok layeredRun.compiler ∧
    AllPrintable (document (layeredRun.compiler.buildAll [["[a:b]"]]).tree) ∧
    toCss (printedAll (document (layeredRun.compiler.buildAll [["[a:b]"]]).tree)) =
      (layeredRun.compiler.buildAll [["[a:b]"]]).css := by
  have hprintable : AllPrintable (document (layeredRun.compiler.buildAll [["[a:b]"]]).tree) := by
    rw [layeredRun_document]
    decide +kernel
  have hsolid : AllSolid (document (layeredRun.compiler.buildAll [["[a:b]"]]).tree) := by
    rw [layeredRun_document]
    decide +kernel
  exact ⟨layeredRun.compile_eq, hprintable,
    (compile_reprints layeredRun.compile_eq [["[a:b]"]] hprintable).2.2 hsolid⟩

/-- A layer that no rule has come into is printed with an empty block and read as one without. -/
theorem compile_prints_hollow : ∃ c,
    (compile "@layer utilities { @tailwind utilities; }" { base := ⟨"/"⟩ }).result = .ok c ∧
      c.css = "@layer utilities \x7b\n\x7d\n" ∧ parse c.css = .ok [.atRule "layer" "utilities" []] ∧
        toCss [.atRule "layer" "utilities" []] = "@layer utilities;\n" := by
  let parsed : List Node := [.atRule "layer" "utilities" [.atRule "tailwind" "utilities" []]]
  let nodes : List Node := [.atRule "layer" "utilities" [placeholder utilitiesKey]]
  let run : Compilation "@layer utilities { @tailwind utilities; }" { base := ⟨"/"⟩ } :=
    .plain parsed nodes nodes { utilitiesPlaced := true } (by cbv) (by cbv) (by cbv) rfl
      rfl rfl rfl rfl
  have hcss : run.compiler.css = "@layer utilities \x7b\n\x7d\n" := by
    have htree : run.compiler.tree = nodes := rfl
    have hprinted : toCss nodes = "@layer utilities \x7b\n\x7d\n" := by cbv
    exact (congrArg toCss htree).trans hprinted
  refine ⟨run.compiler, run.compile_eq, hcss, ?_, ?_⟩
  · rw [hcss]
    cbv
  · cbv

end UtilityCss
