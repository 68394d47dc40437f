import Mathlib.Data.List.Permutation
import UtilityCss.Proofs.Containment
import UtilityCss.Proofs.SystemShape

/-!
The rules of one class name. All of them have the selector of the class, and their bodies are
printed as they are. Main statement: when reading the printed rules gives those rules back and
nothing else.
-/
namespace UtilityCss

open Text

def Shape.inline : Shape where
  full _ := True
  bare _ := True
  hoist := False
  bare_of_full h := h

mutual

theorem Node.Has.hoisted : ∀ {node : Node}, node.Has .inline → node.hoisted = []
  | .declaration .., _ => by rw [Node.hoisted]
  | .comment _, _ => by rw [Node.hoisted]
  | .rule _ _, h => by
    rw [Node.Has] at h
    rw [Node.hoisted, AllHave.hoistedAll h]
  | .atRule .., h => by
    rw [Node.Has] at h
    rw [Node.hoisted, AllHave.hoistedAll h]
  | .context .., h => by
    rw [Node.Has] at h
    rw [Node.hoisted, AllHave.hoistedAll h.2]
  | .atRoot _, h => by
    rw [Node.Has] at h
    exact h.1.elim

theorem AllHave.hoistedAll : ∀ {nodes : List Node}, AllHave .inline nodes → hoistedAll nodes = []
  | [], _ => by rw [UtilityCss.hoistedAll]
  | node :: nodes, h => by
    rw [AllHave] at h
    rw [UtilityCss.hoistedAll, Node.Has.hoisted h.1, AllHave.hoistedAll h.2]
    rfl

end

/-! ### Printed bodies -/

def IsMarked (s : String) : Prop :=
  ∃ x c, s.toList = x ++ [c, '\n'] ∧ isLineMark c = true

theorem IsMarked.append {s : String} (h : IsMarked s) (before : String) :
    IsMarked (before ++ s) := by
  obtain ⟨x, c, hs, hc⟩ := h
  exact ⟨before.toList ++ x, c, by simp [hs], hc⟩

theorem isMarked_semicolon : IsMarked ";\n" :=
  ⟨[], ';', by decide, by decide⟩

theorem isMarked_curly : IsMarked "\x7d\n" :=
  ⟨[], '\x7d', by decide, by decide⟩

private theorem isMarked_comment : IsMarked "*/\n" :=
  ⟨['*'], '/', by decide, by decide⟩

mutual

private theorem render_isMarked (depth : Nat) : ∀ node : Node,
    node.render depth = "" ∨ IsMarked (node.render depth)
  | .declaration _ none _ => .inl (by rw [Node.render])
  | .declaration _ (some _) _ => .inr (by
    rw [Node.render]
    exact isMarked_semicolon.append _)
  | .rule _ _ => .inr (by
    rw [Node.render]
    exact isMarked_curly.append _)
  | .atRule _ _ nodes => .inr (by
    rw [Node.render]
    refine IsMarked.append ?_ _
    split
    · exact isMarked_semicolon
    · exact isMarked_curly.append _)
  | .comment _ => .inr (by
    rw [Node.render]
    exact isMarked_comment.append _)
  | .context _ nodes => by
    rw [Node.render]
    exact renderAll_isMarked depth nodes
  | .atRoot _ => .inl (by rw [Node.render])

theorem renderAll_isMarked (depth : Nat) : ∀ nodes : List Node,
    renderAll depth nodes = "" ∨ IsMarked (renderAll depth nodes)
  | [] => .inl (by rw [renderAll])
  | node :: nodes => by
    rw [renderAll]
    rcases renderAll_isMarked depth nodes with empty | marked
    · rw [empty, String.append_empty]
      exact render_isMarked depth node
    · exact .inr (marked.append _)

end

def bodyChars (nodes : List Node) : List Char :=
  '\n' :: (renderAll 1 nodes).toList

theorem isBody_bodyChars (nodes : List Node) : Selector.IsBody (bodyChars nodes) := by
  refine ⟨rfl, ?_⟩
  unfold bodyChars
  rcases renderAll_isMarked 1 nodes with hnil | ⟨x, c, hx, hc⟩
  · exact ⟨[], by rw [hnil]; rfl, by simp [IsLine]⟩
  · refine ⟨'\n' :: x ++ [c], by rw [hx]; simp, ?_⟩
    intro d hd
    rw [List.getLast?_concat] at hd
    cases hd
    exact hc

private theorem render_rule (selector : String) (nodes : List Node) :
    (Node.rule selector nodes).render 0 =
      selector ++ " \x7b" ++ String.ofList (bodyChars nodes) ++ "\x7d\n" := by
  apply String.toList_injective
  simp [Node.render, bodyChars, indent]

private theorem toList_renderAll (name : String) (bodies : List (List Node)) :
    (renderAll 0 (bodies.map (.rule ("." ++ escape name)))).toList =
      (Selector.ofName name).blocks (bodies.map bodyChars) := by
  induction bodies with
  | nil => simp [renderAll, Selector.blocks]
  | cons nodes bodies ih =>
    rw [List.map_cons, renderAll, String.toList_append, ih, render_rule]
    simp [Selector.blocks, Selector.block, Selector.ofName, selectorChars_eq]

theorem toList_toCss {name : String} {bodies : List (List Node)}
    (h : AllHave .inline (bodies.map (.rule ("." ++ escape name)))) :
    (toCss (bodies.map (.rule ("." ++ escape name)))).toList =
      (Selector.ofName name).blocks (bodies.map bodyChars) := by
  have queue : renderQueue [] = "" := by rw [renderQueue]
  rw [toCss, h.hoistedAll, queue, String.append_empty, toList_renderAll]

/-! ### The rules of a class name -/

theorem VariantRegistry.Keeps.applyVariant_shell {s : Shape} {r : VariantRegistry} (hr : r.Keeps s)
    {theme : Theme} {v : Variant} (hv : r.Admits v) {depth : Nat} {node node' : Node}
    (h : applyVariant r theme depth v node = some node') :
    ∃ nodes, node' = node.withChildren nodes := by
  have shell : ∀ {root : String} {v : Variant} {kind : VariantKind}, r.kind? root = some kind →
      kind ≠ .compound → ((r.get? root).bind fun d => d.apply node v theme) = some node' →
      ∃ nodes, node' = node.withChildren nodes := by
    intro root v kind hkind hne h
    obtain ⟨d, hd, h⟩ := Option.bind_eq_some_iff.1 h
    refine (hr root d hd).shell ?_ node v theme node' h
    simp only [VariantRegistry.kind?, hd, Option.map_some, Option.some.injEq] at hkind
    rwa [hkind]
  cases v with
  | arbitrary selector relative =>
    rw [applyVariant] at h
    split at h
    · cases h
    · exact Node.withChildren_of_mapChildren? h
  | static root =>
    rw [applyVariant] at h
    exact shell hv (by simp) h
  | functional root value modifier =>
    rw [applyVariant] at h
    exact shell hv (by simp) h
  | compound root modifier inner =>
    rw [applyVariant] at h
    obtain ⟨d, hd, h⟩ := Option.bind_eq_some_iff.1 h
    obtain ⟨isolated, hisolated, h⟩ := Option.bind_eq_some_iff.1 h
    obtain ⟨produced, hproduced, h⟩ := Option.bind_eq_some_iff.1 h
    exact Node.withChildren_of_mapChildren? h

namespace DesignSystem

variable {d : DesignSystem}

private theorem applyVariants_rule {s : Shape} (h : d.variants.Keeps s) {variants : List Variant}
    (hv : ∀ v ∈ variants, d.variants.Admits v) {selector : String} {nodes : List Node}
    {node' : Node} (happly : d.applyVariants variants (.rule selector nodes) = some node') :
    ∃ nodes', node' = .rule selector nodes' := by
  unfold applyVariants at happly
  induction variants generalizing nodes with
  | nil =>
    cases happly
    exact ⟨nodes, rfl⟩
  | cons v vs ih =>
    rw [List.foldlM_cons] at happly
    obtain ⟨first, hfirst, happly⟩ := Option.bind_eq_some_iff.1 happly
    obtain ⟨nodes', rfl⟩ := h.applyVariant_shell (hv v (by simp)) hfirst
    exact ih (fun x hx => hv x (by simp [hx])) happly

theorem raw_of_mem_parse {raw : String} {c : Candidate} (h : c ∈ d.parse raw) : c.raw = raw := by
  obtain ⟨_, _, _, _, _, _, hraw⟩ := Candidate.exists_of_mem_parse h
  exact hraw

theorem generate_class {s : Shape} (h : d.variants.Keeps s) (name : String) :
    ∃ bodies : List (List Node),
      (d.generate [name]).rules = bodies.map (.rule ("." ++ escape name)) := by
  have each : ∀ rule ∈ (d.generate [name]).rules, ∃ nodes, rule =
      .rule ("." ++ escape name) nodes := by
    intro rule hrule
    rw [generate_rules] at hrule
    obtain ⟨r, hr, rfl⟩ := List.mem_map.1 hrule
    obtain ⟨hraw, c, hc, hmade⟩ := exists_reading_of_mem_placedRules hr
    rw [List.mem_singleton.1 hraw] at hc
    obtain ⟨nodes, -, hmade⟩ := List.mem_filterMap.1 hmade
    obtain ⟨node, hnode, hpair⟩ := Option.map_eq_some_iff.1 hmade
    obtain ⟨nodes', rfl⟩ := applyVariants_rule h (fun v hv => admits_of_mem_parse hc hv) hnode
    exact ⟨nodes', by rw [← raw_of_mem_parse hc]; exact (congrArg Prod.fst hpair).symm⟩
  generalize (d.generate [name]).rules = rules at each
  induction rules with
  | nil => exact ⟨[], rfl⟩
  | cons rule rules ih =>
    obtain ⟨nodes, rfl⟩ := each rule (by simp)
    obtain ⟨bodies, rfl⟩ := ih fun x hx => each x (by simp [hx])
    exact ⟨nodes :: bodies, rfl⟩

end DesignSystem

/-! ### Reading the rules back -/

/-- Reading a text gives this many nodes, and all of them are rules with the selector. -/
def ReadsAsRules (css selector : String) (count : Nat) : Prop :=
  ∃ bodies : List (List Node), parse css = .ok (bodies.map (.rule selector)) ∧ bodies.length = count

private theorem exists_bodies {selector : String} {nodes : List Node} {count : Nat}
    (h : nodes.map Node.ruleSelector? = List.replicate count (some selector)) :
    ∃ bodies : List (List Node), nodes = bodies.map (.rule selector) ∧ bodies.length = count := by
  induction nodes generalizing count with
  | nil =>
    cases count with
    | zero => exact ⟨[], rfl, rfl⟩
    | succ => cases h
  | cons node nodes ih =>
    cases count with
    | zero => cases h
    | succ count =>
      obtain ⟨hnode, hnodes⟩ := List.cons.inj h
      obtain ⟨bodies, rfl, rfl⟩ := ih hnodes
      cases node with
      | rule selector' body =>
        cases hnode
        exact ⟨body :: bodies, rfl, rfl⟩
      | _ => cases hnode

theorem readsAsRules_iff (css selector : String) (count : Nat) : ReadsAsRules css selector count ↔
    ∃ r, Reader.read {} css.toList = .ok r ∧ r.Quiet ∧
      r.tops = List.replicate count (some selector) := by
  constructor
  · rintro ⟨bodies, hparse, rfl⟩
    rw [Reader.parse_eq_read] at hparse
    cases hread : Reader.read {} css.toList with
    | error e => simp [hread, bind, Except.bind] at hparse
    | ok r =>
      have hfinish : r.finish = .ok (bodies.map (.rule selector)) := by
        simpa [hread, bind, Except.bind] using hparse
      have all : (bodies.map (Node.rule selector)).reverse.map Node.ruleSelector? =
          List.replicate bodies.length (some selector) := by
        simp [← List.map_reverse, Function.comp_def, Node.ruleSelector?, List.map_const']
      obtain ⟨whole, settled⟩ := Reader.finish_tops hfinish
      rw [all] at settled
      rcases settled with ⟨-, -, none_first⟩ | ⟨inside, tops⟩
      · cases hbodies : bodies.length with
        | zero => simp [hbodies] at none_first
        | succ => simp [hbodies, List.replicate_succ] at none_first
      · exact ⟨r, rfl, ⟨whole, inside⟩, tops.symm⟩
  · rintro ⟨r, hread, quiet, tops⟩
    obtain ⟨nodes, hfinish, hnodes⟩ := quiet.finish
    rw [tops, List.map_reverse, ← List.reverse_replicate, List.reverse_inj] at hnodes
    obtain ⟨bodies, rfl, rfl⟩ := exists_bodies hnodes
    exact ⟨bodies, by rw [Reader.parse_eq_read, hread]; exact hfinish, rfl⟩

theorem Selector.core_ofName (name : String) :
    String.ofList (Selector.ofName name).core = trimEnd ("." ++ escape name) := by
  rw [trimEnd, ← selectorChars_eq]
  rfl

theorem readsAsRules_of_areContained {name : String} {bodies : List (List Char)} {css : String}
    (hcss : css.toList = (Selector.ofName name).blocks bodies)
    (hbodies : ∀ body ∈ bodies, Selector.IsBody body) (h : areContained bodies = true) :
    ReadsAsRules css (trimEnd ("." ++ escape name)) bodies.length := by
  obtain ⟨head, hs⟩ := Selector.exists_readAs name
  have rest : Reader.AtRest {} := ⟨rfl, rfl, rfl⟩
  obtain ⟨r, hread, quiet, tops⟩ := rest.read_contained hs hbodies h
  refine (readsAsRules_iff _ _ _).2 ⟨r, by rw [hcss, hread], quiet, ?_⟩
  rw [tops, Selector.core_ofName]
  exact List.append_nil _

/-- Rules are read back as such only if their bodies are contained, unless a body shows the selector
of the rules around it. -/
theorem areContained_of_readsAsRules {name : String} {bodies : List (List Char)} {css : String}
    (hcss : css.toList = (Selector.ofName name).blocks bodies)
    (hbodies : ∀ body ∈ bodies, Selector.IsBody body)
    (hfree : bodies.length ≤ 1 ∨
      ∀ body ∈ bodies, ¬(trimEnd ("." ++ escape name)).toList <:+: body)
    (h : ReadsAsRules css (trimEnd ("." ++ escape name)) bodies.length) :
    areContained bodies = true := by
  obtain ⟨head, hs⟩ := Selector.exists_readAs name
  obtain ⟨r, hread, quiet, tops⟩ := (readsAsRules_iff _ _ _).1 h
  have rest : Reader.AtRest {} := ⟨rfl, rfl, rfl⟩
  have start : Reader.tops {} = [] := rfl
  rw [← Selector.core_ofName] at hfree tops
  rw [String.toList_ofList] at hfree
  refine rest.areContained_of_read hs hbodies hfree (hcss ▸ hread) quiet ?_ (by simp [tops, start])
  intro selector hselector
  rw [tops] at hselector
  exact List.eq_of_mem_replicate hselector

/-- Over the built-in utilities and variants, the rules of a class name are read back as rules with
the selector of the class if no body takes anything of what stands around it: the last body can be
read, and behind the others nothing is open. Otherwise they are not, unless there are several rules
and the selector itself stands in a body. -/
theorem DesignSystem.generate_contained {d : DesignSystem} (hutilities : d.utilities = .builtin)
    (hvariants : d.variants = .builtin d.theme) (name : String) :
    ∃ bodies : List (List Node),
      (d.generate [name]).rules = bodies.map (.rule ("." ++ escape name)) ∧
      (areContained (bodies.map bodyChars) = true →
        ReadsAsRules (toCss (d.generate [name]).rules) (trimEnd ("." ++ escape name))
          bodies.length) ∧
      (bodies.length ≤ 1 ∨ (∀ nodes ∈ bodies,
          ¬(trimEnd ("." ++ escape name)).toList <:+: bodyChars nodes) →
        ReadsAsRules (toCss (d.generate [name]).rules) (trimEnd ("." ++ escape name))
          bodies.length →
        areContained (bodies.map bodyChars) = true) := by
  have uniform : Shape.inline.Uniform := fun _ h => h
  have has : d.Has .inline :=
    ⟨fun entry hentry c theme nodes h =>
        (Utility.builtin_declare entry (hutilities ▸ hentry) c theme nodes h).has .inline,
      hvariants ▸ VariantRegistry.builtin_keeps uniform d.theme⟩
  obtain ⟨bodies, hrules⟩ := generate_class has.variants name
  have inline := has.generate uniform [name]
  rw [hrules] at inline
  have hcss := toList_toCss inline
  have hbodies : ∀ body ∈ bodies.map bodyChars, Selector.IsBody body := by
    intro body hbody
    obtain ⟨nodes, -, rfl⟩ := List.mem_map.1 hbody
    exact isBody_bodyChars nodes
  refine ⟨bodies, hrules, fun h => ?_, fun hfree h => ?_⟩
  · rw [hrules, ← List.length_map bodyChars]
    exact readsAsRules_of_areContained hcss hbodies h
  · rw [hrules, ← List.length_map bodyChars] at h
    refine areContained_of_readsAsRules hcss hbodies ?_ h
    simpa using hfree

theorem DesignSystem.generate_perm_ownRules (d : DesignSystem) (name : String) :
    (d.generate [name]).rules.Perm ((d.ownRules name).map OwnRule.node) := by
  rw [generate_rules]
  refine ((sortBy_perm _ _).map _).trans (.of_eq ?_)
  rw [List.map_map, show [name].eraseDups = [name] from rfl, List.flatMap_singleton]
  rfl

theorem DesignSystem.generate_contained_inset :
    (ofTheme {}).utilities = .builtin ∧ (ofTheme {}).variants = .builtin (ofTheme {}).theme ∧
    ∃ bodies : List (List Node), bodies.length = 2 ∧
      ((ofTheme {}).generate ["inset-x-[f(1)]"]).rules =
        bodies.map (.rule ("." ++ escape "inset-x-[f(1)]")) ∧
      areContained (bodies.map bodyChars) = true ∧
      ReadsAsRules (toCss ((ofTheme {}).generate ["inset-x-[f(1)]"]).rules)
        (trimEnd ("." ++ escape "inset-x-[f(1)]")) 2 := by
  obtain ⟨bodies, hrules, hreads, -⟩ :=
    generate_contained (d := ofTheme {}) rfl (variants_ofTheme {}) "inset-x-[f(1)]"
  have hown : ((ofTheme {}).ownRules "inset-x-[f(1)]").map
      (fun r => bodyChars (r.node.children?.getD [])) =
        ["\n  inset-inline: f(1);\n".toList, "\n  inset: f(1);\n".toList] := by
    decide +kernel
  have hperm : (bodies.map bodyChars).Perm
      ["\n  inset-inline: f(1);\n".toList, "\n  inset: f(1);\n".toList] := by
    have hnodes := ((ofTheme {}).generate_perm_ownRules "inset-x-[f(1)]").map
      fun rule => bodyChars (rule.children?.getD [])
    rw [hrules, List.map_map, List.map_map] at hnodes
    exact hnodes.trans (.of_eq hown)
  have hcontained : areContained (bodies.map bodyChars) = true := by
    rcases List.perm_pair.1 hperm with hbodies | hbodies
    · rw [hbodies]
      cbv
    · rw [hbodies]
      cbv
  have hlength : bodies.length = 2 := by simpa using hperm.length_eq
  exact ⟨rfl, variants_ofTheme {}, bodies, hlength, hrules, hcontained, hlength ▸ hreads hcontained⟩

/-- A closing bracket in an arbitrary value ends the body of its rule: the printed rule cannot be
read. -/
theorem DesignSystem.generate_breaks_out :
    ((ofTheme {}).generate ["[color:red\x7d]"]).rules =
        [.rule ("." ++ escape "[color:red\x7d]") [.decl "color" "red\x7d"]] ∧
      UtilityCss.parse (toCss ((ofTheme {}).generate ["[color:red\x7d]"]).rules) =
        .error (.text .missingOpening 3 1) ∧
      ¬ReadsAsRules (toCss ((ofTheme {}).generate ["[color:red\x7d]"]).rules)
        (trimEnd ("." ++ escape "[color:red\x7d]")) 1 := by
  let reading : Candidate :=
    ⟨.arbitrary "color" "red\x7d" none, [], false, false, "[color:red\x7d]"⟩
  have hbase : Candidate.parseBase (ofTheme {}).utilities "[color:red\x7d]" =
      [(reading.kind, false)] := by
    have bracket : hasChar '[' "[color:red\x7d]" = true := by decide
    rw [Candidate.parseBase, bracket]
    simp only [Bool.not_true, Bool.and_false, Bool.false_eq_true, if_false]
    cbv
  have hparse : (ofTheme {}).parse "[color:red\x7d]" = [reading] := by
    have segments : segment ':' "[color:red\x7d]" = ["[color:red\x7d]"] := by cbv
    have unmarked : Candidate.stripImportant "[color:red\x7d]" =
        ("[color:red\x7d]", false) := by cbv
    have bare : (ofTheme {}).theme.keyPrefix = none := rfl
    simp [DesignSystem.parse, Candidate.parse, segments, Candidate.dropPrefix?, bare,
      unmarked, hbase, reading]
  have hrule : (ofTheme {}).rulesOf reading =
      [(.rule ("." ++ escape "[color:red\x7d]") [.decl "color" "red\x7d"],
        propertySort [.decl "color" "red\x7d"])] := by
    have usual : (ofTheme {}).important = false := rfl
    simp [rulesOf, declarations, asColor, usual, applyVariants, reading]
  have hgenerate : ((ofTheme {}).generate ["[color:red\x7d]"]).rules =
      [.rule ("." ++ escape "[color:red\x7d]") [.decl "color" "red\x7d"]] := by
    have once : ["[color:red\x7d]"].eraseDups = ["[color:red\x7d]"] := rfl
    have known : (ofTheme {}).isInvalid "[color:red\x7d]" = false := rfl
    simp [generate, once, hparse, known, generatedRules, hrule]
  have hcss : toCss [.rule ("." ++ escape "[color:red\x7d]") [.decl "color" "red\x7d"]] =
      ".\\[color\\:red\\\x7d\\] \x7b\n  color: red\x7d;\n\x7d\n" := by cbv
  have hfails : UtilityCss.parse ".\\[color\\:red\\\x7d\\] \x7b\n  color: red\x7d;\n\x7d\n" =
      .error (.text .missingOpening 3 1) := by cbv
  rw [hgenerate, hcss]
  refine ⟨rfl, hfails, ?_⟩
  rintro ⟨bodies, hread, -⟩
  rw [hfails] at hread
  cases hread

end UtilityCss
