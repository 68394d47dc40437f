import UtilityCss.Proofs.TreeShape
import UtilityCss.Proofs.VariantNests

/-!
Laws of trees. A law says of every node what it says of the children and, for an at-rule, something
about its name. Everything that walks over a tree or puts a variant on a rule keeps such a law, as
long as the at-rules that it makes have names that the law accepts. The facts are stated for any
law, since more than one is needed.
-/
namespace UtilityCss

/-- What makes a property of trees a law. The names that every law has to accept are those of the
at-rules that the built-in variants make. -/
structure TreeLaw (P : Node → Prop) (ok : String → Prop) : Prop where
  declaration : ∀ property value important, P (.declaration property value important)
  rule : ∀ selector nodes, P (.rule selector nodes) ↔ ∀ n ∈ nodes, P n
  atRule : ∀ name params nodes, P (.atRule name params nodes) ↔ ok name ∧ ∀ n ∈ nodes, P n
  children : ∀ {node nodes}, P node → node.children? = some nodes → ∀ n ∈ nodes, P n
  withChildren : ∀ {node nodes}, P node → (∀ n ∈ nodes, P n) → P (node.withChildren nodes)
  accepts : ∀ name ∈ ["media", "supports", "starting-style", "slot"], ok name

namespace TreeLaw

variable {P : Node → Prop} {ok : String → Prop}

theorem mapChildren? (law : TreeLaw P ok) {f : List Node → List Node}
    {node node' : Node} (h : P node) (hf : ∀ nodes, (∀ n ∈ nodes, P n) → ∀ n ∈ f nodes, P n)
    (hmap : node.mapChildren? f = some node') : P node' := by
  obtain ⟨nodes, hnodes, rfl⟩ := Option.map_eq_some_iff.1 hmap
  exact law.withChildren h (hf nodes (law.children h hnodes))

theorem inside (law : TreeLaw P ok) {node : Node} (h : P node) :
    ∀ n ∈ node.children?.getD [], P n := by
  cases hchildren : node.children? with
  | none => simp
  | some nodes => exact law.children h hchildren

theorem around (law : TreeLaw P ok) {shell : Shell} {nodes : List Node} (hok : shell.Named ok)
    (h : ∀ n ∈ nodes, P n) : P (shell.around nodes) := by
  cases shell with
  | rule selector => exact (law.rule _ _).2 h
  | atRule name params => exact (law.atRule _ _ _).2 ⟨hok, h⟩

theorem ofSelector (law : TreeLaw P ok) {selector : String} {nodes : List Node}
    (hok : (Shell.ofSelector selector).Named ok) (h : ∀ n ∈ nodes, P n) :
    P (Node.ofSelector selector nodes) := by
  rw [Node.ofSelector_eq_around]
  exact law.around hok h

theorem nestIn (law : TreeLaw P ok) {shells : List Shell} {content : List Node}
    (hok : ∀ shell ∈ shells, shell.Named ok) (h : ∀ n ∈ content, P n) :
    ∀ n ∈ UtilityCss.nestIn shells content, P n := by
  induction shells with
  | nil => exact h
  | cons shell shells ih =>
    rw [List.forall_mem_cons] at hok
    exact List.forall_mem_singleton.2 (law.around hok.1 (ih hok.2))

theorem nests (law : TreeLaw P ok) {nests : List Nest} {content : List Node}
    (hok : ∀ nest ∈ nests, nest.Named ok) (h : ∀ n ∈ content, P n) :
    ∀ n ∈ nests.map fun nest => nest.around content, P n :=
  List.forall_mem_map.2 fun nest hnest =>
    law.around (hok nest hnest).1 (law.nestIn (hok nest hnest).2 h)

theorem named_builtin (law : TreeLaw P ok) {nest : Nest} (h : nest.Named (· ∈ builtinAtRules)) :
    nest.Named ok :=
  h.mono fun name hname => law.accepts name (by
    simp only [builtinAtRules, List.mem_cons] at hname ⊢
    tauto)

theorem setAtRule (law : TreeLaw P ok) {name params params' : String} {nodes nodes' : List Node}
    (h : P (.atRule name params nodes)) (h' : ∀ n ∈ nodes', P n) :
    P (.atRule name params' nodes') :=
  (law.atRule _ _ _).2 ⟨((law.atRule _ _ _).1 h).1, h'⟩

mutual

theorem markImportant (law : TreeLaw P ok) : ∀ {node : Node}, P node → P node.markImportant
  | .declaration property value _, _ => law.declaration property value true
  | .comment _, h => h
  | .rule selector _, h =>
    (law.rule selector _).2 (law.markAllImportant ((law.rule _ _).1 h))
  | .atRule name params _, h =>
    law.setAtRule h (law.markAllImportant ((law.atRule name params _).1 h).2)
  | .context _ _, h =>
    law.withChildren h (law.markAllImportant (law.children h rfl))
  | .atRoot _, h => h

theorem markAllImportant (law : TreeLaw P ok) : ∀ {nodes : List Node}, (∀ n ∈ nodes, P n) →
    ∀ n ∈ UtilityCss.markAllImportant nodes, P n
  | [], h => h
  | _ :: _, h => by
    rw [List.forall_mem_cons] at h
    exact List.forall_mem_cons.2 ⟨law.markImportant h.1, law.markAllImportant h.2⟩

end

mutual

theorem fillLeaves (law : TreeLaw P ok) {content : List Node} (hcontent : ∀ n ∈ content, P n) :
    ∀ {node : Node}, P node → P (node.fillLeaves content)
  | .declaration .., h => h
  | .comment _, h => h
  | .rule selector nodes, h => by
    rw [Node.fillLeaves, law.rule]
    split
    · exact hcontent
    · exact law.fillAllLeaves hcontent ((law.rule _ _).1 h)
  | .atRule name params nodes, h => by
    rw [Node.fillLeaves]
    refine law.setAtRule h ?_
    split
    · exact hcontent
    · exact law.fillAllLeaves hcontent ((law.atRule name params _).1 h).2
  | .context _ _, h => law.withChildren h (law.fillAllLeaves hcontent (law.children h rfl))
  | .atRoot _, h => law.withChildren h (law.fillAllLeaves hcontent (law.children h rfl))

theorem fillAllLeaves (law : TreeLaw P ok) {content : List Node} (hcontent : ∀ n ∈ content, P n) :
    ∀ {nodes : List Node}, (∀ n ∈ nodes, P n) → ∀ n ∈ UtilityCss.fillAllLeaves content nodes, P n
  | [], h => h
  | _ :: _, h => by
    rw [List.forall_mem_cons] at h
    exact List.forall_mem_cons.2 ⟨law.fillLeaves hcontent h.1, law.fillAllLeaves hcontent h.2⟩

end

mutual

theorem mapSelectors? (law : TreeLaw P ok) {f : String → String} :
    ∀ {node node' : Node} {inRule : Bool}, P node →
      node.mapSelectors? f inRule = some node' → P node'
  | .rule selector nodes, node', inRule, h, heq => by
    rw [Node.mapSelectors?] at heq
    split at heq
    · cases heq
    · obtain ⟨nodes', hnodes', rfl⟩ := Option.map_eq_some_iff.1 heq
      exact (law.rule _ _).2 (law.mapAllSelectors? ((law.rule _ _).1 h) hnodes')
  | .atRule name params nodes, node', inRule, h, heq => by
    rw [Node.mapSelectors?] at heq
    obtain ⟨nodes', hnodes', rfl⟩ := Option.map_eq_some_iff.1 heq
    exact law.setAtRule h (law.mapAllSelectors? ((law.atRule _ _ _).1 h).2 hnodes')
  | .context entries nodes, node', inRule, h, heq => by
    rw [Node.mapSelectors?] at heq
    cases heq
    exact h
  | .atRoot nodes, node', inRule, h, heq => by
    rw [Node.mapSelectors?] at heq
    cases heq
    exact h
  | .declaration property value important, node', inRule, h, heq => by
    rw [Node.mapSelectors?] at heq
    cases heq
    exact h
  | .comment text, node', inRule, h, heq => by
    rw [Node.mapSelectors?] at heq
    cases heq
    exact h

theorem mapAllSelectors? (law : TreeLaw P ok) {f : String → String} :
    ∀ {nodes nodes' : List Node} {inRule : Bool}, (∀ n ∈ nodes, P n) →
      mapAllSelectors? f inRule nodes = some nodes' → ∀ n ∈ nodes', P n
  | [], nodes', inRule, h, heq => by
    rw [UtilityCss.mapAllSelectors?] at heq
    cases heq
    exact h
  | n :: ns, nodes', inRule, h, heq => by
    rw [UtilityCss.mapAllSelectors?] at heq
    obtain ⟨first, hfirst, heq⟩ := Option.bind_eq_some_iff.1 heq
    obtain ⟨rest, hrest, heq⟩ := Option.bind_eq_some_iff.1 heq
    cases heq
    rw [List.forall_mem_cons] at h
    exact List.forall_mem_cons.2 ⟨law.mapSelectors? h.1 hfirst, law.mapAllSelectors? h.2 hrest⟩

end

end TreeLaw

/-! ### Replacing directives -/

mutual

def Node.replaced (directive : Directive) (content : List Node) : Node → List Node
  | .atRule name params nodes =>
    if Directive.ofName name = directive then content
    else [.atRule name params (allReplaced directive content nodes)]
  | .rule selector nodes => [.rule selector (allReplaced directive content nodes)]
  | .context entries nodes => [.context entries (allReplaced directive content nodes)]
  | .atRoot nodes => [.atRoot (allReplaced directive content nodes)]
  | .declaration property value important => [.declaration property value important]
  | .comment text => [.comment text]

def allReplaced (directive : Directive) (content : List Node) : List Node → List Node
  | [] => []
  | n :: ns => n.replaced directive content ++ allReplaced directive content ns

end

def replacing (directive : Directive) (content : List Node) : Visitor Unit :=
  fun node _ _ => (if node.directive? = some directive then .replace content else .descend, ())

mutual

private theorem walkNode_replacing (directive : Directive) (content : List Node) (scope : Scope) :
    ∀ node : Node, walkNode (replacing directive content) scope () node =
      ⟨node.replaced directive content, (), false⟩
  | .atRule name params nodes => by
    rw [walkNode, Node.replaced]
    by_cases h : Directive.ofName name = directive
    · simp [replacing, Node.directive?, h, Walked.ofAnswer]
    · simp [replacing, Node.directive?, h, Walked.ofAnswer,
        walkFrom_replacing directive content _ nodes, Node.withChildren]
  | .rule selector nodes => by
    rw [walkNode, Node.replaced]
    simp [replacing, Node.directive?, Walked.ofAnswer, Node.withChildren,
      walkFrom_replacing directive content _ nodes]
  | .context entries nodes => by
    rw [walkNode, Node.replaced, walkFrom_replacing directive content _ nodes]
  | .atRoot nodes => by
    rw [walkNode, Node.replaced]
    simp [replacing, Node.directive?, Walked.ofAnswer, Node.withChildren,
      walkFrom_replacing directive content _ nodes]
  | .declaration property value important => rfl
  | .comment text => rfl

theorem walkFrom_replacing (directive : Directive) (content : List Node) (scope : Scope) :
    ∀ nodes : List Node, walkFrom (replacing directive content) scope () nodes =
      ⟨allReplaced directive content nodes, (), false⟩
  | [] => rfl
  | n :: ns => by
    rw [walkFrom, walkNode_replacing directive content scope n,
      walkFrom_replacing directive content scope ns]
    rfl

end

theorem replaceDirective_eq (directive : Directive) (content nodes : List Node) :
    replaceDirective directive content nodes = allReplaced directive content nodes := by
  change (walkFrom (replacing directive content) {} () nodes).nodes = _
  rw [walkFrom_replacing]

namespace TreeLaw

variable {P : Node → Prop} {ok : String → Prop}

mutual

theorem replaced (law : TreeLaw P ok) {directive : Directive} {content : List Node}
    (hcontent : ∀ n ∈ content, P n) :
    ∀ {node : Node}, P node → ∀ n ∈ node.replaced directive content, P n
  | .atRule name params nodes, h => by
    rw [Node.replaced]
    split
    · exact hcontent
    · refine List.forall_mem_singleton.2 (law.setAtRule h ?_)
      exact law.allReplaced hcontent ((law.atRule _ _ _).1 h).2
  | .rule _ _, h =>
    List.forall_mem_singleton.2 ((law.rule _ _).2 (law.allReplaced hcontent ((law.rule _ _).1 h)))
  | .context _ _, h =>
    List.forall_mem_singleton.2 (law.withChildren h (law.allReplaced hcontent (law.children h rfl)))
  | .atRoot _, h =>
    List.forall_mem_singleton.2 (law.withChildren h (law.allReplaced hcontent (law.children h rfl)))
  | .declaration .., h => List.forall_mem_singleton.2 h
  | .comment _, h => List.forall_mem_singleton.2 h

theorem allReplaced (law : TreeLaw P ok) {directive : Directive} {content : List Node}
    (hcontent : ∀ n ∈ content, P n) :
    ∀ {nodes : List Node}, (∀ n ∈ nodes, P n) → ∀ n ∈ allReplaced directive content nodes, P n
  | [], h => h
  | n :: ns, h => by
    rw [List.forall_mem_cons] at h
    rw [UtilityCss.allReplaced]
    exact List.forall_mem_append.2 ⟨law.replaced hcontent h.1, law.allReplaced hcontent h.2⟩

end

theorem of_get? (law : TreeLaw P ok) {address : Address} {nodes : List Node} {node : Node}
    (h : ∀ n ∈ nodes, P n) (hget : address.get? nodes = some node) : P node := by
  fun_induction Address.get? address nodes with
  | case1 => cases hget
  | case2 nodes i => exact h _ (List.mem_of_getElem? hget)
  | case3 nodes i j rest ih =>
    obtain ⟨parent, hparent, hget⟩ := Option.bind_eq_some_iff.1 hget
    obtain ⟨children, hchildren, hget⟩ := Option.bind_eq_some_iff.1 hget
    exact ih children (law.children (h _ (List.mem_of_getElem? hparent)) hchildren) hget

theorem modify (law : TreeLaw P ok) {f : Node → Node} {address : Address} {nodes : List Node}
    (h : ∀ n ∈ nodes, P n) (hf : ∀ node, address.get? nodes = some node → P (f node)) :
    ∀ n ∈ address.modify f nodes, P n := by
  match address with
  | [] => exact h
  | [i] => exact forall_mem_modify h hf
  | i :: j :: rest =>
    rw [Address.modify_cons_cons]
    refine forall_mem_modify h fun node hnode => ?_
    have hat := h node (List.mem_of_getElem? hnode)
    unfold Node.inside
    split
    next children hchildren =>
      refine law.withChildren hat (law.modify (law.children hat hchildren) fun target htarget => ?_)
      exact hf target (by simp [Address.get?, hnode, hchildren, htarget])
    next => exact hat

end TreeLaw

/-! ### Variants -/

/-- What a variant does to the trees of a law: they keep it, and unless the variant is a compound,
only what is inside the rule changes. -/
structure VariantDefinition.Obeys (P : Node → Prop) (d : VariantDefinition) : Prop where
  holds : ∀ node v theme node', P node → d.apply node v theme = some node' → P node'
  shell : d.kind ≠ .compound → ∀ node v theme node', d.apply node v theme = some node' →
    ∃ nodes, node' = node.withChildren nodes

section Applications

variable {P : Node → Prop} {ok : String → Prop}

theorem Node.withChildren_of_mapChildren? {f : List Node → List Node} {node node' : Node}
    (h : node.mapChildren? f = some node') : ∃ nodes, node' = node.withChildren nodes := by
  obtain ⟨nodes, _, rfl⟩ := Option.map_eq_some_iff.1 h
  exact ⟨f nodes, rfl⟩

theorem VariantDefinition.Obeys.of_mapChildren? (law : TreeLaw P ok) {d : VariantDefinition}
    (h : ∀ node v theme node', d.apply node v theme = some node' → ∃ f : List Node → List Node,
      (∀ nodes, (∀ n ∈ nodes, P n) → ∀ n ∈ f nodes, P n) ∧ node.mapChildren? f = some node') :
    d.Obeys P where
  holds node v theme node' hnode happly := by
    obtain ⟨f, hf, hmap⟩ := h node v theme node' happly
    exact law.mapChildren? hnode hf hmap
  shell _ node v theme node' happly := by
    obtain ⟨f, _, hmap⟩ := h node v theme node' happly
    exact Node.withChildren_of_mapChildren? hmap

theorem mapMadeSelectors_obeys (law : TreeLaw P ok) {f : String → String} {node node' : Node}
    (h : P node) (heq : mapMadeSelectors? f node = some node') : P node' := by
  unfold mapMadeSelectors? at heq
  split at heq
  · exact law.mapSelectors? h heq
  · cases heq

theorem relational_obeys (law : TreeLaw P ok) (mark relation : String) {node node' : Node}
    {v : Variant} {theme : Theme} (h : P node)
    (heq : relational mark relation node v theme = some node') : P node' := by
  unfold relational at heq
  split at heq
  · split at heq
    · cases heq
    · exact mapMadeSelectors_obeys law h heq
  · cases heq

private theorem hasInside_obeys (law : TreeLaw P ok) {node node' : Node} {v : Variant}
    {theme : Theme} (h : P node) (heq : hasInside node v theme = some node') : P node' := by
  unfold hasInside at heq
  split at heq
  · cases heq
  · exact mapMadeSelectors_obeys law h heq

private theorem negateAtRule_obeys (law : TreeLaw P ok) {name params : String} {node : Node}
    (h : negateAtRule? name params = some node) : P node := by
  unfold negateAtRule? at h
  split at h <;> cases h <;> exact (law.atRule _ _ _).2 ⟨law.accepts _ (by simp), by simp⟩

private theorem negate_obeys (law : TreeLaw P ok) {node node' : Node} {v : Variant} {theme : Theme}
    (heq : negate node v theme = some node') : P node' := by
  unfold negate at heq
  split at heq
  · split at heq
    · cases heq
    · obtain ⟨c, _, heq⟩ := Option.bind_eq_some_iff.1 heq
      split at heq
      · cases heq
      · obtain ⟨rules, _, heq⟩ := Option.bind_eq_some_iff.1 heq
        obtain ⟨atRules, hatRules, heq⟩ := Option.bind_eq_some_iff.1 heq
        have hall : ∀ n ∈ rules.map (fun selector => Node.rule selector []) ++ atRules, P n := by
          intro n hn
          rcases List.mem_append.1 hn with hn | hn
          · obtain ⟨selector, _, rfl⟩ := List.mem_map.1 hn
            exact (law.rule _ _).2 (by simp)
          · obtain ⟨⟨name, params⟩, _, hmade⟩ := exists_of_mem_mapM hatRules hn
            exact negateAtRule_obeys law hmade
        split at heq
        next only honly =>
          cases heq
          rw [honly] at hall
          exact List.forall_mem_singleton.1 hall
        next =>
          cases heq
          exact (law.rule _ _).2 hall
  · cases heq

private theorem compound_obeys (law : TreeLaw P ok) {name : String} {apply : VariantApply}
    (h : (name, apply) ∈ compoundApplications) {node node' : Node} {v : Variant} {theme : Theme}
    (hnode : P node) (heq : apply node v theme = some node') : P node' := by
  simp only [compoundApplications, List.mem_cons, Prod.mk.injEq, List.not_mem_nil, or_false] at h
  rcases h with ⟨-, rfl⟩ | ⟨-, rfl⟩ | ⟨-, rfl⟩ | ⟨-, rfl⟩
  · exact negate_obeys law heq
  · exact relational_obeys law _ _ hnode heq
  · exact relational_obeys law _ _ hnode heq
  · exact hasInside_obeys law hnode heq

theorem VariantDefinition.Stock.obeys (law : TreeLaw P ok) {name : String} {d : VariantDefinition}
    (h : d.Stock name) : d.Obeys P := by
  cases h with
  | compound hkind happly =>
    exact ⟨fun _ _ _ _ hnode heq => compound_obeys law happly hnode heq,
      fun hne => absurd hkind hne⟩
  | nests hkind happly =>
    refine .of_mapChildren? law fun node v theme node' heq => ?_
    rcases happly v theme with hnone | ⟨nests, -, hok, hfills⟩
    · simp [hnone node] at heq
    · exact ⟨_, fun nodes => law.nests fun nest hnest => law.named_builtin (hok nest hnest),
        (hfills node).symm.trans heq⟩
  | element hkind selector happly hcompounds =>
    refine .of_mapChildren? law fun node v theme node' heq => ?_
    rw [happly] at heq
    refine ⟨_, fun nodes hnodes => List.forall_mem_singleton.2 ((law.rule _ _).2 ?_), heq⟩
    exact List.forall_mem_cons.2 ⟨law.declaration _ _ _, hnodes⟩

end Applications

namespace VariantRegistry

variable {P : Node → Prop} {ok : String → Prop} {r : VariantRegistry}

def Obeys (P : Node → Prop) (r : VariantRegistry) : Prop :=
  r.Each fun _ d => d.Obeys P

theorem builtin_obeys (law : TreeLaw P ok) (theme : Theme) : (builtin theme).Obeys P :=
  fun name d hd => (builtin_stock theme name d hd).obeys law

theorem Obeys.ofSelectors (law : TreeLaw P ok) (h : r.Obeys P) (name : String)
    {selectors : List String} (hok : ∀ selector ∈ selectors, (Shell.ofSelector selector).Named ok) :
    (r.ofSelectors name selectors).Obeys P := by
  refine Each.set h fun _ => .of_mapChildren? law fun node v theme node' heq => ?_
  exact ⟨_, fun nodes => law.nests (selectorNests_named hok),
    (ofSelectors_fillsEach selectors node).symm.trans heq⟩

theorem Obeys.ofBody (law : TreeLaw P ok) (h : r.Obeys P) (name : String) {body : List Node}
    (hbody : ∀ n ∈ body, P n) : (r.ofBody name body).Obeys P := by
  refine Each.set h fun order =>
    ⟨fun node v theme node' hnode heq => ?_, fun _ node v theme node' heq => ?_⟩
  · cases heq
    cases hmap : node.mapChildren? fun content => replaceDirective .slot content body with
    | none => exact hnode
    | some made =>
      refine law.mapChildren? hnode (fun content hcontent => ?_) hmap
      rw [replaceDirective_eq]
      exact law.allReplaced hcontent hbody
  · cases heq
    cases hmap : node.mapChildren? fun content => replaceDirective .slot content body with
    | none =>
      have hnone : node.children? = none := Option.map_eq_none_iff.1 hmap
      refine ⟨[], ?_⟩
      cases node <;> first | rfl | simp [Node.children?] at hnone
    | some made => exact Node.withChildren_of_mapChildren? hmap

end VariantRegistry

def Variant.Accepted (ok : String → Prop) : Variant → Prop
  | .arbitrary selector _ => (Shell.ofSelector selector).Named ok
  | .compound _ _ inner => inner.Accepted ok
  | .static _ => True
  | .functional .. => True

theorem TreeLaw.slot {P : Node → Prop} {ok : String → Prop} (law : TreeLaw P ok) : P Node.slot :=
  (law.atRule _ _ _).2 ⟨law.accepts _ (by simp), by simp⟩

theorem VariantRegistry.Obeys.produced {P : Node → Prop} {ok : String → Prop} (law : TreeLaw P ok)
    {r : VariantRegistry} (hr : r.Obeys P) {root : String} {d : VariantDefinition}
    (hd : r.get? root = some d) {isolated : Node} (hisolated : P isolated) {v : Variant}
    {theme : Theme} {produced : List Node} (hproduced : (isolated.children?.getD []).mapM
      (fun child => d.apply child v theme) = some produced) : ∀ n ∈ produced, P n := by
  intro n hn
  obtain ⟨child, hchild, hmade⟩ := exists_of_mem_mapM hproduced hn
  exact (hr root d hd).holds child v theme n (law.inside hisolated child hchild) hmade

theorem applyVariant_obeys {P : Node → Prop} {ok : String → Prop} (law : TreeLaw P ok)
    {r : VariantRegistry} (hr : r.Obeys P) {theme : Theme} {v : Variant} (hv : v.Accepted ok)
    {depth : Nat} {node node' : Node} (hnode : P node)
    (h : applyVariant r theme depth v node = some node') : P node' := by
  induction v generalizing depth node node' with
  | arbitrary selector relative =>
    rw [applyVariant] at h
    split at h
    · cases h
    · refine law.mapChildren? hnode (fun nodes hnodes => ?_) h
      exact List.forall_mem_singleton.2 (law.ofSelector hv hnodes)
  | static root | functional root value modifier =>
    rw [applyVariant] at h
    obtain ⟨d, hd, h⟩ := Option.bind_eq_some_iff.1 h
    exact (hr root d hd).holds node _ theme node' hnode h
  | compound root modifier inner ih =>
    rw [applyVariant] at h
    obtain ⟨d, hd, h⟩ := Option.bind_eq_some_iff.1 h
    obtain ⟨isolated, hisolated, h⟩ := Option.bind_eq_some_iff.1 h
    obtain ⟨produced, hproduced, h⟩ := Option.bind_eq_some_iff.1 h
    have hall := hr.produced law hd (ih hv law.slot hisolated) hproduced
    exact law.mapChildren? hnode (fun content hcontent => law.fillAllLeaves hcontent hall) h

end UtilityCss
