import UtilityCss.Directive.Import
import UtilityCss.Directive.Media
import UtilityCss.Proofs.TreeShape
import UtilityCss.Traced

/-!
Placeholders up to the point where directives are collected. Reading makes no contexts, importing
makes contexts that name a directory, and handing on options makes none.
-/
namespace UtilityCss

def Shape.free : Shape where
  full entries := entries.lookup utilitiesKey = none
  bare entries := entries.lookup utilitiesKey = none
  hoist := True
  bare_of_full h := h

/-- A placeholder for the utilities has no children and is not the one for the theme. -/
def Shape.sited : Shape where
  full entries := entries.lookup utilitiesKey = none
  bare entries := entries.lookup utilitiesKey = none ∨ entries.lookup themeKey = none
  hoist := True
  bare_of_full h := .inl h

theorem Shape.free_uniform : Shape.free.Uniform :=
  fun _ h => h

theorem Shape.free_le_sited : Shape.free.Le .sited where
  full _ h := h
  bare _ h := .inl h
  hoist h := h

theorem Except.exists_of_bind {ε α β : Type} {x : Except ε α} {f : α → Except ε β} {b : β}
    (h : x >>= f = .ok b) : ∃ a, x = .ok a ∧ f a = .ok b := by
  cases x with
  | error e => cases h
  | ok a => exact ⟨a, rfl, h⟩

theorem Except.exists_of_map {ε α β : Type} {x : Except ε α} {f : α → β} {b : β}
    (h : x.map f = .ok b) : ∃ a, x = .ok a ∧ f a = b := by
  cases x with
  | error e => cases h
  | ok a => exact ⟨a, rfl, Except.ok.inj h⟩

theorem Except.bind_eq_error {α β ε : Type} {x : Except ε α} {f : α → Except ε β} {e : ε}
    (h : x >>= f = .error e) : x = .error e ∨ ∃ a, x = .ok a ∧ f a = .error e := by
  cases x with
  | error _ =>
    cases h
    exact .inl rfl
  | ok a => exact .inr ⟨a, rfl, h⟩

theorem Except.map_eq_error {α β ε : Type} {x : Except ε α} {f : α → β} {e : ε}
    (h : x.map f = .error e) : x = .error e := by
  cases x with
  | error _ =>
    cases h
    rfl
  | ok _ => cases h

theorem Except.foldlM_keeps {ε α β : Type} {step : β → α → Except ε β} {P : β → Prop} {xs : List α}
    {b b' : β} (hstep : ∀ b, ∀ a ∈ xs, ∀ b', P b → step b a = .ok b' → P b') (hb : P b)
    (h : xs.foldlM step b = .ok b') : P b' := by
  induction xs generalizing b with
  | nil =>
    cases h
    exact hb
  | cons x xs ih =>
    rw [List.foldlM_cons] at h
    obtain ⟨next, hnext, h⟩ := Except.exists_of_bind h
    refine ih (fun b a ha => hstep b a (List.mem_cons_of_mem _ ha)) ?_ h
    exact hstep b x List.mem_cons_self next hb hnext

theorem Traced.exists_of_bind {α β : Type} {x : Traced α} {f : α → Traced β} {b : β}
    (h : (x >>= f).result = .ok b) : ∃ a, x.result = .ok a ∧ (f a).result = .ok b := by
  rw [Traced.result_bind] at h
  exact Except.exists_of_bind h

/-! ### Reading -/

section Reading

variable {s : Shape}

structure Reader.Has (s : Shape) (r : Reader) : Prop where
  nodes : AllHave s r.nodes
  levels : ∀ level ∈ r.levels, AllHave s level.before

namespace Reader

variable {r r' : Reader}

theorem allHave_reverse {nodes : List Node} : AllHave s nodes.reverse ↔ AllHave s nodes := by
  simp [allHave_iff]

theorem header_has (header : Header) {nodes : List Node} (h : AllHave s nodes) :
    (header.node nodes.reverse).Has s := by
  cases header with
  | rule selector => exact allHave_reverse.2 h
  | atRule name params => exact Node.has_ofAtName name params (allHave_reverse.2 h)

theorem Has.push (h : r.Has s) {node : Node} (hnode : node.Has s) : (r.push node).Has s :=
  ⟨⟨hnode, h.nodes⟩, h.levels⟩

theorem Has.openBlock (h : r.Has s) (header : Header) : (r.openBlock header).Has s := by
  refine ⟨trivial, fun level hlevel => ?_⟩
  rcases List.mem_cons.1 hlevel with rfl | hlevel
  · exact h.nodes
  · exact h.levels level hlevel

theorem Has.closeBlock (h : r.Has s) : r.closeBlock.Has s := by
  unfold Reader.closeBlock
  split
  · exact h
  next level levels hlevels =>
    have hall := h.levels
    rw [hlevels] at hall
    exact ⟨⟨header_has level.header h.nodes, hall level List.mem_cons_self⟩,
      fun l hl => hall l (List.mem_cons_of_mem _ hl)⟩

theorem has_declaration {i : Item} {text : String} {place : Location} {node : Node}
    (h : i.declaration text place = .ok node) : node.Has s := by
  unfold Item.declaration at h
  split at h
  · cases h
  next property value _ =>
    generalize splitImportant (Text.trim value) = parts at h
    cases h
    exact trivial

theorem nodes_feedInside (r : Reader) (inner : Bracket) (outer : List Bracket) (l : Lexeme) :
    (r.feedInside inner outer l).nodes = r.nodes ∧
      (r.feedInside inner outer l).levels = r.levels := by
  have hextend : (r.extend l.text).nodes = r.nodes ∧ (r.extend l.text).levels = r.levels := by
    unfold Reader.extend
    split <;> exact ⟨rfl, rfl⟩
  unfold feedInside
  dsimp only
  split
  · exact hextend
  · split
    · split <;> exact hextend
    · exact hextend
  · exact hextend

theorem Has.feedFirst (h : r.Has s) {start : Location} {l : Lexeme}
    (hfeed : r.feedFirst start l = .ok r') : r'.Has s := by
  unfold Reader.feedFirst at hfeed
  split at hfeed
  · cases hfeed
    exact h
  · cases hfeed
    exact h
  · cases hfeed
    exact h.push trivial
  · cases hfeed
    exact ⟨h.nodes, h.levels⟩
  · split at hfeed
    · cases hfeed
    · cases hfeed
      exact h.closeBlock
  all_goals
    cases hfeed
    exact ⟨h.nodes, h.levels⟩

theorem Has.feedPrelude (h : r.Has s) {name prelude : String} {l : Lexeme}
    (hfeed : r.feedPrelude name prelude l = .ok r') : r'.Has s := by
  have hextend : (r.extend l.text).Has s := by
    unfold Reader.extend
    split <;> exact ⟨h.nodes, h.levels⟩
  have hnode : (Node.ofAtName name (Text.trim prelude) []).Has s := Node.has_ofAtName _ _ trivial
  unfold Reader.feedPrelude at hfeed
  split at hfeed
  · cases hfeed
    exact h.push hnode
  · cases hfeed
    exact h.openBlock _
  · split at hfeed
    · cases hfeed
    · cases hfeed
      exact (h.push hnode).closeBlock
  · cases hfeed
    exact ⟨hextend.nodes, hextend.levels⟩
  · cases hfeed
    exact hextend

theorem Has.feedItem (h : r.Has s) {i : Item} {start : Location} {l : Lexeme}
    (hfeed : r.feedItem i start l = .ok r') : r'.Has s := by
  unfold Reader.feedItem at hfeed
  split at hfeed
  · obtain ⟨node, hnode, rfl⟩ := Except.exists_of_map hfeed
    exact h.push (has_declaration hnode)
  · cases hfeed
    exact h.openBlock _
  · split at hfeed
    · cases hfeed
    · obtain ⟨node, hnode, rfl⟩ := Except.exists_of_map hfeed
      exact (h.push (has_declaration hnode)).closeBlock
  all_goals
    cases hfeed
    exact ⟨h.nodes, h.levels⟩

theorem Has.feed (h : r.Has s) {l : Lexeme} (hfeed : r.feed l = .ok r') : r'.Has s := by
  have hplace : ∀ place, Has s { r with place } := fun _ => ⟨h.nodes, h.levels⟩
  unfold Reader.feed at hfeed
  dsimp only at hfeed
  split at hfeed
  next inner outer _ =>
    cases hfeed
    obtain ⟨hnodes, hlevels⟩ := nodes_feedInside
      { r with place := r.place.advance l.text.toList } inner outer l
    refine ⟨?_, ?_⟩
    · rw [hnodes]
      exact h.nodes
    · rw [hlevels]
      exact h.levels
  next =>
    split at hfeed
    · exact (hplace _).feedFirst hfeed
    · exact (hplace _).feedPrelude hfeed
    · exact (hplace _).feedItem hfeed

private theorem closeAll_has {levels : List Level} {nodes : List Node} (hnodes : AllHave s nodes)
    (hlevels : ∀ level ∈ levels, AllHave s level.before) : AllHave s (closeAll levels nodes) := by
  induction levels generalizing nodes with
  | nil => exact hnodes
  | cons level levels ih =>
    refine ih ⟨header_has level.header hnodes, hlevels level List.mem_cons_self⟩ ?_
    exact fun l hl => hlevels l (List.mem_cons_of_mem _ hl)

theorem Has.settle (h : r.Has s) (hsettle : r.settle = .ok r') : r'.Has s := by
  unfold Reader.settle at hsettle
  split at hsettle
  · cases hsettle
    exact h
  · cases hsettle
    exact h.push (Node.has_ofAtName _ _ trivial)
  · obtain ⟨node, hnode, rfl⟩ := Except.exists_of_map hsettle
    exact h.push (has_declaration hnode)

theorem Has.finish (h : r.Has s) {nodes : List Node} (hfinish : r.finish = .ok nodes) :
    AllHave s nodes := by
  obtain ⟨settled, hsettled, rfl⟩ := Except.exists_of_map hfinish
  have hs := h.settle hsettled
  exact allHave_reverse.2 (closeAll_has hs.nodes hs.levels)

end Reader

/-- What is read holds no contexts and no at-root nodes, so it has every shape. -/
theorem parse_has {css : String} {nodes : List Node} (h : parse css = .ok nodes) :
    AllHave s nodes := by
  obtain ⟨r, hr, hfinish⟩ := Except.exists_of_bind h
  have hstart : Reader.Has s {} := ⟨trivial, fun _ h => by simp at h⟩
  exact (Except.foldlM_keeps (fun _ _ _ _ hr hfeed => hr.feed hfeed) hstart hr).finish hfinish

end Reading

/-! ### Imports and options -/

theorem ImportParams.wrap_has {s : Shape} (i : ImportParams) {nodes : List Node}
    (h : AllHave s nodes) : AllHave s (i.wrap nodes) := by
  have hmedia : AllHave s (if i.media.isEmpty then nodes
      else [.atRule "media" (String.intercalate " " i.media) nodes]) := by
    split
    · exact h
    · exact allHave_singleton.2 h
  unfold ImportParams.wrap
  dsimp only
  generalize (if i.media.isEmpty then nodes
    else [.atRule "media" (String.intercalate " " i.media) nodes]) = inner at hmedia
  cases i.supports <;> cases i.layer
  · exact hmedia
  · exact allHave_singleton.2 hmedia
  · exact allHave_singleton.2 hmedia
  · exact allHave_singleton.2 (allHave_singleton.2 hmedia)

/-- Imported stylesheets stand in contexts of their own, which have to be allowed. -/
theorem spliceFrom_has {s : Shape} (hs : s.Uniform) (hbase : ∀ text, s.bare [("base", text)])
    {loader : SheetLoader} {chain : List Path} {base : Path} {nodes nodes' : List Node}
    (hnodes : AllHave s nodes) (h : spliceFrom loader chain base nodes = .ok nodes') :
    AllHave s nodes' := by
  fun_induction spliceFrom loader chain base nodes generalizing nodes' with
  | case1 =>
    cases h
    exact hnodes
  | case2 chain base node rest ih₁ ih₂ =>
    obtain ⟨spliced, hspliced, h⟩ := Except.exists_of_bind h
    obtain ⟨others, hothers, h⟩ := Except.exists_of_bind h
    cases h
    refine ⟨?_, ih₂ hnodes.2 hothers⟩
    dsimp only at hspliced
    split at hspliced
    · cases hspliced
      exact hnodes.1
    split at hspliced
    · cases hspliced
    split at hspliced
    · cases hspliced
      exact hnodes.1
    split at hspliced
    · cases hspliced
    next i _ _ sheet hload =>
      split at hspliced
      · cases hspliced
      next hnew =>
        obtain ⟨content, hcontent, hspliced⟩ := Except.exists_of_bind hspliced
        obtain ⟨inner, hinner, rfl⟩ := Except.exists_of_map hspliced
        have hcontent := ih₁ i sheet hload hnew content (parse_has hcontent) hinner
        exact ⟨hs.allows (hbase sheet.base.text), i.wrap_has hcontent⟩

section Options

variable {s : Shape}

theorem Forwarded.wrap_has {out : Forwarded} {f : List Node → Node}
    (h : (f out.nodes).Has s) : AllHave s (out.wrap f).nodes :=
  allHave_singleton.2 h

mutual

theorem Node.Has.forwardOptions (hs : s.Uniform) :
    ∀ {node : Node} {f : Forwarding} {out : Forwarded}, node.Has s →
      node.forwardOptions f = .ok out → AllHave s out.nodes
  | .comment text, f, out, h, heq => by
    rw [Node.forwardOptions] at heq
    cases heq
    exact allHave_singleton.2 h
  | .context entries nodes, f, out, h, heq => by
    rw [Node.forwardOptions] at heq
    obtain ⟨inner, hinner, rfl⟩ := Except.exists_of_map heq
    exact Forwarded.wrap_has ⟨hs.allows h.1.bare, AllHave.forwardAllOptions hs h.2 hinner⟩
  | .declaration property value important, f, out, h, heq => by
    rw [Node.forwardOptions] at heq
    split at heq <;> cases heq
    exact allHave_singleton.2 h
  | .rule selector nodes, f, out, h, heq => by
    rw [Node.forwardOptions] at heq
    split at heq
    · cases heq
    · obtain ⟨inner, hinner, rfl⟩ := Except.exists_of_map heq
      exact Forwarded.wrap_has (AllHave.forwardAllOptions hs h hinner)
  | .atRoot nodes, f, out, h, heq => by
    rw [Node.forwardOptions] at heq
    split at heq
    · cases heq
    · obtain ⟨inner, hinner, rfl⟩ := Except.exists_of_map heq
      exact Forwarded.wrap_has ⟨h.1, AllHave.forwardAllOptions hs h.2 hinner⟩
  | .atRule name params nodes, f, out, h, heq => by
    rw [Node.forwardOptions] at heq
    split at heq
    · obtain ⟨inner, hinner, rfl⟩ := Except.exists_of_map heq
      exact Forwarded.wrap_has (AllHave.forwardAllOptions hs h hinner)
    · dsimp only at heq
      split at heq
      · obtain ⟨inner, hinner, rfl⟩ := Except.exists_of_map heq
        exact Forwarded.wrap_has (AllHave.forwardAllOptions hs h hinner)
      · split at heq
        all_goals
          obtain ⟨inner, hinner, rfl⟩ := Except.exists_of_map heq
          have hall := AllHave.forwardAllOptions hs h hinner
        · exact hall
        · exact Forwarded.wrap_has hall
    · obtain ⟨inner, hinner, rfl⟩ := Except.exists_of_map heq
      exact Forwarded.wrap_has (AllHave.forwardAllOptions hs h hinner)

theorem AllHave.forwardAllOptions (hs : s.Uniform) :
    ∀ {nodes : List Node} {f : Forwarding} {out : Forwarded}, AllHave s nodes →
      forwardAllOptions f nodes = .ok out → AllHave s out.nodes
  | [], f, out, h, heq => by
    rw [UtilityCss.forwardAllOptions] at heq
    cases heq
    exact h
  | n :: ns, f, out, h, heq => by
    rw [UtilityCss.forwardAllOptions] at heq
    obtain ⟨first, hfirst, heq⟩ := Except.exists_of_bind heq
    obtain ⟨rest, hrest, heq⟩ := Except.exists_of_bind heq
    cases heq
    exact allHave_append.2 ⟨Node.Has.forwardOptions hs h.1 hfirst,
      AllHave.forwardAllOptions hs h.2 hrest⟩

end

end Options

end UtilityCss
