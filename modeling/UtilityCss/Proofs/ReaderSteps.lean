import UtilityCss.Proofs.BlockReading

/-!
What one lexeme can do to the reader, and what it does to the top level of the tree: nothing, or it
adds one node there. A rule is added by the bracket that opens its body.
-/
namespace UtilityCss

open Text

def Node.ruleSelector? : Node → Option String
  | .rule selector _ => some selector
  | _ => none

def Header.ruleSelector? : Header → Option String
  | .rule selector => some selector
  | .atRule .. => none

@[simp] theorem Header.ruleSelector?_node (header : Header) (nodes : List Node) :
    (header.node nodes).ruleSelector? = header.ruleSelector? := by
  cases header <;> rfl

def Pending.header? : Pending → Option Header
  | .nothing => none
  | .atRule name params => some (.atRule name (trim params))
  | .item i => some (.rule (trim i.cut))

def Lexeme.Kind.isGap : Lexeme.Kind → Bool
  | .space => true
  | .semicolon => true
  | _ => false

namespace Reader

/-- All that a lexeme can do. -/
inductive Step (r : Reader) (l : Lexeme) (r' : Reader) : Prop where
  /-- it belongs to what is pending -/
  | grows (levels : r'.levels = r.levels) (nodes : r'.nodes = r.nodes)
      (brackets : r'.brackets = l.kind.turn r.brackets)
      (inside : r.brackets ≠ [] ∨ l.kind.isRun = true)
      (pending : r.pending.Grows l.text r'.pending ∨
        r.brackets ≠ [] ∧ r.pending = .nothing ∧ r'.pending = .nothing)
  /-- it stands between two nodes -/
  | skips (levels : r'.levels = r.levels) (nodes : r'.nodes = r.nodes) (was : r.brackets = [])
      (brackets : r'.brackets = []) (pending : r.pending = .nothing)
        (pending' : r'.pending = .nothing)
      (kind : l.kind = .space ∨ l.kind = .semicolon)
  /-- it begins something -/
  | begins (levels : r'.levels = r.levels) (nodes : r'.nodes = r.nodes) (was : r.brackets = [])
      (pending : r.pending = .nothing) (kind : l.kind ≠ .space ∧ l.kind ≠ .closing .curly)
      (pending' : (∃ name, r'.pending = .atRule name "") ∨ ∃ i, r'.pending = .item i ∧
        i.text = l.text)
  /-- it is a comment, or ends what is pending -/
  | adds (node : Node) (selector : node.ruleSelector? = none) (levels : r'.levels = r.levels)
      (nodes : r'.nodes = node :: r.nodes) (was : r.brackets = []) (brackets : r'.brackets = [])
      (kind : (∃ body, l.kind = .comment body) ∨ l.kind = .semicolon)
        (pending : r'.pending = .nothing)
  /-- it opens a body -/
  | opens (header : Header) (head : header ∈ r.pending.header?)
      (levels : r'.levels = ⟨header, r.nodes⟩ :: r.levels) (nodes : r'.nodes = [])
      (was : r.brackets = []) (brackets : r'.brackets = []) (kind : l.kind = .opening .curly)
      (pending : r'.pending = .nothing)
  /-- it closes a body -/
  | closes (level : Level) (nodes : List Node) (whole : r.pending.isWhole = true)
      (levels : r.levels = level :: r'.levels)
      (nodes_eq : r'.nodes = level.header.node nodes :: level.before) (was : r.brackets = [])
      (brackets : r'.brackets = []) (kind : l.kind = .closing .curly)
        (pending : r'.pending = .nothing)

private theorem feedInside_nothing (r : Reader) (inner : Bracket)
    (outer : List Bracket) (l : Lexeme)
    (hp : r.pending = .nothing) (hb : r.brackets = inner :: outer) :
    (r.feedInside inner outer l).levels = r.levels ∧ (r.feedInside inner outer l).nodes = r.nodes ∧
      (r.feedInside inner outer l).brackets = l.kind.turn r.brackets ∧
      (r.feedInside inner outer l).pending = .nothing := by
  cases r
  cases hp
  cases hb
  unfold feedInside
  cases l.kind with
  | opening c => exact ⟨rfl, rfl, rfl, rfl⟩
  | closing c =>
    by_cases hc : c = inner
    · simp [hc, extend, Lexeme.Kind.turn]
    · simp [hc, extend, Lexeme.Kind.turn, Ne.symm hc]
  | _ => exact ⟨rfl, rfl, rfl, rfl⟩

variable {r r' : Reader} {l : Lexeme}

theorem step_of_runs (hl : r.brackets ≠ [] ∨ l.kind.isRun = true) (hp : r.pending ≠ .nothing)
    (hc : l.kind = .colon → ':' ∈ l.text.toList) (h : r.feed l = .ok r') : r.Step l r' := by
  obtain ⟨s, hs, runs⟩ := feed_runs l hp hl hc
  rw [hs] at h
  cases h
  exact .grows runs.levels runs.nodes runs.brackets hl (.inl runs.pending)

theorem step_of_inside {inner : Bracket} {outer : List Bracket} (hb : r.brackets = inner :: outer)
    (hc : l.kind = .colon → ':' ∈ l.text.toList) (h : r.feed l = .ok r') : r.Step l r' := by
  have hne : r.brackets ≠ [] := by simp [hb]
  by_cases hp : r.pending = .nothing
  · rw [feed_inside l hb] at h
    cases h
    have same :=
      feedInside_nothing { r with place := r.place.advance l.text.toList } inner outer l hp hb
    exact .grows same.1 same.2.1 same.2.2.1 (.inl hne) (.inr ⟨hne, hp, same.2.2.2⟩)
  · exact step_of_runs (.inl hne) hp hc h

theorem step_of_nothing (hb : r.brackets = []) (hp : r.pending = .nothing) (h : r.feed l = .ok r') :
    r.Step l r' := by
  rw [feed_nothing l hb hp] at h
  unfold feedFirst at h
  cases hk : l.kind with
  | space => simp only [hk] at h; cases h; exact .skips rfl rfl hb hb hp hp (.inl hk)
  | semicolon => simp only [hk] at h; cases h; exact .skips rfl rfl hb hb hp hp (.inr hk)
  | comment body =>
    simp only [hk] at h
    cases h
    exact .adds (.comment body) rfl rfl rfl hb hb (.inl ⟨body, hk⟩) rfl
  | atKeyword name =>
    simp only [hk] at h
    cases h
    exact .begins rfl rfl hb hp (by simp [hk]) (.inl ⟨name, rfl⟩)
  | closing c =>
    simp only [hk] at h
    cases c with
    | curly =>
      simp only at h
      split at h
      · cases h
      · next hl =>
        cases hlevels : r.levels with
        | nil => simp [hlevels] at hl
        | cons level levels =>
          simp only [closeBlock, hlevels] at h
          cases h
          exact .closes level r.nodes.reverse (by simp [hp, Pending.isWhole]) hlevels
            rfl hb hb hk hp
    | _ => cases h; exact .begins rfl rfl hb hp (by simp [hk]) (.inr ⟨_, rfl, rfl⟩)
  | opening c =>
    simp only [hk] at h
    cases c <;> (cases h; exact .begins rfl rfl hb hp (by simp [hk]) (.inr ⟨_, rfl, rfl⟩))
  | colon =>
    simp only [hk] at h
    cases h
    exact .begins rfl rfl hb hp (by simp [hk]) (.inr ⟨_, rfl, rfl⟩)
  | other =>
    simp only [hk] at h
    cases h
    exact .begins rfl rfl hb hp (by simp [hk]) (.inr ⟨_, rfl, rfl⟩)

theorem kind_of_not_isRun (h : l.kind.isRun = false) :
    l.kind = .semicolon ∨ l.kind = .opening .curly ∨ l.kind = .closing .curly := by
  unfold Lexeme.Kind.isRun at h
  split at h <;> simp_all

theorem step_of_atRule {name params : String} (hb : r.brackets = [])
    (hp : r.pending = .atRule name params) (hc : l.kind = .colon → ':' ∈ l.text.toList)
    (h : r.feed l = .ok r') : r.Step l r' := by
  cases hrun : l.kind.isRun with
  | true => exact step_of_runs (.inr hrun) (by simp [hp]) hc h
  | false =>
    rw [feed_atRule l hb hp] at h
    rcases kind_of_not_isRun hrun with hk | hk | hk
    all_goals simp only [feedPrelude, hk] at h
    · cases h
      exact .adds _ rfl rfl rfl hb hb (.inr hk) rfl
    · cases h
      exact .opens _ (by rw [hp]; rfl) rfl rfl hb hb hk rfl
    · split at h
      · cases h
      · next hl =>
        cases hlevels : r.levels with
        | nil => simp [hlevels] at hl
        | cons level levels =>
          simp only [push, closeBlock, hlevels] at h
          cases h
          exact .closes level _ (by simp [hp, Pending.isWhole]) hlevels rfl hb hb hk rfl

private theorem step_of_item {i : Item} (hb : r.brackets = []) (hp : r.pending = .item i)
    (hc : l.kind = .colon → ':' ∈ l.text.toList) (h : r.feed l = .ok r') : r.Step l r' := by
  cases hrun : l.kind.isRun with
  | true => exact step_of_runs (.inr hrun) (by simp [hp]) hc h
  | false =>
    rw [feed_item l hb hp] at h
    rcases kind_of_not_isRun hrun with hk | hk | hk
    all_goals simp only [feedItem, hk] at h
    · rcases declaration_cases i with ⟨-, fails⟩ | ⟨-, property, value, important, gives⟩
      · obtain ⟨e, he⟩ := fails i.opened i.cut (r.place.advance l.text.toList)
        rw [he] at h
        cases h
      · rw [gives i.opened] at h
        cases h
        exact .adds (.declaration property value important) rfl rfl rfl hb hb (.inr hk) rfl
    · cases h
      exact .opens _ (by rw [hp]; rfl) rfl rfl hb hb hk rfl
    · split at h
      · cases h
      · next hl =>
        cases hlevels : r.levels with
        | nil => simp [hlevels] at hl
        | cons level levels =>
          rcases declaration_cases i with ⟨-, fails⟩ | ⟨hcolon, property, value, important, gives⟩
          · obtain ⟨e, he⟩ := fails i.opened i.text r.place
            rw [he] at h
            cases h
          · rw [gives i.opened] at h
            simp only [Except.map, push, closeBlock, hlevels] at h
            cases h
            exact .closes level _ (by simp [hp, Pending.isWhole, hcolon]) hlevels rfl hb hb hk rfl

theorem feed_step (hc : l.kind = .colon → ':' ∈ l.text.toList) (h : r.feed l = .ok r') :
    r.Step l r' := by
  cases hb : r.brackets with
  | cons inner outer => exact step_of_inside hb hc h
  | nil =>
    cases hp : r.pending with
    | nothing => exact step_of_nothing hb hp h
    | atRule name params => exact step_of_atRule hb hp hc h
    | item i => exact step_of_item hb hp hc h

/-! ### The top level -/

def tree (r : Reader) : List Node :=
  closeAll r.levels r.nodes

def tops (r : Reader) : List (Option String) :=
  r.tree.map Node.ruleSelector?

theorem closeAll_selectors {nodes nodes' : List Node}
    (h : nodes.map Node.ruleSelector? = nodes'.map Node.ruleSelector?) (levels : List Level) :
    (closeAll levels nodes).map Node.ruleSelector? =
      (closeAll levels nodes').map Node.ruleSelector? := by
  induction levels generalizing nodes nodes' with
  | nil => exact h
  | cons level levels ih => exact ih (by simp)

theorem closeAll_inside {levels : List Level} (h : levels ≠ []) (nodes nodes' : List Node) :
    (closeAll levels nodes).map Node.ruleSelector? =
      (closeAll levels nodes').map Node.ruleSelector? := by
  cases levels with
  | nil => exact absurd rfl h
  | cons level levels => exact closeAll_selectors (by simp) levels

theorem Step.tops (h : r.Step l r') :
    r'.tops = r.tops ∨
    r.levels = [] ∧ r.brackets = [] ∧ ∃ selector, r'.tops = selector :: r.tops ∧
      ∀ s ∈ selector, l.kind = .opening .curly ∧ Header.rule s ∈ r.pending.header? := by
  unfold Reader.tops tree
  cases h with
  | grows levels nodes => rw [levels, nodes]; exact .inl rfl
  | skips levels nodes => rw [levels, nodes]; exact .inl rfl
  | begins levels nodes => rw [levels, nodes]; exact .inl rfl
  | adds node selector levels nodes was =>
    rw [levels, nodes]
    by_cases hl : r.levels = []
    · refine .inr ⟨hl, was, none, ?_, by simp⟩
      simp [hl, closeAll, selector]
    · exact .inl (closeAll_inside hl _ _)
  | opens header head levels nodes was _ kind =>
    rw [levels, nodes]
    by_cases hl : r.levels = []
    · refine .inr ⟨hl, was, header.ruleSelector?, ?_, ?_⟩
      · simp [hl, closeAll]
      · intro s hs
        refine ⟨kind, ?_⟩
        cases header with
        | rule selector =>
          cases hs
          exact head
        | atRule => cases hs
    · exact .inl (closeAll_inside hl _ _)
  | closes level nodes _ levels nodes_eq =>
    rw [levels, nodes_eq]
    exact .inl (closeAll_selectors (by simp) r'.levels)

def Exceeds (n : Nat) (r : Reader) : Prop :=
  n < r.tops.length ∨ n = r.tops.length ∧ r.levels = [] ∧ r.pending ≠ .nothing

theorem Step.exceeds {n : Nat} (h : r.Step l r') (hr : r.Exceeds n) : r'.Exceeds n := by
  have grown := h.tops
  rcases hr with hr | ⟨hn, hl, hp⟩
  · rcases grown with same | ⟨-, -, selector, more, -⟩
    · exact .inl (same ▸ hr)
    · exact .inl (by simp only [more, List.length_cons]; omega)
  · rcases grown with same | ⟨-, -, selector, more, -⟩
    · cases h with
      | grows levels _ _ _ pending =>
        rcases pending with pending | ⟨-, was, -⟩
        · exact .inr ⟨same ▸ hn, levels.trans hl, pending.ne_nothing⟩
        · exact absurd was hp
      | skips _ _ _ _ pending => exact absurd pending hp
      | begins _ _ _ pending => exact absurd pending hp
      | adds node _ levels nodes =>
        simp [Reader.tops, tree, levels, hl, nodes, closeAll] at same
      | opens header _ levels nodes =>
        simp [Reader.tops, tree, levels, hl, nodes, closeAll] at same
      | closes level _ _ levels => simp [hl] at levels
    · exact .inl (by simp only [more, List.length_cons]; omega)

structure AtRest (r : Reader) : Prop where
  levels : r.levels = []
  brackets : r.brackets = []
  pending : r.pending = .nothing

theorem AtRest.tops_eq (h : r.AtRest) : r.tops = r.nodes.map Node.ruleSelector? := by
  simp [Reader.tops, tree, h.levels, closeAll]

theorem AtRest.step (hr : r.AtRest) (h : r.Step l r') :
    l.kind.isGap = true ∧ r'.AtRest ∧ r'.nodes = r.nodes ∨ r'.Exceeds r.tops.length := by
  have grown := h.tops
  cases h with
  | grows _ _ _ _ pending =>
    rcases pending with pending | ⟨was, -⟩
    · rw [hr.pending] at pending
      cases pending
    · exact absurd hr.brackets was
  | skips levels nodes _ brackets _ pending kind =>
    refine .inl ⟨?_, ⟨levels.trans hr.levels, brackets, pending⟩, nodes⟩
    rcases kind with kind | kind <;> rw [kind] <;> rfl
  | begins levels nodes _ _ _ pending =>
    refine .inr (.inr ⟨?_, levels.trans hr.levels, ?_⟩)
    · simp [Reader.tops, tree, levels, nodes]
    · rcases pending with ⟨name, pending⟩ | ⟨i, pending, -⟩ <;> simp [pending]
  | adds node _ levels nodes =>
    exact .inr (.inl (by simp [Reader.tops, tree, levels, hr.levels, nodes, closeAll]))
  | opens header _ levels nodes =>
    exact .inr (.inl (by simp [Reader.tops, tree, levels, hr.levels, nodes, closeAll]))
  | closes level _ _ levels => simp [hr.levels] at levels

/-! ### Runs -/

theorem feedAll_tops {ls : List Lexeme} (hc : ∀ l ∈ ls, l.kind = .colon → ':' ∈ l.text.toList)
    (h : ls.foldlM feed r = .ok r') : r.tops <:+ r'.tops := by
  induction ls generalizing r with
  | nil =>
    cases h
    exact List.suffix_refl _
  | cons l ls ih =>
    obtain ⟨s, hs, h⟩ := feedAll_cons.1 h
    refine List.IsSuffix.trans ?_ (ih (fun x hx => hc x (by simp [hx])) h)
    rcases (feed_step (hc l (by simp)) hs).tops with same | ⟨-, -, selector, more, -⟩
    · exact same ▸ List.suffix_rfl
    · exact more ▸ List.suffix_cons ..

private theorem feedAll_exceeds {n : Nat} {ls : List Lexeme}
    (hc : ∀ l ∈ ls, l.kind = .colon → ':' ∈ l.text.toList) (h : ls.foldlM feed r = .ok r')
    (hr : r.Exceeds n) : r'.Exceeds n := by
  induction ls generalizing r with
  | nil =>
    cases h
    exact hr
  | cons l ls ih =>
    obtain ⟨s, hs, h⟩ := feedAll_cons.1 h
    exact ih (fun x hx => hc x (by simp [hx])) h ((feed_step (hc l (by simp)) hs).exceeds hr)

theorem AtRest.feedAll {ls : List Lexeme} (hc : ∀ l ∈ ls, l.kind = .colon → ':' ∈ l.text.toList)
    (hr : r.AtRest) (h : ls.foldlM feed r = .ok r') :
    (∀ l ∈ ls, l.kind.isGap = true) ∨ r'.Exceeds r.tops.length := by
  induction ls generalizing r with
  | nil => exact .inl (by simp)
  | cons l ls ih =>
    obtain ⟨s, hs, h⟩ := feedAll_cons.1 h
    have hc' : ∀ x ∈ ls, x.kind = .colon → ':' ∈ x.text.toList := fun x hx => hc x (by simp [hx])
    rcases hr.step (feed_step (hc l (by simp)) hs) with ⟨gap, rest, nodes⟩ | more
    · have same : s.tops = r.tops := by rw [rest.tops_eq, hr.tops_eq, nodes]
      rcases ih hc' rest h with gaps | more
      · exact .inl (by simpa [gap] using gaps)
      · exact .inr (same ▸ more)
    · exact .inr (feedAll_exceeds hc' h more)

/-! ### The end of the text -/

theorem finish_of_isWhole (h : r.pending.isWhole = true) : ∃ nodes, r.finish = .ok nodes := by
  unfold finish settle
  cases hp : r.pending with
  | nothing => exact ⟨_, rfl⟩
  | atRule name params => exact ⟨_, rfl⟩
  | item i =>
    rw [hp] at h
    rcases declaration_cases i with ⟨hcolon, -⟩ | ⟨-, property, value, important, gives⟩
    · simp [Pending.isWhole, hcolon] at h
    · have given : i.declaration i.text r.place = .ok (.declaration property value important) :=
        gives i.opened _ _
      dsimp only
      rw [given]
      exact ⟨_, rfl⟩

theorem finish_tops {nodes : List Node} (h : r.finish = .ok nodes) : r.pending.isWhole = true ∧
    (r.levels = [] ∧ r.pending ≠ .nothing ∧
        nodes.reverse.map Node.ruleSelector? = none :: r.tops ∨
      (r.levels ≠ [] ∨ r.pending = .nothing) ∧ nodes.reverse.map Node.ruleSelector? = r.tops) := by
  have pushed : ∀ node : Node, node.ruleSelector? = none → r.pending ≠ .nothing →
      (closeAll (r.push node).levels (r.push node).nodes).reverse = nodes →
      r.levels = [] ∧ r.pending ≠ .nothing ∧
          nodes.reverse.map Node.ruleSelector? = none :: r.tops ∨
        (r.levels ≠ [] ∨ r.pending = .nothing) ∧ nodes.reverse.map Node.ruleSelector? = r.tops := by
    rintro node hnode hp rfl
    rw [List.reverse_reverse]
    by_cases hl : r.levels = []
    · exact .inl ⟨hl, hp, by simp [tops, tree, push, hl, closeAll, hnode]⟩
    · exact .inr ⟨.inl hl, closeAll_inside hl _ _⟩
  unfold finish settle at h
  cases hp : r.pending with
  | nothing =>
    simp only [hp] at h
    cases h
    exact ⟨rfl, .inr ⟨.inr rfl, by simp [tops, tree]⟩⟩
  | atRule name params =>
    simp only [hp] at h
    rw [← hp]
    exact ⟨by simp [hp, Pending.isWhole],
      pushed _ rfl (by simp [hp]) (by simpa [Except.map] using h)⟩
  | item i =>
    simp only [hp] at h
    rw [← hp]
    rcases declaration_cases i with ⟨-, fails⟩ | ⟨hcolon, property, value, important, gives⟩
    · obtain ⟨e, he⟩ := fails i.opened i.text r.place
      rw [he] at h
      cases h
    · rw [gives i.opened] at h
      exact ⟨by simp [hp, Pending.isWhole, hcolon],
        pushed (.declaration property value important) rfl (by simp [hp])
          (by simpa [Except.map] using h)⟩

end Reader

end UtilityCss
