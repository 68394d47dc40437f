import UtilityCss.Proofs.Reading

/-!
Reading the inside of a block. Text inside a block is read as it would be read alone, until a
closing bracket ends the block where the text alone would fail. Blocks, once begun at the top, are
never taken back, so the top level of a tree only grows.
-/
namespace UtilityCss

open Text

def Pending.bare : Pending → Pending
  | .item i => .item { i with opened := none }
  | p => p

def Pending.isWhole : Pending → Bool
  | .item i => i.colon.isSome
  | _ => true

theorem Pending.bare_eq_item {p : Pending} {i : Item} (h : p.bare = (Pending.item i).bare) :
    ∃ opened, p = .item { i with opened } := by
  cases p with
  | item j =>
    refine ⟨j.opened, ?_⟩
    simp only [bare, item.injEq, Item.mk.injEq, and_true] at h
    obtain ⟨htext, hfirst, hcolon⟩ := h
    rw [← htext, ← hfirst, ← hcolon]
  | nothing => simp [bare] at h
  | atRule => simp [bare] at h

namespace Reader

theorem feedAll_cons {r r' : Reader} {l : Lexeme} {ls : List Lexeme} :
    (l :: ls).foldlM feed r = .ok r' ↔ ∃ s, r.feed l = .ok s ∧ ls.foldlM feed s = .ok r' := by
  rw [List.foldlM_cons]
  cases r.feed l <;> simp [bind, Except.bind]

theorem feedAll_append {r r' : Reader} {ls ls' : List Lexeme} :
    (ls ++ ls').foldlM feed r = .ok r' ↔
      ∃ s, ls.foldlM feed r = .ok s ∧ ls'.foldlM feed s = .ok r' := by
  rw [List.foldlM_append]
  cases ls.foldlM feed r <;> simp [bind, Except.bind]

theorem feed_inside {r : Reader} {inner : Bracket} {outer : List Bracket} (l : Lexeme)
    (hb : r.brackets = inner :: outer) :
    r.feed l = .ok
      ({ r with place := r.place.advance l.text.toList }.feedInside inner outer l) := by
  cases r
  cases hb
  rfl

theorem feed_nothing {r : Reader} (l : Lexeme) (hb : r.brackets = []) (hp : r.pending = .nothing) :
    r.feed l = { r with place := r.place.advance l.text.toList }.feedFirst r.place l := by
  cases r
  cases hb
  cases hp
  rfl

theorem feed_atRule {r : Reader} {name params : String} (l : Lexeme) (hb : r.brackets = [])
    (hp : r.pending = .atRule name params) :
    r.feed l = { r with place := r.place.advance l.text.toList }.feedPrelude name params l := by
  cases r
  cases hb
  cases hp
  rfl

theorem feed_item {r : Reader} {i : Item} (l : Lexeme) (hb : r.brackets = [])
    (hp : r.pending = .item i) :
    r.feed l = { r with place := r.place.advance l.text.toList }.feedItem i r.place l := by
  cases r
  cases hb
  cases hp
  rfl

structure Over (base : List Level) (r b : Reader) : Prop where
  levels : b.levels = r.levels ++ base
  nodes : b.nodes = r.nodes
  pending : b.pending.bare = r.pending.bare
  brackets : b.brackets = r.brackets

/-- The answers of two states of which the second has more blocks around it. Under `closes` the
second may go on where the first fails. -/
def Follows (base : List Level) (closes : Prop) : Except Error Reader → Except Error Reader → Prop
  | .ok r, .ok b => Over base r b
  | .ok _, .error _ => False
  | .error _, .ok _ => closes
  | .error _, .error _ => True

variable {base : List Level} {r b : Reader}

theorem Over.extend (h : Over base r b) (text : String) :
    Over base (r.extend text) (b.extend text) := by
  refine ⟨by simp [h.levels], by simp [h.nodes], ?_, by simp [h.brackets]⟩
  have hp := h.pending
  unfold Reader.extend
  cases hr : r.pending with
  | nothing => cases hb : b.pending <;> simp_all [Pending.bare]
  | atRule => cases hb : b.pending <;> simp_all [Pending.bare]
  | item i =>
    rw [hr] at hp
    obtain ⟨opened, hb⟩ := Pending.bare_eq_item hp
    simp [hb, Pending.bare, Item.extend]

theorem feedInside_over (h : Over base r b) (inner : Bracket) (outer : List Bracket) (l : Lexeme) :
    Over base (r.feedInside inner outer l) (b.feedInside inner outer l) := by
  have grown := h.extend l.text
  unfold feedInside
  cases l.kind with
  | opening c => exact ⟨grown.levels, grown.nodes, grown.pending, rfl⟩
  | closing c =>
    by_cases hc : c = inner
    · simp only [if_pos hc]
      have closed : Over base { r.extend l.text with brackets := outer }
          { b.extend l.text with brackets := outer } :=
        ⟨grown.levels, grown.nodes, grown.pending, rfl⟩
      cases outer with
      | cons => exact closed
      | nil =>
        have hp := grown.pending
        cases hr : (r.extend l.text).pending with
        | item i =>
          rw [hr] at hp
          obtain ⟨opened, hb⟩ := Pending.bare_eq_item hp
          simp only [hb]
          exact ⟨grown.levels, grown.nodes, rfl, rfl⟩
        | nothing =>
          cases hb : (b.extend l.text).pending <;> simp_all [Pending.bare]
        | atRule =>
          cases hb : (b.extend l.text).pending <;> simp_all [Pending.bare]
    · simp only [if_neg hc]
      exact grown
  | _ => exact grown

theorem Over.push (h : Over base r b) (node : Node) : Over base (r.push node) (b.push node) :=
  ⟨h.levels, by simp [Reader.push, h.nodes], rfl, h.brackets⟩

theorem Over.openBlock (h : Over base r b) (header : Header) :
    Over base (r.openBlock header) (b.openBlock header) :=
  ⟨by simp [Reader.openBlock, h.levels, h.nodes], rfl, rfl, h.brackets⟩

theorem Over.closeBlock (h : Over base r b) (hl : r.levels ≠ []) :
    Over base r.closeBlock b.closeBlock := by
  have levels := h.levels
  cases hr : r.levels with
  | nil => exact absurd hr hl
  | cons level rest =>
    rw [hr] at levels
    simp only [Reader.closeBlock, hr, levels, List.cons_append]
    exact ⟨rfl, by simp [h.nodes], h.pending, h.brackets⟩

theorem Over.withItem (h : Over base r b) (i : Item) (opened opened' : Option Location)
    (brackets : List Bracket) :
    Over base { r with pending := .item { i with opened }, brackets }
      { b with pending := .item { i with opened := opened' }, brackets } :=
  ⟨h.levels, h.nodes, rfl, rfl⟩

theorem Over.isEmpty_levels (h : Over base r b) (hl : r.levels ≠ []) :
    b.levels.isEmpty = false := by
  simp [h.levels, hl]

theorem follows_close {closes : Prop} (h : Over base r b) (hcloses : r.levels = [] → closes)
    {e e' : Error} {x y : Except Error Reader} (hxy : r.levels ≠ [] → Follows base closes x y) :
    Follows base closes (if r.levels.isEmpty then .error e else x)
      (if b.levels.isEmpty then .error e' else y) := by
  by_cases hl : r.levels = []
  · rw [if_pos (by simp [hl])]
    split
    · trivial
    · cases y with
      | error => trivial
      | ok => exact hcloses hl
  · rw [if_neg (by simp [hl]), if_neg (by simp [h.isEmpty_levels hl])]
    exact hxy hl

theorem feedFirst_over {closes : Prop} (h : Over base r b) (l : Lexeme) (start start' : Location)
    (hcloses : r.levels = [] → l.kind = .closing .curly → closes) :
    Follows base closes (r.feedFirst start l) (b.feedFirst start' l) := by
  unfold feedFirst
  cases hk : l.kind with
  | space => exact h
  | semicolon => exact h
  | comment body => exact h.push _
  | atKeyword name => exact ⟨h.levels, h.nodes, rfl, h.brackets⟩
  | closing c =>
    cases c with
    | curly => exact follows_close h (fun hl => hcloses hl hk) fun hl => h.closeBlock hl
    | _ => exact ⟨h.levels, h.nodes, rfl, h.brackets⟩
  | opening c =>
    cases c with
    | curly => exact h.withItem { text := l.text, blockFirst := true } ..
    | _ => exact h.withItem { text := l.text } ..
  | colon => exact ⟨h.levels, h.nodes, rfl, h.brackets⟩
  | other => exact ⟨h.levels, h.nodes, rfl, h.brackets⟩

theorem feedPrelude_over {closes : Prop} (h : Over base r b) (name params : String) (l : Lexeme)
    (hcloses : r.levels = [] → l.kind = .closing .curly → closes) :
    Follows base closes (r.feedPrelude name params l) (b.feedPrelude name params l) := by
  have grown := h.extend l.text
  unfold feedPrelude
  cases hk : l.kind with
  | semicolon => exact h.push _
  | opening c =>
    cases c with
    | curly => exact h.openBlock _
    | _ => exact ⟨grown.levels, grown.nodes, grown.pending, rfl⟩
  | closing c =>
    cases c with
    | curly => exact follows_close h (fun hl => hcloses hl hk) fun hl => (h.push _).closeBlock hl
    | _ => exact grown
  | _ => exact grown

theorem declaration_cases (i : Item) :
    (i.colon = none ∧ ∀ opened text place, ∃ e,
      Item.declaration { i with opened } text place = .error e) ∨
    (i.colon.isSome = true ∧ ∃ property value important, ∀ opened text place,
      Item.declaration { i with opened } text place =
        .ok (.declaration property value important)) := by
  unfold Item.declaration
  cases hc : i.colon with
  | none => exact .inl ⟨rfl, fun _ _ _ => ⟨_, rfl⟩⟩
  | some => exact .inr ⟨rfl, _, _, _, fun _ _ _ => rfl⟩

theorem follows_declaration {closes : Prop} (i : Item) (opened : Option Location)
    (text text' : String) (place place' : Location) {f g : Node → Reader}
    (hfg : ∀ node, Over base (f node) (g node)) :
    Follows base closes ((i.declaration text place).map f)
      ((Item.declaration { i with opened } text' place').map g) := by
  rcases declaration_cases i with ⟨-, fails⟩ | ⟨-, property, value, important, gives⟩
  · obtain ⟨e, he⟩ := fails i.opened text place
    obtain ⟨e', he'⟩ := fails opened text' place'
    rw [he, he']
    trivial
  · rw [gives i.opened, gives opened]
    exact hfg _

private theorem feedItem_over {closes : Prop} (h : Over base r b) (i : Item)
    (opened : Option Location) (l : Lexeme) (start start' : Location)
    (hcloses : r.levels = [] → l.kind = .closing .curly → closes) :
    Follows base closes (r.feedItem i start l) (b.feedItem { i with opened } start' l) := by
  unfold feedItem
  cases hk : l.kind with
  | semicolon => exact follows_declaration i opened _ _ _ _ h.push
  | opening c =>
    cases c with
    | curly => exact h.openBlock _
    | _ => exact ⟨h.levels, h.nodes, rfl, rfl⟩
  | closing c =>
    cases c with
    | curly =>
      refine follows_close h (fun hl => hcloses hl hk) fun hl => ?_
      exact follows_declaration i opened _ _ _ _ fun node => (h.push node).closeBlock hl
    | _ => exact ⟨h.levels, h.nodes, rfl, h.brackets⟩
  | _ => exact ⟨h.levels, h.nodes, rfl, h.brackets⟩

def Closes (r : Reader) (l : Lexeme) : Prop :=
  r.levels = [] ∧ r.brackets = [] ∧ l.kind = .closing .curly

theorem feed_over (h : Over base r b) (l : Lexeme) :
    Follows base (r.Closes l) (r.feed l) (b.feed l) := by
  have hplace : Over base { r with place := r.place.advance l.text.toList }
      { b with place := b.place.advance l.text.toList } :=
        ⟨h.levels, h.nodes, h.pending, h.brackets⟩
  have hp := h.pending
  cases hb : r.brackets with
  | cons inner outer =>
    rw [feed_inside l hb, feed_inside l (h.brackets.trans hb)]
    exact feedInside_over hplace inner outer l
  | nil =>
    have hb' : b.brackets = [] := h.brackets.trans hb
    have hcloses : r.levels = [] → l.kind = .closing .curly → r.Closes l :=
      fun hl hk => ⟨hl, hb, hk⟩
    cases hr : r.pending with
    | item i =>
      rw [hr] at hp
      obtain ⟨opened, hq⟩ := Pending.bare_eq_item hp
      rw [feed_item l hb hr, feed_item l hb' hq]
      exact feedItem_over hplace i opened l _ _ hcloses
    | nothing =>
      have hq : b.pending = .nothing := by
        cases hq : b.pending <;> simp_all [Pending.bare]
      rw [feed_nothing l hb hr, feed_nothing l hb' hq]
      exact feedFirst_over hplace l _ _ hcloses
    | atRule name params =>
      have hq : b.pending = .atRule name params := by
        cases hq : b.pending <;> simp_all [Pending.bare]
      rw [feed_atRule l hb hr, feed_atRule l hb' hq]
      exact feedPrelude_over hplace name params l hcloses

/-- A run inside of blocks: it goes as the run alone does, it fails, or it meets the bracket that
ends the surrounding block. -/
theorem feedAll_over (ls : List Lexeme) {b' : Reader} (h : Over base r b)
    (hb : ls.foldlM feed b = .ok b') :
    (∃ r', ls.foldlM feed r = .ok r' ∧ Over base r' b') ∨
      ∃ before l after r₁ b₁, ls = before ++ l :: after ∧ before.foldlM feed b = .ok b₁ ∧
        Over base r₁ b₁ ∧ r₁.Closes l := by
  induction ls generalizing r b with
  | nil =>
    cases hb
    exact .inl ⟨r, rfl, h⟩
  | cons l ls ih =>
    obtain ⟨b₁, hbl, hb⟩ := feedAll_cons.1 hb
    have step := feed_over h l
    rw [hbl] at step
    cases hrl : r.feed l with
    | error e =>
      rw [hrl] at step
      exact .inr ⟨[], l, ls, r, b, rfl, rfl, h, step⟩
    | ok r₁ =>
      rw [hrl] at step
      rcases ih step hb with ⟨r', hr', around⟩ | ⟨before, x, after, r₂, b₂, rfl, hb₂, around, hx⟩
      · exact .inl ⟨r', feedAll_cons.2 ⟨r₁, hrl, hr'⟩, around⟩
      · exact .inr ⟨l :: before, x, after, r₂, b₂, rfl, feedAll_cons.2 ⟨b₁, hbl, hb₂⟩, around, hx⟩

theorem feedAll_over_ok (ls : List Lexeme) {r' : Reader} (h : Over base r b)
    (hr : ls.foldlM feed r = .ok r') : ∃ b', ls.foldlM feed b = .ok b' ∧ Over base r' b' := by
  induction ls generalizing r b with
  | nil =>
    cases hr
    exact ⟨b, rfl, h⟩
  | cons l ls ih =>
    obtain ⟨r₁, hrl, hr⟩ := feedAll_cons.1 hr
    have step := feed_over h l
    rw [hrl] at step
    cases hbl : b.feed l with
    | error e =>
      rw [hbl] at step
      exact step.elim
    | ok b₁ =>
      rw [hbl] at step
      obtain ⟨b', hb', around⟩ := ih step hr
      exact ⟨b', feedAll_cons.2 ⟨b₁, hbl, hb'⟩, around⟩

end Reader

end UtilityCss
