import UtilityCss.Node.Reader

/-!
How the reader takes a run of text. Text that begins or continues something pending is kept as it
was written; only brackets are counted. White space between two nodes leaves no trace but the place.
-/
namespace UtilityCss

open Text

/-- The brackets that are open behind a lexeme. A closing bracket that is not awaited counts as
text. -/
def Lexeme.Kind.turn (brackets : List Bracket) : Lexeme.Kind → List Bracket
  | .opening b => b :: brackets
  | .closing b => if brackets.head? = some b then brackets.tail else brackets
  | _ => brackets

def Lexeme.Kind.isRun : Lexeme.Kind → Bool
  | .semicolon => false
  | .opening .curly => false
  | .closing .curly => false
  | _ => true

def Lexeme.Kind.isItemStart : Lexeme.Kind → Bool
  | .space => false
  | .comment _ => false
  | .atKeyword _ => false
  | kind => kind.isRun

/-- The brackets that are open behind some lexemes, or `none` if one of them stands outside of
brackets and may end what is pending. -/
def bracketsBehind : List Bracket → List Lexeme → Option (List Bracket)
  | brackets, [] => some brackets
  | brackets, l :: ls =>
    if brackets ≠ [] ∨ l.kind.isRun = true then bracketsBehind (l.kind.turn brackets) ls else none

theorem bracketsBehind_cons {brackets behind : List Bracket} {l : Lexeme} {ls : List Lexeme} :
    bracketsBehind brackets (l :: ls) = some behind ↔
      (brackets ≠ [] ∨ l.kind.isRun = true) ∧
        bracketsBehind (l.kind.turn brackets) ls = some behind := by
  rw [bracketsBehind]
  split
  next h => simp [h]
  next h => simp [h]

theorem bracketsBehind_append (brackets : List Bracket) (ls ls' : List Lexeme) :
    bracketsBehind brackets (ls ++ ls') =
      (bracketsBehind brackets ls).bind (bracketsBehind · ls') := by
  induction ls generalizing brackets with
  | nil => rfl
  | cons l ls ih =>
    simp only [List.cons_append, bracketsBehind, ih]
    split <;> rfl

theorem bracketsBehind_of_isRun {ls : List Lexeme} (h : ∀ l ∈ ls, l.kind.isRun = true)
    (brackets : List Bracket) :
    bracketsBehind brackets ls = some (ls.foldl (fun bs l => l.kind.turn bs) brackets) := by
  induction ls generalizing brackets with
  | nil => rfl
  | cons l ls ih =>
    rw [bracketsBehind_cons]
    exact ⟨.inr (h l (by simp)), ih (fun x hx => h x (by simp [hx])) _⟩

def textOf (ls : List Lexeme) : String :=
  ls.foldr (fun l s => l.text ++ s) ""

@[simp] theorem textOf_nil : textOf [] = "" := rfl

@[simp] theorem textOf_cons (l : Lexeme) (ls : List Lexeme) :
    textOf (l :: ls) = l.text ++ textOf ls := rfl

theorem textOf_append (ls ls' : List Lexeme) : textOf (ls ++ ls') = textOf ls ++ textOf ls' := by
  induction ls with
  | nil => simp
  | cons l ls ih => simp [ih, String.append_assoc]

inductive Pending.Grows (text : String) : Pending → Pending → Prop where
  | atRule (name params : String) : Grows text (.atRule name params) (.atRule name (params ++ text))
  | item {i j : Item} (text_eq : j.text = i.text ++ text)
      (first : i.blockFirst = false → j.blockFirst = false)
      (colon : ∀ p v, i.colon = some (p, v) → j.colon = some (p, v ++ text))
      (none : i.colon = none → ':' ∉ text.toList → j.colon = none) :
      Grows text (.item i) (.item j)

theorem Pending.Grows.trans {a b : String} {p q s : Pending} (h₁ : p.Grows a q) (h₂ : q.Grows b s) :
    p.Grows (a ++ b) s := by
  cases h₁ with
  | atRule name params =>
    cases h₂ with
    | atRule => rw [String.append_assoc]; exact .atRule ..
  | item text_eq first colon none =>
    cases h₂ with
    | item text_eq' first' colon' none' =>
      refine .item ?_ (first' ∘ first) ?_ ?_
      · rw [text_eq', text_eq, String.append_assoc]
      · intro p v h
        rw [colon' p _ (colon p v h), String.append_assoc]
      · intro h hfree
        simp only [String.toList_append, List.mem_append, not_or] at hfree
        exact none' (none h hfree.1) hfree.2

theorem Pending.Grows.refl {p : Pending} (h : p ≠ .nothing) : p.Grows "" p := by
  cases p with
  | nothing => exact absurd rfl h
  | atRule name params =>
    have grown : Pending.Grows "" (.atRule name params) _ := .atRule name params
    simpa using grown
  | item i => exact .item (by simp) id (by simp) (fun h _ => h)

theorem Pending.Grows.ne_nothing {text : String} {p q : Pending} (h : p.Grows text q) :
    q ≠ .nothing := by
  cases h <;> simp

theorem Pending.grows_extend {r : Reader} (h : r.pending ≠ .nothing) (text : String) :
    r.pending.Grows text (r.extend text).pending := by
  obtain ⟨levels, nodes, pending, brackets, place⟩ := r
  cases pending with
  | nothing => exact absurd rfl h
  | atRule name params => exact .atRule ..
  | item i => exact .item rfl id (by simp_all [Item.extend]) (by simp_all [Item.extend])

theorem takeWhile_append_stop {p : Char → Bool} {cs rest : List Char} (hcs : ∀ c ∈ cs, p c = true)
    (hrest : ∀ c ∈ rest.head?, p c = false) : (cs ++ rest).takeWhile p = cs := by
  rw [List.takeWhile_append_of_pos hcs]
  cases rest with
  | nil => simp
  | cons c rest => simp [hrest c (by simp)]

theorem lex_append (c : Char) (cs rest : List Char)
    (h : (Lexeme.scan c (cs ++ rest)).2 - 1 ≤ cs.length) :
    lex (c :: cs ++ rest) =
      ⟨(Lexeme.scan c (cs ++ rest)).1,
        String.ofList (c :: cs.take ((Lexeme.scan c (cs ++ rest)).2 - 1))⟩ ::
        lex (cs.drop ((Lexeme.scan c (cs ++ rest)).2 - 1) ++ rest) := by
  rw [List.cons_append, lex]
  simp [List.take_append_of_le_length h, List.drop_append_of_le_length h]

theorem lex_single {c : Char} {rest : List Char} {kind : Lexeme.Kind}
    (h : Lexeme.scan c rest = (kind, 1)) :
    lex (c :: rest) = ⟨kind, String.ofList [c]⟩ :: lex rest := by
  simp [lex, h]

theorem scan_space {c : Char} (cs : List Char) (h : isSpace c = true) :
    Lexeme.scan c cs = (.space, ((c :: cs).takeWhile isSpace).length) := by
  simp only [isSpace, isNewline, Bool.or_eq_true, beq_iff_eq] at h
  rcases h with (rfl | rfl) | (rfl | rfl) | rfl <;> rfl

theorem text_of_colon {cs : List Char} {l : Lexeme} (hl : l ∈ lex cs) (hk : l.kind = .colon) :
    ':' ∈ l.text.toList := by
  induction cs using lex.induct with
  | case1 => simp [lex] at hl
  | case2 c cs scanned ih =>
    rw [lex, List.mem_cons] at hl
    rcases hl with rfl | hl
    · simp only at hk
      have : c = ':' := by
        unfold Lexeme.scan Lexeme.scanName at hk
        grind
      simp [this]
    · exact ih hl

namespace Reader

@[simp] theorem extend_levels (r : Reader) (text : String) : (r.extend text).levels = r.levels := by
  unfold extend; split <;> rfl

@[simp] theorem extend_nodes (r : Reader) (text : String) : (r.extend text).nodes = r.nodes := by
  unfold extend; split <;> rfl

@[simp] theorem extend_brackets (r : Reader) (text : String) :
    (r.extend text).brackets = r.brackets := by
  unfold extend; split <;> rfl

structure Runs (r : Reader) (text : String) (brackets : List Bracket) (r' : Reader) : Prop where
  levels : r'.levels = r.levels
  nodes : r'.nodes = r.nodes
  brackets : r'.brackets = brackets
  pending : r.pending.Grows text r'.pending

private theorem feedInside_runs {r : Reader} (inner : Bracket) (outer : List Bracket) (l : Lexeme)
    (hp : r.pending ≠ .nothing) (hb : r.brackets = inner :: outer) :
    r.Runs l.text (l.kind.turn r.brackets) (r.feedInside inner outer l) := by
  have grows := Pending.grows_extend hp l.text
  have plain : r.Runs l.text r.brackets (r.extend l.text) := ⟨by simp, by simp, by simp, grows⟩
  unfold feedInside
  cases hk : l.kind with
  | opening b => exact ⟨by simp, by simp, by simp [Lexeme.Kind.turn, hb], grows⟩
  | closing b =>
    by_cases h : b = inner
    · have turned : (Lexeme.Kind.closing b).turn r.brackets = outer := by
        simp [Lexeme.Kind.turn, hb, h]
      simp only [if_pos h, turned]
      cases outer with
      | cons => exact ⟨by simp, by simp, rfl, grows⟩
      | nil =>
        cases hq : (r.extend l.text).pending with
        | item i =>
          refine ⟨by simp, by simp, rfl, ?_⟩
          rw [hq] at grows
          cases hr : r.pending with
          | item j =>
            rw [hr] at grows
            cases grows with
            | item text_eq first colon none => exact .item text_eq first colon none
          | nothing => exact absurd hr hp
          | atRule => rw [hr] at grows; cases grows
        | nothing => exact absurd hq grows.ne_nothing
        | atRule => rw [hq] at grows; exact ⟨by simp, by simp, rfl, grows⟩
    · have turned : (Lexeme.Kind.closing b).turn r.brackets = r.brackets := by
        simp [Lexeme.Kind.turn, hb, Ne.symm h]
      simp only [if_neg h, turned]
      exact plain
  | _ => exact plain

theorem feed_runs {r : Reader} (l : Lexeme) (hp : r.pending ≠ .nothing)
    (hl : r.brackets ≠ [] ∨ l.kind.isRun = true) (hc : l.kind = .colon → ':' ∈ l.text.toList) :
    ∃ r', r.feed l = .ok r' ∧ r.Runs l.text (l.kind.turn r.brackets) r' := by
  unfold feed
  cases hb : r.brackets with
  | cons inner outer =>
    refine ⟨_, rfl, ?_⟩
    have h := feedInside_runs (r := { r with place := r.place.advance l.text.toList })
      inner outer l hp hb
    rw [← hb]
    exact ⟨h.levels, h.nodes, h.brackets, h.pending⟩
  | nil =>
    have hrun : l.kind.isRun = true := hl.resolve_left (by simp [hb])
    cases hq : r.pending with
    | nothing => exact absurd hq hp
    | atRule name params =>
      simp only [feedPrelude]
      cases hk : l.kind with
      | semicolon => simp [hk, Lexeme.Kind.isRun] at hrun
      | opening b =>
        cases b with
        | curly => simp [hk, Lexeme.Kind.isRun] at hrun
        | _ => refine ⟨_, rfl, by simp, by simp, rfl, ?_⟩; simpa [extend, hq] using .atRule ..
      | closing b =>
        cases b with
        | curly => simp [hk, Lexeme.Kind.isRun] at hrun
        | _ =>
          refine ⟨_, rfl, by simp, by simp, by simp [Lexeme.Kind.turn], ?_⟩
          simpa [extend, hq] using .atRule ..
      | _ =>
        refine ⟨_, rfl, by simp, by simp, by simp [Lexeme.Kind.turn], ?_⟩
        simpa [extend, hq] using .atRule ..
    | item i =>
      have grows : (Pending.item i).Grows l.text
          (.item ({ i with blockFirst := false }.extend l.text)) :=
        .item rfl (fun _ => rfl) (by simp_all [Item.extend]) (by simp_all [Item.extend])
      simp only [feedItem]
      cases hk : l.kind with
      | semicolon => simp [hk, Lexeme.Kind.isRun] at hrun
      | colon =>
        refine ⟨_, rfl, rfl, rfl, rfl, ?_⟩
        rw [hq]
        refine .item rfl (fun _ => rfl) (fun p v h => by simp [h]) ?_
        intro _ hfree
        exact absurd (hc hk) hfree
      | opening b =>
        cases b with
        | curly => simp [hk, Lexeme.Kind.isRun] at hrun
        | _ => exact ⟨_, rfl, rfl, rfl, rfl, hq ▸ grows⟩
      | closing b =>
        cases b with
        | curly => simp [hk, Lexeme.Kind.isRun] at hrun
        | _ => exact ⟨_, rfl, rfl, rfl, rfl, hq ▸ grows⟩
      | _ => exact ⟨_, rfl, rfl, rfl, rfl, hq ▸ grows⟩

theorem Runs.trans {r s t : Reader} {a b : String} {bs cs : List Bracket} (h₁ : r.Runs a bs s)
    (h₂ : s.Runs b cs t) : r.Runs (a ++ b) cs t :=
  ⟨h₂.levels.trans h₁.levels, h₂.nodes.trans h₁.nodes, h₂.brackets, h₁.pending.trans h₂.pending⟩

theorem feedAll_within (ls : List Lexeme) {r : Reader} {brackets : List Bracket}
    (hp : r.pending ≠ .nothing) (hl : bracketsBehind r.brackets ls = some brackets)
    (hc : ∀ l ∈ ls, l.kind = .colon → ':' ∈ l.text.toList) :
    ∃ r', ls.foldlM feed r = .ok r' ∧ r.Runs (textOf ls) brackets r' := by
  induction ls generalizing r with
  | nil =>
    cases hl
    exact ⟨r, rfl, rfl, rfl, rfl, .refl hp⟩
  | cons l ls ih =>
    obtain ⟨hrun, hl⟩ := bracketsBehind_cons.1 hl
    obtain ⟨s, hs, runs⟩ := feed_runs l hp hrun (hc l (by simp))
    rw [← runs.brackets] at hl
    obtain ⟨t, ht, rest⟩ := ih runs.pending.ne_nothing hl fun x hx => hc x (by simp [hx])
    refine ⟨t, ?_, runs.trans rest⟩
    rw [List.foldlM_cons, hs]
    exact ht

theorem feedAll_runs (ls : List Lexeme) {r : Reader} (hp : r.pending ≠ .nothing)
    (hl : ∀ l ∈ ls, l.kind.isRun = true) (hc : ∀ l ∈ ls, l.kind = .colon → ':' ∈ l.text.toList) :
    ∃ r', ls.foldlM feed r = .ok r' ∧
      r.Runs (textOf ls) (ls.foldl (fun bs l => l.kind.turn bs) r.brackets) r' :=
  feedAll_within ls hp (bracketsBehind_of_isRun hl r.brackets) hc

structure AtItem (r : Reader) (text : String) (brackets : List Bracket) (i : Item) (r' : Reader) :
    Prop where
  levels : r'.levels = r.levels
  nodes : r'.nodes = r.nodes
  brackets : r'.brackets = brackets
  pending : r'.pending = .item i
  text_eq : i.text = text
  first : i.blockFirst = false
  colon : ':' ∉ text.toList → i.colon = none

private theorem feed_first {r : Reader} (l : Lexeme) (hp : r.pending = .nothing)
    (hb : r.brackets = []) (hl : l.kind.isItemStart = true) :
    ∃ i r', r.feed l = .ok r' ∧ r.AtItem l.text (l.kind.turn []) i r' := by
  unfold feed
  simp only [hb, hp, feedFirst]
  cases hk : l.kind with
  | opening b =>
    cases b with
    | curly => simp [hk, Lexeme.Kind.isItemStart, Lexeme.Kind.isRun] at hl
    | _ => exact ⟨_, _, rfl, rfl, rfl, rfl, rfl, rfl, rfl, fun _ => rfl⟩
  | closing b =>
    cases b with
    | curly => simp [hk, Lexeme.Kind.isItemStart, Lexeme.Kind.isRun] at hl
    | _ => exact ⟨_, _, rfl, rfl, rfl, rfl, rfl, rfl, rfl, fun _ => rfl⟩
  | colon => exact ⟨_, _, rfl, rfl, rfl, rfl, rfl, rfl, rfl, fun _ => rfl⟩
  | other => exact ⟨_, _, rfl, rfl, rfl, rfl, rfl, rfl, rfl, fun _ => rfl⟩
  | _ => simp [hk, Lexeme.Kind.isItemStart, Lexeme.Kind.isRun] at hl

theorem feedAll_item_within (l : Lexeme) (ls : List Lexeme) {r : Reader} {brackets : List Bracket}
    (hp : r.pending = .nothing) (hb : r.brackets = []) (hl : l.kind.isItemStart = true)
    (hls : bracketsBehind (l.kind.turn []) ls = some brackets)
    (hc : ∀ x ∈ ls, x.kind = .colon → ':' ∈ x.text.toList) :
    ∃ i r', (l :: ls).foldlM feed r = .ok r' ∧ r.AtItem (textOf (l :: ls)) brackets i r' := by
  obtain ⟨i, s, hs, first⟩ := feed_first l hp hb hl
  rw [← first.brackets] at hls
  obtain ⟨t, ht, runs⟩ := feedAll_within ls (by rw [first.pending]; simp) hls hc
  have grows := runs.pending
  rw [first.pending] at grows
  cases hq : t.pending with
  | nothing => exact absurd hq runs.pending.ne_nothing
  | atRule => rw [hq] at grows; cases grows
  | item j =>
    rw [hq] at grows
    refine ⟨j, t, ?_, runs.levels.trans first.levels, runs.nodes.trans first.nodes,
      runs.brackets, hq, ?_, ?_, ?_⟩
    · rw [List.foldlM_cons, hs]
      exact ht
    all_goals cases grows with | item text_eq unmarked _ none => ?_
    · rw [text_eq, first.text_eq, textOf_cons]
    · exact unmarked first.first
    · intro hfree
      rw [textOf_cons, String.toList_append, List.mem_append, not_or] at hfree
      exact none (first.colon hfree.1) hfree.2

theorem feedAll_item (l : Lexeme) (ls : List Lexeme) {r : Reader} (hp : r.pending = .nothing)
    (hb : r.brackets = []) (hl : l.kind.isItemStart = true) (hls : ∀ x ∈ ls, x.kind.isRun = true)
    (hc : ∀ x ∈ ls, x.kind = .colon → ':' ∈ x.text.toList) :
    ∃ i r', (l :: ls).foldlM feed r = .ok r' ∧
      r.AtItem (textOf (l :: ls)) ((l :: ls).foldl (fun bs l => l.kind.turn bs) []) i r' :=
  feedAll_item_within l ls hp hb hl (bracketsBehind_of_isRun hls _) hc

def read (r : Reader) (cs : List Char) : Except Error Reader :=
  (lex cs).foldlM feed r

theorem parse_eq_read (css : String) : parse css = (read {} css.toList >>= finish) := rfl

@[simp] theorem read_nil (r : Reader) : r.read [] = .ok r := by
  simp [read, lex]
  rfl

theorem read_append {r r' : Reader} {cs rest : List Char} (ls : List Lexeme)
    (hlex : lex (cs ++ rest) = ls ++ lex rest) (hfeed : ls.foldlM feed r = .ok r') :
    r.read (cs ++ rest) = r'.read rest := by
  unfold read
  rw [hlex, List.foldlM_append, hfeed]
  rfl

theorem read_spaces {r : Reader} (ws rest : List Char) (hws : ∀ c ∈ ws, isSpace c = true)
    (hrest : ∀ c ∈ rest.head?, isSpace c = false) (hp : r.pending = .nothing)
    (hb : r.brackets = []) : ∃ place, r.read (ws ++ rest) = { r with place }.read rest := by
  cases ws with
  | nil => exact ⟨r.place, rfl⟩
  | cons c cs =>
    have scanned := scan_space (cs ++ rest) (hws c (by simp))
    rw [← List.cons_append, takeWhile_append_stop hws hrest] at scanned
    have hlex := lex_append c cs rest (by simp [scanned])
    rw [scanned] at hlex
    refine ⟨r.place.advance (c :: cs), read_append [⟨.space, String.ofList (c :: cs)⟩] ?_ ?_⟩
    · simpa using hlex
    · simp [feed, feedFirst, hp, hb]

theorem read_single {r r' : Reader} {c : Char} {kind : Lexeme.Kind} (rest : List Char)
    (hscan : Lexeme.scan c rest = (kind, 1)) (hfeed : r.feed ⟨kind, String.ofList [c]⟩ = .ok r') :
    r.read (c :: rest) = r'.read rest := by
  unfold read
  rw [lex_single hscan, List.foldlM_cons, hfeed]
  rfl

theorem read_open {r : Reader} {header : Header} (rest : List Char) (hb : r.brackets = [])
    (hp : (∃ i, r.pending = .item i ∧ header = .rule (trim i.cut)) ∨
      ∃ name params, r.pending = .atRule name params ∧ header = .atRule name (trim params)) :
    ∃ place, r.read ('\x7b' :: rest) =
      { r with levels := ⟨header, r.nodes⟩ :: r.levels, nodes := [], pending := .nothing,
               place }.read rest := by
  refine ⟨r.place.advance ['\x7b'], read_single rest rfl ?_⟩
  rcases hp with ⟨i, hp, rfl⟩ | ⟨name, params, hp, rfl⟩ <;>
    simp [feed, hb, hp, feedItem, feedPrelude, openBlock]

theorem read_close {r : Reader} {level : Level} {levels : List Level} (rest : List Char)
    (hl : r.levels = level :: levels) (hp : r.pending = .nothing) (hb : r.brackets = []) :
    ∃ place, r.read ('\x7d' :: rest) =
      { r with levels, nodes := level.header.node r.nodes.reverse :: level.before,
               place }.read rest := by
  refine ⟨r.place.advance ['\x7d'], read_single rest rfl ?_⟩
  simp [feed, hb, hp, hl, feedFirst, closeBlock]

theorem read_semicolon {r : Reader} {node : Node} (rest : List Char) (hb : r.brackets = [])
    (hp : (∃ i, r.pending = .item i ∧ ∀ text place, i.declaration text place = .ok node) ∨
      ∃ name params, r.pending = .atRule name params ∧ node = .ofAtName name (trim params) []) :
    ∃ place, r.read (';' :: rest) =
      { r with nodes := node :: r.nodes, pending := .nothing, place }.read rest := by
  refine ⟨r.place.advance [';'], read_single rest rfl ?_⟩
  rcases hp with ⟨i, hp, hi⟩ | ⟨name, params, hp, rfl⟩
  · simp [feed, hb, hp, feedItem, hi, push, Except.map]
  · simp [feed, hb, hp, feedPrelude, push]

end Reader

end UtilityCss
