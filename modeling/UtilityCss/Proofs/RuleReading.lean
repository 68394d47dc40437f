import UtilityCss.Proofs.TopRules

/-!
Reading printed rules back. A rule's body is read as it would be read alone. If nothing is open
behind the body, the next rule is read from rest; the last body only has to be readable.
-/
namespace UtilityCss

open Text Lexeme

/-- Nothing is open behind a text: its last lexeme ends with it, no block and no bracket is open,
and what is pending may end. -/
def isClosed (cs : List Char) : Bool :=
  (lex cs).getLast?.any (·.kind == .space) &&
    match Reader.read {} cs with
    | .ok r => r.levels.isEmpty && r.brackets.isEmpty && r.pending.isWhole
    | .error _ => false

def isReadable (cs : List Char) : Bool :=
  (parse (String.ofList cs)).isOk

/-- No body takes anything of the rules around it. -/
def areContained : List (List Char) → Bool
  | [] => true
  | [body] => isReadable body
  | body :: next :: bodies => isClosed body && areContained (next :: bodies)

theorem isClosed_iff (cs : List Char) : isClosed cs = true ↔
    (∃ l ∈ (lex cs).getLast?, l.kind = .space) ∧
      ∃ r, Reader.read {} cs = .ok r ∧ r.levels = [] ∧ r.brackets = [] ∧
        r.pending.isWhole = true := by
  unfold isClosed
  cases Reader.read {} cs with
  | ok r => simp [Option.any_eq_true, and_assoc]
  | error => simp

theorem isReadable_iff (cs : List Char) : isReadable cs = true ↔
    ∃ r, Reader.read {} cs = .ok r ∧ r.pending.isWhole = true := by
  unfold isReadable
  rw [Reader.parse_eq_read, String.toList_ofList]
  cases hread : Reader.read {} cs with
  | error e => simp [bind, Except.bind, Except.isOk, Except.toBool]
  | ok r =>
    cases hfinish : r.finish with
    | error e =>
      have unfinished : r.pending.isWhole ≠ true := fun whole => by
        obtain ⟨nodes, h⟩ := Reader.finish_of_isWhole whole
        rw [hfinish] at h
        cases h
      simp [bind, Except.bind, hfinish, Except.isOk, Except.toBool, unfinished]
    | ok nodes =>
      have whole := (Reader.finish_tops hfinish).1
      simp [bind, Except.bind, hfinish, Except.isOk, Except.toBool, whole]

/-! ### The lexemes of a rule -/

abbrev Lexeme.openCurly : Lexeme := ⟨.opening .curly, "\x7b"⟩

abbrev Lexeme.closeCurly : Lexeme := ⟨.closing .curly, "\x7d"⟩

abbrev Lexeme.lineEnd : Lexeme := ⟨.space, "\n"⟩

namespace Selector

structure ReadAs (s : Selector) (head : List Lexeme) : Prop where
  lex_eq : ∀ rest, lex (s.chars ++ ' ' :: '\x7b' :: rest) =
    head ++ .openCurly :: lex rest
  kind : ∀ l ∈ head, l.kind = .other ∨ l.kind = .space
  first : ∃ ls, head = ⟨.other, "."⟩ :: ls
  text : (textOf head).toList = s.chars ++ [' ']

theorem exists_readAs (name : String) : ∃ head, (ofName name).ReadAs head := by
  obtain ⟨ls, hlex, hkind, htext⟩ := lex_selector name
  refine ⟨⟨.other, "."⟩ :: ls, fun rest => ?_, ?_, ⟨ls, rfl⟩, ?_⟩
  · have curly : lex ('\x7b' :: rest) = .openCurly :: lex rest :=
      lex_single (c := '\x7b') rfl
    rw [← curly]
    exact hlex rest
  · simpa using hkind
  · simp [htext, ofName]

theorem ReadAs.isSound {s : Selector} {head : List Lexeme} (h : s.ReadAs head) {l : Lexeme}
    (hl : l ∈ head) : l.IsSound := by
  have member : l ∈ lex (s.chars ++ ' ' :: '\x7b' :: []) := by
    rw [h.lex_eq]
    simp [hl]
  exact lex_sound member

theorem ReadAs.isRun {s : Selector} {head : List Lexeme} (h : s.ReadAs head) :
    ∀ l ∈ head, l.kind.isRun = true := by
  intro l hl
  rcases h.kind l hl with hk | hk <;> rw [hk] <;> rfl

theorem trim_chars (s : Selector) :
    trim (String.ofList (s.chars ++ [' '])) = String.ofList s.core := by
  obtain ⟨tail, hchars, htail⟩ := s.chars_eq
  obtain ⟨cs, hcs⟩ := s.core_head
  have front : (s.chars ++ [' ']).dropWhile isBlank = s.core ++ (tail ++ [' ']) := by
    rw [hchars, hcs]
    simp [show isBlank '.' = false by decide]
  rw [trim, String.toList_ofList, front, dropEndWhile_append_blank s.core_last]
  intro c hc
  rcases List.mem_append.1 hc with hc | hc
  · exact htail c hc
  · rw [List.mem_singleton.1 hc]
    decide

end Selector

theorem Lexeme.Kind.IsOpen.cases {isComment : Bool} {kind : Kind} (h : kind.IsOpen isComment) :
    (∃ body, kind = .comment body) ∨ kind = .other := by
  unfold Lexeme.Kind.IsOpen at h
  split at h
  · exact .inl h
  · exact .inr h

theorem Lexeme.Kind.IsOpen.not_isGap {isComment : Bool} {kind : Kind} (h : kind.IsOpen isComment) :
    kind.isGap = false := by
  rcases h.cases with ⟨body, rfl⟩ | rfl <;> rfl

theorem Lexeme.Kind.IsOpen.ne_colon {isComment : Bool} {kind : Kind} (h : kind.IsOpen isComment) :
    kind ≠ .colon := by
  rcases h.cases with ⟨body, rfl⟩ | rfl <;> simp

theorem Takes.eq_nil_of_close {t u : List Char} (h : Takes t u) (hsplit : ['\x7d', '\n'] = t ++ u) :
    u = [] := by
  apply Decidable.byContradiction
  intro hu
  obtain ⟨z, hz, hclose⟩ := h hu
  have member : z ∈ ['\x7d', '\n'] := by
    rw [hsplit]
    exact List.mem_append_left _ (List.mem_of_getLast? hz)
  rcases hclose with rfl | rfl <;> simp at member

theorem lex_body {body : List Char} (h : Selector.IsBody body) :
    ((∃ l ∈ (lex body).getLast?, l.kind = .space) ∧
      ∀ w : List Char, (∀ c ∈ w.head?, isSpace c = false) →
        lex (body ++ '\x7d' :: '\n' :: w) =
          lex body ++ [closeCurly, lineEnd] ++ lex w) ∨
    ∃ isComment ls kind text, kind.IsOpen isComment ∧ lex body = ls ++ [⟨kind, text⟩] ∧
      ∀ w, ∃ kind' t u, '\x7d' :: '\n' :: w = t ++ u ∧ kind'.IsOpen isComment ∧
        lex (body ++ '\x7d' :: '\n' :: w) = ls ++ ⟨kind', text ++ String.ofList t⟩ :: lex u ∧
        Takes t u := by
  obtain ⟨ds, rfl, hline⟩ := h.last
  rcases lex_line ds hline with ⟨ls, hlast, hls⟩ | ⟨isComment, ls, text, hls⟩
  · refine .inl ?_
    have whole : lex (ds ++ ['\n']) = ls := by simpa [lex] using hls [] (by simp)
    rw [whole]
    refine ⟨hlast, fun w hw => ?_⟩
    have close := hls ('\x7d' :: '\n' :: w) (by simp; decide)
    have curly : lex ('\x7d' :: '\n' :: w) = .closeCurly :: lex ('\n' :: w) :=
      lex_single (c := '\x7d') rfl
    rw [curly, lex_newline w hw] at close
    simpa using close
  · refine .inr ?_
    obtain ⟨kind, t, u, hnil, hkind, hlex, -⟩ := hls []
    obtain ⟨rfl, rfl⟩ := List.append_eq_nil_iff.1 hnil.symm
    refine ⟨isComment, ls, kind, text, hkind, by simpa [lex] using hlex, fun w => ?_⟩
    obtain ⟨kind', t, u, hw, hkind', hlex', takes⟩ := hls ('\x7d' :: '\n' :: w)
    exact ⟨kind', t, u, hw, hkind', by simpa using hlex', takes⟩

/-! ### One rule -/

theorem Pending.Grows.isWhole {text : String} {p q : Pending} (h : p.Grows text q)
    (hp : p.isWhole = true) : q.isWhole = true := by
  cases h with
  | atRule => rfl
  | item _ _ colon =>
    simp only [Pending.isWhole, Option.isSome_iff_exists, Prod.exists] at hp ⊢
    obtain ⟨property, value, hcolon⟩ := hp
    exact ⟨property, value ++ text, colon property value hcolon⟩

namespace Reader

variable {r b b' : Reader} {l : Lexeme} {level : Level}

private theorem closeAll_append (levels base : List Level) (nodes : List Node) :
    closeAll (levels ++ base) nodes = closeAll base (closeAll levels nodes) := by
  induction levels generalizing nodes with
  | nil => rfl
  | cons level levels ih => exact ih _

theorem Over.tops (h : Over [level] r b) :
    b.tops = level.header.ruleSelector? :: level.before.map Node.ruleSelector? := by
  simp [Reader.tops, tree, h.levels, closeAll_append, closeAll]

theorem Over.isWhole {base : List Level} (h : Over base r b) :
    b.pending.isWhole = r.pending.isWhole := by
  have same := congrArg Pending.isWhole h.pending
  have bare : ∀ p : Pending, p.bare.isWhole = p.isWhole := fun p => by cases p <;> rfl
  rwa [bare, bare] at same

structure Quiet (r : Reader) : Prop where
  isWhole : r.pending.isWhole = true
  inside : r.levels ≠ [] ∨ r.pending = .nothing

theorem Quiet.finish (h : r.Quiet) :
    ∃ nodes, r.finish = .ok nodes ∧ nodes.reverse.map Node.ruleSelector? = r.tops := by
  obtain ⟨nodes, hnodes⟩ := finish_of_isWhole h.isWhole
  refine ⟨nodes, hnodes, ?_⟩
  rcases (finish_tops hnodes).2 with ⟨hl, hp, -⟩ | ⟨-, same⟩
  · rcases h.inside with h | h
    · exact absurd hl h
    · exact absurd h hp
  · exact same

private theorem feed_ok_of_isRun (r : Reader) (hl : l.kind.isRun = true) :
    ∃ r', r.feed l = .ok r' := by
  cases hb : r.brackets with
  | cons inner outer => exact ⟨_, feed_inside l hb⟩
  | nil =>
    cases hp : r.pending with
    | nothing =>
      rw [feed_nothing l hb hp, feedFirst]
      unfold Lexeme.Kind.isRun at hl
      split <;> simp_all
    | atRule name params =>
      rw [feed_atRule l hb hp, feedPrelude]
      unfold Lexeme.Kind.isRun at hl
      split <;> simp_all
    | item i =>
      rw [feed_item l hb hp, feedItem]
      unfold Lexeme.Kind.isRun at hl
      split <;> simp_all

theorem Step.tops_eq (h : b.Step l b') (hl : b.levels ≠ []) : b'.tops = b.tops := by
  rcases h.tops with same | ⟨outside, -⟩
  · exact same
  · exact absurd outside hl

theorem Quiet.feed_space (h : b.Quiet) (hk : l.kind = .space) :
    ∃ b', b.feed l = .ok b' ∧ b'.Quiet ∧ b'.tops = b.tops := by
  obtain ⟨b', hb'⟩ := feed_ok_of_isRun (l := l) b (by rw [hk]; rfl)
  have step : b.Step l b' := feed_step (by simp [hk]) hb'
  refine ⟨b', hb', ?_⟩
  cases step with
  | grows levels nodes _ _ pending =>
    refine ⟨?_, by simp [Reader.tops, tree, levels, nodes]⟩
    rcases pending with pending | ⟨-, -, pending⟩
    · refine ⟨pending.isWhole h.isWhole, .inl ?_⟩
      rcases h.inside with inside | nothing
      · rwa [levels]
      · rw [nothing] at pending
        cases pending
    · exact ⟨by rw [pending]; rfl, .inr pending⟩
  | skips levels nodes _ _ _ pending =>
    exact ⟨⟨by rw [pending]; rfl, .inr pending⟩, by simp [Reader.tops, tree, levels, nodes]⟩
  | begins _ _ _ _ kind => exact absurd hk kind.1
  | adds _ _ _ _ _ _ kind => simp [hk] at kind
  | opens _ _ _ _ _ _ kind => simp [hk] at kind
  | closes _ _ _ _ _ _ _ kind => simp [hk] at kind

theorem Step.of_close (h : b.Step l b') (hk : l.kind = .closing .curly) :
    (b.brackets ≠ [] ∧ b'.levels = b.levels ∧ (b.pending.Grows l.text b'.pending ∨
        b.pending = .nothing ∧ b'.pending = .nothing)) ∨
      b.brackets = [] ∧ b.pending.isWhole = true ∧ (∃ level, b.levels = level :: b'.levels) ∧
        b'.brackets = [] ∧ b'.pending = .nothing := by
  cases h with
  | grows levels _ _ inside pending =>
    refine .inl ⟨?_, levels, ?_⟩
    · rcases inside with inside | run
      · exact inside
      · rw [hk] at run
        cases run
    · rcases pending with pending | ⟨-, pending⟩
      · exact .inl pending
      · exact .inr pending
  | skips _ _ _ _ _ _ kind => simp [hk] at kind
  | begins _ _ _ _ kind => exact absurd hk kind.2
  | adds _ _ _ _ _ _ kind => simp [hk] at kind
  | opens _ _ _ _ _ _ kind => simp [hk] at kind
  | closes level _ whole levels _ was brackets _ pending =>
    exact .inr ⟨was, whole, ⟨level, levels⟩, brackets, pending⟩

theorem feed_close_ok (hl : b.levels ≠ []) (hwhole : b.pending.isWhole = true)
    (hk : l.kind = .closing .curly) : ∃ b', b.feed l = .ok b' := by
  have hempty : b.levels.isEmpty = false := by simpa using hl
  cases hb : b.brackets with
  | cons inner outer => exact ⟨_, feed_inside l hb⟩
  | nil =>
    cases hp : b.pending with
    | nothing => simp [feed_nothing l hb hp, feedFirst, hk, hempty]
    | atRule name params => simp [feed_atRule l hb hp, feedPrelude, hk, hempty]
    | item i =>
      rw [hp] at hwhole
      rcases declaration_cases i with ⟨hcolon, -⟩ | ⟨-, property, value, important, gives⟩
      · simp [Pending.isWhole, hcolon] at hwhole
      · have given : i.declaration i.text b.place = .ok (.declaration property value important) :=
          gives i.opened _ _
        simp [feed_item l hb hp, feedItem, hk, hempty, given, Except.map]

theorem quiet_close (hl : b.levels ≠ []) (hwhole : b.pending.isWhole = true)
    (hk : l.kind = .closing .curly) : ∃ b', b.feed l = .ok b' ∧ b'.Quiet ∧ b'.tops = b.tops := by
  obtain ⟨b', hb'⟩ := feed_close_ok hl hwhole hk
  have step : b.Step l b' := feed_step (by simp [hk]) hb'
  refine ⟨b', hb', ?_, step.tops_eq hl⟩
  rcases step.of_close hk with ⟨-, levels, pending⟩ | ⟨-, -, -, -, pending⟩
  · refine ⟨?_, .inl (by rwa [levels])⟩
    rcases pending with pending | ⟨-, pending⟩
    · exact pending.isWhole hwhole
    · rw [pending]
      rfl
  · exact ⟨by rw [pending]; rfl, .inr pending⟩

theorem isWhole_extend (r : Reader) (text : String) :
    (r.extend text).pending.isWhole = r.pending.isWhole := by
  unfold extend
  cases hp : r.pending <;> simp [hp, Pending.isWhole, Item.extend]

/-- Two lexemes that are open in the same way leave the same blocks open. -/
theorem feed_alike {isComment : Bool} {kind kind' : Kind} (hk : kind.IsOpen isComment)
    (hk' : kind'.IsOpen isComment) (text text' : String) (r : Reader) :
    ∃ r₁ r₂, r.feed ⟨kind, text⟩ = .ok r₁ ∧ r.feed ⟨kind', text'⟩ = .ok r₂ ∧
      r₂.levels = r₁.levels ∧ r₂.pending.isWhole = r₁.pending.isWhole := by
  have kinds : (∃ body body', kind = .comment body ∧ kind' = .comment body') ∨
      kind = .other ∧ kind' = .other := by
    unfold Lexeme.Kind.IsOpen at hk hk'
    split at hk
    · next h =>
      rw [if_pos h] at hk'
      obtain ⟨body, rfl⟩ := hk
      obtain ⟨body', rfl⟩ := hk'
      exact .inl ⟨body, body', rfl, rfl⟩
    · next h =>
      rw [if_neg h] at hk'
      exact .inr ⟨hk, hk'⟩
  cases hb : r.brackets with
  | cons inner outer =>
    refine ⟨_, _, feed_inside _ hb, feed_inside _ hb, ?_⟩
    rcases kinds with ⟨body, body', rfl, rfl⟩ | ⟨rfl, rfl⟩ <;> simp [feedInside, isWhole_extend]
  | nil =>
    cases hp : r.pending with
    | nothing =>
      simp only [feed_nothing _ hb hp]
      rcases kinds with ⟨body, body', rfl, rfl⟩ | ⟨rfl, rfl⟩
      · exact ⟨_, _, rfl, rfl, rfl, rfl⟩
      · exact ⟨_, _, rfl, rfl, rfl, rfl⟩
    | atRule name params =>
      simp only [feed_atRule _ hb hp]
      rcases kinds with ⟨body, body', rfl, rfl⟩ | ⟨rfl, rfl⟩
      · exact ⟨_, _, rfl, rfl, by simp, by simp [isWhole_extend]⟩
      · exact ⟨_, _, rfl, rfl, by simp, by simp [isWhole_extend]⟩
    | item i =>
      simp only [feed_item _ hb hp]
      rcases kinds with ⟨body, body', rfl, rfl⟩ | ⟨rfl, rfl⟩
      · exact ⟨_, _, rfl, rfl, rfl, by simp [Pending.isWhole, Item.extend]⟩
      · exact ⟨_, _, rfl, rfl, rfl, by simp [Pending.isWhole, Item.extend]⟩

variable {s : Selector} {head : List Lexeme} {body w : List Char}

theorem AtRest.open_block (hr : r.AtRest) (hs : s.ReadAs head) :
    ∃ b, (head ++ [openCurly]).foldlM feed r = .ok b ∧
      Over [⟨s.header, r.nodes⟩] {} b := by
  obtain ⟨ls, rfl⟩ := hs.first
  have run : ∀ l ∈ ls, l.kind.isRun = true := fun l hl => hs.isRun l (List.mem_cons_of_mem _ hl)
  have turns : ∀ ls : List Lexeme, (∀ l ∈ ls, l.kind = .other ∨ l.kind = .space) →
      ls.foldl (fun bs l => l.kind.turn bs) [] = ([] : List Bracket) := by
    intro ls hls
    induction ls with
    | nil => rfl
    | cons l ls ih =>
      have same : l.kind.turn [] = [] := by
        rcases hls l (by simp) with hk | hk <;> rw [hk] <;> rfl
      rw [List.foldl_cons, same]
      exact ih fun x hx => hls x (by simp [hx])
  obtain ⟨i, t, ht, item⟩ := feedAll_item ⟨.other, "."⟩ ls hr.pending hr.brackets rfl run
    fun l hl => (hs.isSound (by simp [hl])).colon
  have hbrackets : t.brackets = [] := item.brackets.trans (turns _ hs.kind)
  have htrim : trim i.cut = String.ofList s.core := by
    have text : i.cut = String.ofList (s.chars ++ [' ']) := by
      rw [Item.cut, if_neg (by simp [item.first]), item.text_eq, ← hs.text, String.ofList_toList]
    rw [text, s.trim_chars]
  refine ⟨_, feedAll_append.2 ⟨t, ht, feedAll_cons.2 ⟨_, feed_item _ hbrackets item.pending, rfl⟩⟩,
    ?_⟩
  exact ⟨by simp [openBlock, item.levels, item.nodes, hr.levels, htrim, Selector.header], rfl, rfl,
    hbrackets⟩

theorem lex_block (hs : s.ReadAs head) (body w : List Char) :
    lex (s.block body ++ w) =
      head ++ [openCurly] ++ lex (body ++ '\x7d' :: '\n' :: w) := by
  have parts : s.block body ++ w = s.chars ++ ' ' :: '\x7b' :: (body ++ '\x7d' :: '\n' :: w) := by
    simp [Selector.block]
  rw [parts, hs.lex_eq]
  simp

theorem AtRest.read_closed (hr : r.AtRest) (hs : s.ReadAs head) (hbody : Selector.IsBody body)
    (hclosed : isClosed body = true) (hw : ∀ c ∈ w.head?, isSpace c = false) :
    ∃ r' : Reader, r.read (s.block body ++ w) = r'.read w ∧ r'.AtRest ∧
      r'.tops = some (String.ofList s.core) :: r.tops := by
  obtain ⟨⟨last, hlast, hspace⟩, r₀, hread, hlevels, hbrackets, hwhole⟩ :=
    (isClosed_iff body).1 hclosed
  obtain ⟨b, hopen, around⟩ := hr.open_block hs
  obtain ⟨b₀, hb₀, over₀⟩ := feedAll_over_ok (lex body) around hread
  have levels₀ : b₀.levels = [⟨s.header, r.nodes⟩] := by rw [over₀.levels, hlevels, List.nil_append]
  have whole₀ : b₀.pending.isWhole = true := by rw [over₀.isWhole, hwhole]
  -- the bracket ends the block, since no other bracket is open
  obtain ⟨b₁, hb₁⟩ := feed_close_ok (l := .closeCurly) (by simp [levels₀]) whole₀ rfl
  have step : b₀.Step .closeCurly b₁ := feed_step (absurd · (by decide)) hb₁
  rcases step.of_close rfl with ⟨inside, -⟩ | ⟨-, -, ⟨level, closed⟩, brackets₁, pending₁⟩
  · exact absurd (over₀.brackets.trans hbrackets) inside
  have levels₁ : b₁.levels = [] := by
    rw [levels₀] at closed
    exact (List.cons.inj closed).2.symm
  have tops₁ : b₁.tops = some (String.ofList s.core) :: r.tops := by
    rw [step.tops_eq (by simp [levels₀]), over₀.tops, hr.tops_eq]
    rfl
  have line : b₁.feed .lineEnd = .ok { b₁ with place := b₁.place.advance ['\n'] } :=
    feed_nothing _ brackets₁ pending₁
  have hlex : lex (s.block body ++ w) =
      head ++ [openCurly] ++ (lex body ++ [closeCurly, lineEnd]) ++ lex w := by
    rcases lex_body hbody with ⟨-, ends⟩ | ⟨isComment, ls, kind, text, hkind, hlex, -⟩
    · rw [lex_block hs, ends w hw, ← List.append_assoc]
    · -- an open lexeme is no white space
      exfalso
      rw [hlex, List.getLast?_concat] at hlast
      cases hlast
      obtain rfl : kind = .space := hspace
      exact absurd hkind.not_isGap (by decide)
  refine ⟨{ b₁ with place := b₁.place.advance ['\n'] }, ?_, ⟨levels₁, brackets₁, pending₁⟩, tops₁⟩
  exact read_append _ hlex (feedAll_append.2 ⟨b, hopen, feedAll_append.2 ⟨b₀, hb₀,
    feedAll_cons.2 ⟨b₁, hb₁, feedAll_cons.2 ⟨_, line, rfl⟩⟩⟩⟩)

theorem Over.levels_ne_nil (h : Over [level] r b) : b.levels ≠ [] := by
  rw [h.levels]
  simp

/-- The last rule, if its body can be read at all: whatever is open ends with the text. -/
theorem AtRest.read_last (hr : r.AtRest) (hs : s.ReadAs head) (hbody : Selector.IsBody body)
    (hreadable : isReadable body = true) :
    ∃ r', r.read (s.block body) = .ok r' ∧ r'.Quiet ∧
      r'.tops = some (String.ofList s.core) :: r.tops := by
  obtain ⟨r₀, hread, hwhole⟩ := (isReadable_iff body).1 hreadable
  obtain ⟨b, hopen, around⟩ := hr.open_block hs
  have hlex := lex_block hs body []
  rw [List.append_nil] at hlex
  have header_tops : some (String.ofList s.core) :: r.tops =
      s.header.ruleSelector? :: r.nodes.map Node.ruleSelector? := by
    rw [hr.tops_eq]
    rfl
  suffices ∃ r', (lex (body ++ ['\x7d', '\n'])).foldlM feed b = .ok r' ∧ r'.Quiet ∧
      r'.tops = some (String.ofList s.core) :: r.tops by
    obtain ⟨r', hr', quiet, tops⟩ := this
    exact ⟨r', by rw [read, hlex]; exact feedAll_append.2 ⟨b, hopen, hr'⟩, quiet, tops⟩
  rcases lex_body hbody with ⟨-, ends⟩ | ⟨isComment, ls, kind, text, hkind, hlex, swallows⟩
  · obtain ⟨b₀, hb₀, over₀⟩ := feedAll_over_ok (lex body) around hread
    have whole₀ : b₀.pending.isWhole = true := by rw [over₀.isWhole, hwhole]
    obtain ⟨b₁, hb₁, quiet₁, tops₁⟩ := quiet_close (l := closeCurly) over₀.levels_ne_nil whole₀ rfl
    obtain ⟨b₂, hb₂, quiet₂, tops₂⟩ := quiet₁.feed_space (l := lineEnd) rfl
    refine ⟨b₂, ?_, quiet₂, by rw [tops₂, tops₁, over₀.tops, header_tops]⟩
    rw [ends [] (by simp)]
    exact feedAll_append.2 ⟨b₂, feedAll_append.2 ⟨b₀, hb₀,
      feedAll_cons.2 ⟨b₁, hb₁, feedAll_cons.2 ⟨b₂, hb₂, rfl⟩⟩⟩, by simp [lex]; rfl⟩
  · -- the open lexeme takes the bracket too
    obtain ⟨kind', t, u, hsplit, hkind', hlex', takes⟩ := swallows []
    have hu : u = [] := takes.eq_nil_of_close hsplit
    rw [read, hlex] at hread
    obtain ⟨r₁, hr₁, hlast⟩ := feedAll_append.1 hread
    obtain ⟨b₁, hb₁, over₁⟩ := feedAll_over_ok ls around hr₁
    obtain ⟨b₀, hb₀, over₀⟩ := feedAll_over_ok _ over₁ hlast
    obtain ⟨b₂, b₃, hb₂, hb₃, levels₃, whole₃⟩ :=
      feed_alike hkind hkind' text (text ++ String.ofList t) b₁
    obtain ⟨_, hfeed, hnil⟩ := feedAll_cons.1 hb₀
    rw [hb₂] at hfeed
    cases hfeed
    cases hnil
    have step : b₁.Step ⟨kind', text ++ String.ofList t⟩ b₃ :=
      feed_step (fun h => absurd h hkind'.ne_colon) hb₃
    refine ⟨b₃, ?_,
      ⟨by rw [whole₃, over₀.isWhole, hwhole], .inl (by rw [levels₃]; exact over₀.levels_ne_nil)⟩,
      by rw [step.tops_eq over₁.levels_ne_nil, over₁.tops, header_tops]⟩
    rw [hlex', hu]
    exact feedAll_append.2 ⟨b₁, hb₁, feedAll_cons.2 ⟨b₃, hb₃, by simp [lex]; rfl⟩⟩

theorem AtRest.read_contained {bodies : List (List Char)} (hr : r.AtRest) (hs : s.ReadAs head)
    (hbodies : ∀ body ∈ bodies, Selector.IsBody body) (h : areContained bodies = true) :
    ∃ r', r.read (s.blocks bodies) = .ok r' ∧ r'.Quiet ∧
      r'.tops = List.replicate bodies.length (some (String.ofList s.core)) ++ r.tops := by
  induction bodies using areContained.induct generalizing r with
  | case1 => exact ⟨r, read_nil r, ⟨by rw [hr.pending]; rfl, .inr hr.pending⟩, rfl⟩
  | case2 body =>
    obtain ⟨r', hr', quiet, tops⟩ := hr.read_last hs (hbodies body (by simp)) h
    exact ⟨r', by simpa [Selector.blocks] using hr', quiet, by simpa using tops⟩
  | case3 body next bodies ih =>
    simp only [areContained, Bool.and_eq_true] at h
    obtain ⟨r₁, hread, rest, tops₁⟩ := hr.read_closed hs (hbodies body (by simp)) h.1 s.head_blocks
    obtain ⟨r', hr', quiet, tops⟩ := ih rest (fun b hb => hbodies b (by simp [hb])) h.2
    refine ⟨r', ?_, quiet, ?_⟩
    · rw [← hr', ← hread]
      rfl
    · rw [tops, tops₁, List.append_cons, ← List.replicate_succ']
      rfl

end Reader

end UtilityCss
