import UtilityCss.Proofs.RuleReading

/-!
When printed rules are read back as the same number of rules with their selector: if no body takes
anything of what stands around it. For one rule that is also necessary, and for several rules it is
if no body shows the selector.
-/
namespace UtilityCss

open Text Lexeme

theorem Pending.Grows.isWhole_of {text : String} {p q : Pending} (h : p.Grows text q)
    (hc : ':' ∉ text.toList) (hq : q.isWhole = true) : p.isWhole = true := by
  cases h with
  | atRule => rfl
  | @item i j _ _ _ none =>
    cases hi : i.colon with
    | some => simp [Pending.isWhole, hi]
    | none => simp [Pending.isWhole, none hi hc] at hq

theorem Takes.exists_point {t u w : List Char} (h : Takes t u) (hu : u ≠ [])
    (hw : '\x7d' :: '\n' :: '.' :: w = t ++ u) :
    ∃ a, t = '\x7d' :: '\n' :: '.' :: a ∧ w = a ++ u := by
  obtain ⟨z, hz, hclose⟩ := h hu
  match t with
  | [] => cases hz
  | [c] =>
    simp only [List.getLast?_singleton, Option.mem_some_iff] at hz
    simp only [List.cons_append, List.cons.injEq] at hw
    subst hz
    rcases hclose with rfl | rfl <;> simp at hw
  | [c, d] =>
    simp only [List.getLast?_cons_cons, List.getLast?_singleton, Option.mem_some_iff] at hz
    simp only [List.cons_append, List.cons.injEq] at hw
    subst hz
    rcases hclose with rfl | rfl <;> simp at hw
  | c :: d :: e :: a =>
    simp only [List.cons_append, List.cons.injEq] at hw
    obtain ⟨rfl, rfl, rfl, rfl⟩ := hw
    exact ⟨a, rfl, rfl⟩

namespace Reader

variable {r r' b b' : Reader} {l : Lexeme} {level : Level} {s : Selector} {head : List Lexeme}
  {body : List Char}

theorem Quiet.not_exceeds (h : r.Quiet) : ¬r.Exceeds r.tops.length := by
  rintro (more | ⟨-, outside, pending⟩)
  · exact Nat.lt_irrefl _ more
  · rcases h.inside with inside | nothing
    · exact inside outside
    · exact pending nothing

theorem Step.isWhole_of_space (h : r.Step lineEnd r') (hwhole : r'.pending.isWhole = true) :
    r.pending.isWhole = true := by
  cases h with
  | grows _ _ _ _ pending =>
    rcases pending with pending | ⟨-, pending, -⟩
    · exact pending.isWhole_of (by decide) hwhole
    · rw [pending]
      rfl
  | skips _ _ _ _ pending =>
    rw [pending]
    rfl
  | begins _ _ _ _ kind => exact absurd rfl kind.1
  | adds _ _ _ _ _ _ kind => simp at kind
  | opens _ _ _ _ _ _ kind => simp at kind
  | closes _ _ _ _ _ _ _ kind => simp at kind

theorem Step.isWhole_of_close (h : r.Step closeCurly r') (hwhole : r'.pending.isWhole = true) :
    r.pending.isWhole = true := by
  rcases h.of_close rfl with ⟨-, -, pending⟩ | ⟨-, whole, -⟩
  · rcases pending with pending | ⟨pending, -⟩
    · exact pending.isWhole_of (by decide) hwhole
    · rw [pending]
      rfl
  · exact whole

theorem Over.atRest_of_closes (h : Over [level] r b) (hclose : r.Closes l)
    (hb : b.feed l = .ok b') : b'.AtRest ∧ b'.tops = b.tops := by
  obtain ⟨hlevels, hbrackets, hkind⟩ := hclose
  have step : b.Step l b' := feed_step (by simp [hkind]) hb
  refine ⟨?_, step.tops_eq h.levels_ne_nil⟩
  rcases step.of_close hkind with ⟨inside, -⟩ | ⟨-, -, ⟨closed, levels⟩, brackets, pending⟩
  · exact absurd (h.brackets.trans hbrackets) inside
  · refine ⟨?_, brackets, pending⟩
    rw [h.levels, hlevels] at levels
    exact (List.cons.inj levels).2.symm

/-- A run inside of a block that adds nothing at the top, and ends with a lexeme that is no gap: it
goes as it would alone, for the block cannot have ended before. -/
theorem Over.feedAll_alone {ls : List Lexeme} (last : List Lexeme) (h : Over [level] r b)
    (hsound : ∀ x ∈ ls ++ last, x.IsSound) (hlast : ∃ x ∈ last, x.kind.isGap = false)
    (hrun : (ls ++ last).foldlM feed b = .ok b') (hb' : ¬b'.Exceeds b.tops.length) :
    ∃ r' b₀, ls.foldlM feed r = .ok r' ∧ ls.foldlM feed b = .ok b₀ ∧ Over [level] r' b₀ ∧
      last.foldlM feed b₀ = .ok b' := by
  obtain ⟨b₀, hb₀, htail⟩ := feedAll_append.1 hrun
  rcases feedAll_over ls h hb₀
    with ⟨r', hr', around⟩ | ⟨before, x, after, r₁, b₁, rfl, hb₁, around, hx⟩
  · exact ⟨r', b₀, hr', hb₀, around, htail⟩
  · -- behind the end of the block, the gap-free lexeme would begin another node
    exfalso
    rw [List.append_assoc, List.cons_append] at hrun
    obtain ⟨_, hsame, hrun⟩ := feedAll_append.1 hrun
    rw [hb₁] at hsame
    cases hsame
    obtain ⟨b₂, hb₂, hrun⟩ := feedAll_cons.1 hrun
    obtain ⟨rest, tops⟩ := around.atRest_of_closes hx hb₂
    have same : b₂.tops = b.tops := by rw [tops, around.tops, h.tops]
    have colons : ∀ y ∈ after ++ last, y.kind = .colon → ':' ∈ y.text.toList := by
      intro y hy
      rw [List.append_assoc] at hsound
      exact (hsound y (List.mem_append_right _ (List.mem_cons_of_mem _ hy))).colon
    rcases rest.feedAll colons hrun with gaps | more
    · obtain ⟨y, hy, hgap⟩ := hlast
      rw [gaps y (by simp [hy])] at hgap
      cases hgap
    · exact hb' (same ▸ more)

theorem Over.steps_of_run {ls : List Lexeme} (h : Over [level] r b)
    (hsound : ∀ x ∈ ls ++ [closeCurly, lineEnd], x.IsSound)
    (hrun : (ls ++ [closeCurly, lineEnd]).foldlM feed b = .ok b')
    (hb' : ¬b'.Exceeds b.tops.length) :
    ∃ r₀ b₀ b₁, ls.foldlM feed r = .ok r₀ ∧ Over [level] r₀ b₀ ∧ b₀.Step closeCurly b₁ ∧
      b₁.Step lineEnd b' := by
  obtain ⟨r₀, b₀, hr₀, -, over₀, htail⟩ :=
    h.feedAll_alone _ hsound ⟨closeCurly, by simp, rfl⟩ hrun hb'
  obtain ⟨b₁, hb₁, htail⟩ := feedAll_cons.1 htail
  obtain ⟨b₂, hb₂, hnil⟩ := feedAll_cons.1 htail
  cases hnil
  exact ⟨r₀, b₀, b₁, hr₀, over₀, feed_step (absurd · (by decide)) hb₁,
    feed_step (absurd · (by decide)) hb₂⟩

theorem AtRest.run_of_read {w : List Char} (hr : r.AtRest) (hs : s.ReadAs head)
    (hread : r.read (s.block body ++ w) = .ok r') :
    ∃ b, Over [⟨s.header, r.nodes⟩] {} b ∧ b.tops.length = r.tops.length + 1 ∧
      (lex (body ++ '\x7d' :: '\n' :: w)).foldlM feed b = .ok r' := by
  obtain ⟨b, hopen, around⟩ := hr.open_block hs
  rw [read, lex_block hs] at hread
  obtain ⟨_, hsame, hrun⟩ := feedAll_append.1 hread
  rw [hopen] at hsame
  cases hsame
  refine ⟨b, around, ?_, hrun⟩
  rw [around.tops, hr.tops_eq]
  simp

/-! ### One rule -/

/-- A lexeme that is open at the end of the text leaves as much behind if it ends earlier, with the
body. -/
theorem Over.feed_open {isComment : Bool} {kind kind' : Kind} (h : Over [level] r b)
    (hk : kind.IsOpen isComment) (hk' : kind'.IsOpen isComment) (text : String) {text' : String}
    (hb : b.feed ⟨kind', text'⟩ = .ok b') :
    ∃ r', r.feed ⟨kind, text⟩ = .ok r' ∧ r'.pending.isWhole = b'.pending.isWhole := by
  obtain ⟨b₁, b₂, hb₁, hb₂, -, whole⟩ := feed_alike hk hk' text text' b
  rw [hb] at hb₂
  cases hb₂
  have follows := feed_over h ⟨kind, text⟩
  rw [hb₁] at follows
  cases hr : r.feed ⟨kind, text⟩ with
  | error e =>
    rw [hr] at follows
    obtain ⟨-, -, hcurly⟩ := follows
    rcases hk.cases with ⟨comment, rfl⟩ | rfl <;> cases hcurly
  | ok r' =>
    rw [hr] at follows
    exact ⟨r', rfl, by rw [whole, Over.isWhole follows]⟩

theorem AtRest.isReadable_of_read (hr : r.AtRest) (hs : s.ReadAs head)
    (hbody : Selector.IsBody body) (hread : r.read (s.block body) = .ok r') (quiet : r'.Quiet)
    (htops : r'.tops.length = r.tops.length + 1) : isReadable body = true := by
  rw [← List.append_nil (s.block body)] at hread
  obtain ⟨b, around, hlength, hrun⟩ := hr.run_of_read hs hread
  have still : ¬r'.Exceeds b.tops.length := by
    rw [hlength, ← htops]
    exact quiet.not_exceeds
  have sound : ∀ x ∈ lex (body ++ ['\x7d', '\n']), x.IsSound := fun x hx => lex_sound hx
  apply (isReadable_iff body).2
  rcases lex_body hbody with ⟨-, ends⟩ | ⟨isComment, ls, kind, text, hkind, hlex, swallows⟩
  · have parts : lex (body ++ ['\x7d', '\n']) = lex body ++ [closeCurly, lineEnd] := by
      simpa [lex] using ends [] (by simp)
    rw [parts] at sound hrun
    obtain ⟨r₀, b₀, b₁, hr₀, over₀, closed, line⟩ := around.steps_of_run sound hrun still
    refine ⟨r₀, hr₀, ?_⟩
    rw [← over₀.isWhole]
    exact closed.isWhole_of_close (line.isWhole_of_space quiet.isWhole)
  · obtain ⟨kind', t, u, hsplit, hkind', hlex', takes⟩ := swallows []
    obtain rfl := takes.eq_nil_of_close hsplit
    have parts : lex (body ++ ['\x7d', '\n']) = ls ++ [⟨kind', text ++ String.ofList t⟩] := by
      simpa [lex] using hlex'
    rw [parts] at sound hrun
    obtain ⟨r₁, b₁, hr₁, -, over₁, htail⟩ := around.feedAll_alone _ sound
      ⟨_, List.mem_singleton.2 rfl, hkind'.not_isGap⟩ hrun still
    obtain ⟨b₂, hb₂, hnil⟩ := feedAll_cons.1 htail
    cases hnil
    obtain ⟨r₂, hr₂, whole⟩ := over₁.feed_open hkind hkind' text hb₂
    refine ⟨r₂, ?_, by rw [whole, quiet.isWhole]⟩
    rw [read, hlex]
    exact feedAll_append.2 ⟨r₁, hr₁, feedAll_cons.2 ⟨r₂, hr₂, rfl⟩⟩

/-! ### Several rules -/

theorem AllTops.of_run {ls : List Lexeme} (hls : ∀ l ∈ ls, l.IsSound)
    (h : ls.foldlM feed r = .ok r') (hall : r'.AllTops s) : r.AllTops s := fun selector hselector =>
  hall selector ((feedAll_tops (fun l hl => (hls l hl).colon) h).subset hselector)

theorem Step.tops_of_ne_curly (h : r.Step l r') (hall : r'.AllTops s)
    (hk : l.kind ≠ .opening .curly) : r'.tops = r.tops := by
  rcases h.tops with same | ⟨-, -, selector, more, opened⟩
  · exact same
  · have rule := hall selector (by simp [more])
    exact absurd (opened _ rule).1 hk

theorem feedAll_tops_of_ne_curly {ls : List Lexeme} (hls : ∀ l ∈ ls, l.IsSound)
    (hk : ∀ l ∈ ls, l.kind ≠ .opening .curly) (h : ls.foldlM feed r = .ok r')
    (hall : r'.AllTops s) : r'.tops = r.tops := by
  induction ls generalizing r with
  | nil =>
    cases h
    rfl
  | cons l ls ih =>
    obtain ⟨t, ht, h⟩ := feedAll_cons.1 h
    have hls' : ∀ x ∈ ls, x.IsSound := fun x hx => hls x (by simp [hx])
    rw [ih hls' (fun x hx => hk x (by simp [hx])) h]
    have step := feed_step (hls l (by simp)).colon ht
    exact step.tops_of_ne_curly (hall.of_run hls' h) (hk l (by simp))

private theorem isSpace_of_blank {past cs : List Char} {c : Char}
    (hblank : ∀ d ∈ c :: cs, isBlank d = true)
    (h : c :: cs <:+ past ++ ['\x7d', '\n']) : isSpace c = true := by
  have curly : '\x7d' ∉ c :: cs := fun hd => absurd (hblank _ hd) (by decide)
  obtain ⟨q, hq⟩ := h
  rcases List.append_eq_append_iff.1 hq with ⟨v, -, hv⟩ | ⟨v, -, hv⟩
  · exact absurd (by simp [hv]) curly
  · cases v with
    | nil =>
      obtain ⟨rfl, -⟩ := List.cons.inj hv
      exact absurd (by simp) curly
    | cons d v =>
      cases v with
      | nil =>
        simp only [List.cons_append, List.nil_append, List.cons.injEq] at hv
        rw [← hv.2.1]
        decide
      | cons e v => simp at hv

private theorem trim_append_chars {past : List Char} {text : String}
    (hfits : Fits (past ++ ['\x7d', '\n']) text.toList)
    (h : (trim (text ++ String.ofList (s.chars ++ [' ']))).toList = s.core) : False := by
  rcases hfits with ⟨c, cs, htext, hspace, hsuffix⟩ | broken
  · obtain ⟨x, y, hxy, hx, hy⟩ := exists_trim (text ++ String.ofList (s.chars ++ [' ']))
    obtain ⟨tail, hchars, htail⟩ := s.chars_eq
    have left : dropEndWhile isBlank (x ++ s.core ++ y) = x ++ s.core :=
      dropEndWhile_append_blank (s.last_append x) hy
    have right : dropEndWhile isBlank (text.toList ++ s.core ++ (tail ++ [' '])) =
        text.toList ++ s.core := by
      apply dropEndWhile_append_blank (s.last_append text.toList)
      intro d hd
      rcases List.mem_append.1 hd with hd | hd
      · exact htail d hd
      · rw [List.mem_singleton.1 hd]
        decide
    rw [h, String.toList_append, String.toList_ofList, hchars] at hxy
    have same : text.toList ++ s.core ++ (tail ++ [' ']) = x ++ s.core ++ y := by
      rw [← hxy]
      simp
    rw [← same, right] at left
    have blank : ∀ d ∈ c :: cs, isBlank d = true := by
      rw [← htext, List.append_cancel_right left]
      exact hx
    rw [isSpace_of_blank blank (htext ▸ hsuffix)] at hspace
    cases hspace
  · apply s.newline_notMem_core
    rw [← h]
    apply trim_broken
    rw [String.toList_append]
    exact broken.append _

theorem Traced.trim_ne {past : List Char} {t : Reader} {j : Item} (hs : s.ReadAs head)
    (hr : r.Traced (past ++ ['\x7d', '\n'])) (hp : r.pending ≠ .nothing)
    (ht : head.foldlM feed r = .ok t) (hj : t.pending = .item j) :
    (trim j.text).toList ≠ s.core := by
  intro htrim
  obtain ⟨_, hsame, runs⟩ := feedAll_runs head hp hs.isRun fun l hl => (hs.isSound hl).colon
  rw [ht] at hsame
  cases hsame
  have grows := runs.pending
  rw [hj] at grows
  cases hi : r.pending with
  | nothing => exact hp hi
  | atRule => rw [hi] at grows; cases grows
  | item i =>
    rw [hi] at grows
    cases grows with
    | item text_eq =>
      have htext : textOf head = String.ofList (s.chars ++ [' ']) := by
        rw [← hs.text, String.ofList_toList]
      rw [text_eq, htext] at htrim
      exact trim_append_chars (hr.item i hi) htrim

theorem Traced.levels_header {past : List Char} {t : Reader} (hs : s.ReadAs head)
    (hr : r.Traced past) (hp : r.pending = .nothing) (ht : head.foldlM feed r = .ok t) :
    r.brackets = [] ∧ t.levels = r.levels := by
  have hb : r.brackets = [] := by
    apply Decidable.byContradiction
    intro hb
    exact hr.inside hb hp
  obtain ⟨ls, rfl⟩ := hs.first
  obtain ⟨i, _, hsame, item⟩ := feedAll_item ⟨.other, "."⟩ ls hp hb rfl
    (fun l hl => hs.isRun l (List.mem_cons_of_mem _ hl))
    fun l hl => (hs.isSound (List.mem_cons_of_mem _ hl)).colon
  rw [ht] at hsame
  cases hsame
  exact ⟨hb, item.levels⟩

/-- If the reader is not at rest behind a rule, the selector that follows begins no rule. -/
theorem tops_header_of_not_atRest {past : List Char} (hs : s.ReadAs head)
    (hr : r.Traced (past ++ ['\x7d', '\n'])) (hrest : ¬r.AtRest)
    (h : (head ++ [openCurly]).foldlM feed r = .ok r') (hall : r'.AllTops s) :
    r'.tops = r.tops := by
  obtain ⟨t, ht, hcurly⟩ := feedAll_append.1 h
  obtain ⟨_, hcurly, hnil⟩ := feedAll_cons.1 hcurly
  cases hnil
  have step : t.Step openCurly r' := feed_step (absurd · (by decide)) hcurly
  have allt : t.AllTops s := fun selector hselector => by
    rcases step.tops with same | ⟨-, -, _, more, -⟩
    · exact hall selector (same ▸ hselector)
    · exact hall selector (by simp [more, hselector])
  have same : t.tops = r.tops := by
    refine feedAll_tops_of_ne_curly (fun l hl => hs.isSound hl) (fun l hl hk => ?_) ht allt
    rcases hs.kind l hl with other | other <;> rw [hk] at other <;> cases other
  rcases step.tops with tops | ⟨outside, -, selector, more, opened⟩
  · rw [tops, same]
  · exfalso
    obtain ⟨-, opens⟩ := opened _ (hall selector (by simp [more]))
    obtain ⟨j, hj, htrim⟩ := Selector.exists_item (s := s) opens
    by_cases hp : r.pending = .nothing
    · -- in a block, the rule is not at the top
      obtain ⟨hb, levels⟩ := hr.levels_header hs hp ht
      exact hrest ⟨levels ▸ outside, hb, hp⟩
    · exact hr.trim_ne hs hp ht hj htrim

theorem tops_le_of_not_atRest {past next : List Char} {bodies : List (List Char)}
    (hs : s.ReadAs head)
    (hr : r.Traced (past ++ ['\x7d', '\n'])) (hrest : ¬r.AtRest)
    (hfree : s.AreFree (next :: bodies))
    (h : r.read (s.blocks (next :: bodies)) = .ok r') (hall : r'.AllTops s) :
    r'.tops.length ≤ r.tops.length + bodies.length := by
  obtain ⟨hnext, hshows⟩ := hfree next (by simp)
  have hlex := lex_block hs next (s.blocks bodies)
  rw [read, Selector.blocks_cons, hlex] at h
  obtain ⟨t, ht, hrun⟩ := feedAll_append.1 h
  have sound : ∀ l ∈ lex (next ++ '\x7d' :: '\n' :: s.blocks bodies), l.IsSound :=
    fun l hl => lex_sound hl
  have headSound : ∀ l ∈ head ++ [openCurly], l.IsSound := fun l hl => by
    apply lex_sound
    rw [hlex]
    exact List.mem_append_left _ hl
  have same := tops_header_of_not_atRest hs hr hrest ht (hall.of_run sound hrun)
  have traced := feedAll_traced headSound hr ht
  have bound := feedAll_spots sound traced hrun hall
  have text : (textOf (head ++ [openCurly])).toList = s.chars ++ [' ', '\x7b'] := by
    rw [textOf_append, String.toList_append, hs.text]
    simp
  have rest := Selector.spots_rest (Selector.endsLine_close past) hfree
  rw [textOf_lex, text, ← List.append_assoc, same] at bound
  omega

theorem Step.traced_of_broken {past : List Char} (h : r.Step l r') (hl : l.IsSound)
    (hr : r.Traced past) (hbroken : IsBroken l.text.toList) : r'.Traced [] := by
  refine ⟨(h.traced hl hr).inside, fun j hj => .inr ?_⟩
  cases h with
  | grows _ _ _ _ pending =>
    rcases pending with pending | ⟨-, -, pending⟩
    · rw [hj] at pending
      cases hp : r.pending with
      | nothing => rw [hp] at pending; cases pending
      | atRule => rw [hp] at pending; cases pending
      | item i =>
        rw [hp] at pending
        cases pending with
        | item text_eq =>
          rw [text_eq, String.toList_append]
          exact hbroken.after _
    · rw [pending] at hj
      cases hj
  | begins _ _ _ _ _ pending =>
    rcases pending with ⟨name, pending⟩ | ⟨i, pending, text_eq⟩
    · rw [pending] at hj
      cases hj
    · rw [pending] at hj
      cases hj
      rwa [text_eq]
  | skips _ _ _ _ _ pending => rw [pending] at hj; cases hj
  | adds _ _ _ _ _ _ _ pending => rw [pending] at hj; cases hj
  | opens _ _ _ _ _ _ _ pending => rw [pending] at hj; cases hj
  | closes _ _ _ _ _ _ _ _ pending => rw [pending] at hj; cases hj

/-- An open lexeme takes at least the beginning of the next rule. -/
theorem tops_le_of_open {next : List Char} {bodies : List (List Char)} {ls : List Lexeme}
    {isComment : Bool} {kind : Kind} {text : String} {t u : List Char}
    (hkind : kind.IsOpen isComment)
    (htakes : Takes t u) (hsplit : '\x7d' :: '\n' :: s.blocks (next :: bodies) = t ++ u)
    (hfree : s.AreFree (next :: bodies)) (hr : r.Traced [])
    (hsound : ∀ l ∈ ls ++ ⟨kind, text ++ String.ofList t⟩ :: lex u, l.IsSound)
    (hspots : s.spots [] (textOf ls).toList = 0)
    (h : (ls ++ ⟨kind, text ++ String.ofList t⟩ :: lex u).foldlM feed r = .ok r')
    (hall : r'.AllTops s) : r'.tops.length ≤ r.tops.length + bodies.length := by
  have sound : ∀ l ∈ ls, l.IsSound := fun l hl => hsound l (List.mem_append_left _ hl)
  have openSound : Lexeme.IsSound ⟨kind, text ++ String.ofList t⟩ := hsound _ (by simp)
  have restSound : ∀ l ∈ lex u, l.IsSound := fun l hl => lex_sound hl
  obtain ⟨r₁, hr₁, hopen⟩ := feedAll_append.1 h
  obtain ⟨r₂, hr₂, hrest⟩ := feedAll_cons.1 hopen
  have step : r₁.Step ⟨kind, text ++ String.ofList t⟩ r₂ := feed_step openSound.colon hr₂
  have all₂ : r₂.AllTops s := hall.of_run restSound hrest
  have same : r₂.tops = r₁.tops := by
    refine step.tops_of_ne_curly all₂ fun hcurly => ?_
    rcases hkind.cases with ⟨comment, rfl⟩ | rfl <;> cases hcurly
  have first := feedAll_spots sound hr hr₁ (fun selector hs => all₂ selector (same ▸ hs))
  rw [hspots] at first
  by_cases hu : u = []
  · subst hu
    rw [lex] at hrest
    cases hrest
    rw [same]
    omega
  · obtain ⟨w, hw⟩ := s.exists_blocks next bodies
    rw [hw] at hsplit
    obtain ⟨a, rfl, ha⟩ := htakes.exists_point hu hsplit
    have broken : IsBroken (text ++ String.ofList ('\x7d' :: '\n' :: '.' :: a)).toList :=
      ⟨text.toList, a, by simp⟩
    have traced := step.traced_of_broken openSound (feedAll_traced sound hr hr₁) broken
    have bound := feedAll_spots restSound traced hrest hall
    have cut := Selector.spots_cut (List.cons_ne_nil '.' a) hfree (by rw [hw, ha]; rfl)
    rw [textOf_lex, same] at bound
    simp only [List.length_cons] at cut
    omega

theorem Over.traced (h : Over [level] {} b) : b.Traced [] := by
  have hp : b.pending = .nothing := by
    have bare := h.pending
    cases hb : b.pending <;> simp [hb, Pending.bare] at bare
    rfl
  exact .of_nothing [] h.brackets hp

theorem Step.levels_of_space (h : r.Step lineEnd r') : r'.levels = r.levels := by
  cases h with
  | grows levels => exact levels
  | skips levels => exact levels
  | begins levels => exact levels
  | adds _ _ levels => exact levels
  | opens _ _ _ _ _ _ kind => simp at kind
  | closes _ _ _ _ _ _ _ kind => simp at kind

theorem Over.closed_of_atRest {q : Reader} (h : Over [level] r b) (hclose : b.Step closeCurly b')
    (hline : b'.Step lineEnd q) (hq : q.AtRest) :
    r.levels = [] ∧ r.brackets = [] ∧ r.pending.isWhole = true := by
  have outside : b'.levels = [] := hline.levels_of_space ▸ hq.levels
  rcases hclose.of_close rfl with ⟨-, levels, -⟩ | ⟨brackets, whole, ⟨closed, levels⟩, -⟩
  · exact absurd (levels ▸ outside) h.levels_ne_nil
  · refine ⟨?_, h.brackets ▸ brackets, h.isWhole ▸ whole⟩
    rw [h.levels, outside] at levels
    have length_eq := congrArg List.length levels
    simpa using length_eq

theorem Over.atRest_of_read {q : Reader} {next : List Char} {bodies : List (List Char)}
    (h : Over [level] {} b) (hs : s.ReadAs head)
    (hnowhere : s.spots [] (body ++ ['\x7d', '\n']) = 0) (hfree : s.AreFree (next :: bodies))
    (hsound : ∀ l ∈ lex body ++ [closeCurly, lineEnd], l.IsSound)
    (hq : (lex body ++ [closeCurly, lineEnd]).foldlM feed b = .ok q)
    (hread : q.read (s.blocks (next :: bodies)) = .ok r') (hall : r'.AllTops s)
    (htops : r'.tops.length = b.tops.length + (bodies.length + 1)) :
    q.AtRest ∧ q.tops.length = b.tops.length := by
  have text : (textOf (lex body ++ [closeCurly, lineEnd])).toList = body ++ ['\x7d', '\n'] := by
    rw [textOf_append, String.toList_append, textOf_lex]
    simp
  have traced := feedAll_traced hsound h.traced hq
  have most := feedAll_spots hsound h.traced hq (hall.of_run (fun l hl => lex_sound hl) hread)
  rw [text] at traced most
  rw [hnowhere] at most
  have least := (feedAll_tops (fun l hl => (hsound l hl).colon) hq).length_le
  refine ⟨?_, by omega⟩
  apply Classical.byContradiction
  intro hrest
  have few := tops_le_of_not_atRest hs traced hrest hfree hread hall
  omega

theorem AtRest.isClosed_of_read {next : List Char} {bodies : List (List Char)} (hr : r.AtRest)
    (hs : s.ReadAs head) (hfree : s.AreFree (body :: next :: bodies))
    (hread : r.read (s.blocks (body :: next :: bodies)) = .ok r') (hall : r'.AllTops s)
    (htops : r'.tops.length = r.tops.length + (bodies.length + 2)) :
    isClosed body = true ∧ ∃ q : Reader, q.AtRest ∧ q.tops.length = r.tops.length + 1 ∧
      q.read (s.blocks (next :: bodies)) = .ok r' := by
  obtain ⟨hbody, hshows⟩ := hfree body (by simp)
  have hrest : s.AreFree (next :: bodies) := fun b hb => hfree b (List.mem_cons_of_mem _ hb)
  have nowhere := Selector.spots_body hbody hshows
  rw [Selector.blocks_cons] at hread
  obtain ⟨b, around, hlength, hrun⟩ := hr.run_of_read hs hread
  have sound : ∀ l ∈ lex (body ++ '\x7d' :: '\n' :: s.blocks (next :: bodies)), l.IsSound :=
    fun l hl => lex_sound hl
  rcases lex_body hbody with ⟨space, ends⟩ | ⟨isComment, ls, kind, text, hkind, hlex, swallows⟩
  · rw [ends _ s.head_blocks] at hrun sound
    obtain ⟨q, hq, hothers⟩ := feedAll_append.1 hrun
    have firstSound : ∀ l ∈ lex body ++ [closeCurly, lineEnd], l.IsSound :=
      fun l hl => sound l (List.mem_append_left _ hl)
    obtain ⟨rest, qlength⟩ :=
      around.atRest_of_read hs nowhere hrest firstSound hq hothers hall (by omega)
    refine ⟨?_, q, rest, by omega, hothers⟩
    have still : ¬q.Exceeds b.tops.length := by
      rintro (more | ⟨-, -, pending⟩)
      · omega
      · exact pending rest.pending
    obtain ⟨r₀, b₀, b₁, hr₀, over₀, closed, line⟩ := around.steps_of_run firstSound hq still
    exact (isClosed_iff body).2 ⟨space, r₀, hr₀, over₀.closed_of_atRest closed line rest⟩
  · exfalso
    obtain ⟨kind', t, u, hsplit, hkind', hlex', takes⟩ := swallows (s.blocks (next :: bodies))
    rw [hlex'] at hrun sound
    have before : s.spots [] (textOf ls).toList = 0 := by
      have parts := congrArg (fun ls => (textOf ls).toList) hlex
      simp only [textOf_lex, textOf_append, String.toList_append] at parts
      rw [parts, List.append_assoc, Selector.spots_append] at nowhere
      omega
    have few := tops_le_of_open hkind' takes hsplit hrest around.traced sound before hrun hall
    omega

theorem AtRest.areContained_of_read {bodies : List (List Char)} (hr : r.AtRest) (hs : s.ReadAs head)
    (hbodies : ∀ body ∈ bodies, Selector.IsBody body)
    (hfree : bodies.length ≤ 1 ∨ ∀ body ∈ bodies, ¬s.core <:+: body)
    (hread : r.read (s.blocks bodies) = .ok r') (quiet : r'.Quiet) (hall : r'.AllTops s)
    (htops : r'.tops.length = r.tops.length + bodies.length) : areContained bodies = true := by
  induction bodies using areContained.induct generalizing r with
  | case1 => rfl
  | case2 body =>
    exact hr.isReadable_of_read hs (hbodies body (by simp)) (by simpa [Selector.blocks] using hread)
      quiet htops
  | case3 body next bodies ih =>
    rcases hfree with single | hfree
    · simp at single
    · have free : s.AreFree (body :: next :: bodies) := fun b hb => ⟨hbodies b hb, hfree b hb⟩
      obtain ⟨closed, q, rest, qlength, others⟩ := hr.isClosed_of_read hs free hread hall htops
      have inner := ih rest (fun b hb => hbodies b (List.mem_cons_of_mem _ hb))
        (.inr fun b hb => hfree b (List.mem_cons_of_mem _ hb)) others
        (by simp only [List.length_cons] at htops ⊢; omega)
      simp [areContained, closed, inner]

end Reader

end UtilityCss
