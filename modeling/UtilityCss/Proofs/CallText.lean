import UtilityCss.Proofs.CallExpansion

/-!
The text around theme calls. A text is read as closed calls from the left, each with the text before
it, and a tail without such a call. Expanding puts values in the places of the calls and keeps the
rest, with one exception: where the tail holds a call that is not closed, what stands before that is
written twice.
-/
namespace UtilityCss

namespace ThemeCall

/-! ### Balanced text -/

/-- Text in which every parenthesis has its partner and every quote is closed. Inside of quotes no
character counts. -/
inductive Balanced : List Char → Prop
  | nil : Balanced []
  | plain {c : Char} {cs : List Char} (hc : c ∉ ['(', ')', '"', '\'']) (h : Balanced cs) :
      Balanced (c :: cs)
  | quoted {q : Char} {inside cs : List Char} (hq : q = '"' ∨ q = '\'') (hinside : q ∉ inside)
      (h : Balanced cs) : Balanced (q :: inside ++ q :: cs)
  | parens {inside cs : List Char} (hinside : Balanced inside) (h : Balanced cs) :
      Balanced ('(' :: inside ++ ')' :: cs)

/-- Balanced texts, as many with a closing parenthesis behind them as are open, and one more. -/
inductive Closing : Nat → List Char → Prop
  | last {cs : List Char} (h : Balanced cs) : Closing 0 cs
  | more {depth : Nat} {cs cs' : List Char} (h : Balanced cs) (h' : Closing depth cs') :
      Closing (depth + 1) (cs ++ ')' :: cs')

theorem Closing.prepend {depth : Nat} {cs : List Char} (h : Closing depth cs) (front : List Char)
    (hfront : ∀ cs, Balanced cs → Balanced (front ++ cs)) : Closing depth (front ++ cs) := by
  cases h with
  | last h => exact .last (hfront _ h)
  | more h h' =>
    rw [← List.append_assoc]
    exact .more (hfront _ h) h'

def Awaits (depth : Nat) : Option Char → List Char → Prop
  | none, cs => Closing depth cs
  | some q, cs => ∃ inside rest, cs = inside ++ q :: rest ∧ q ∉ inside ∧ Closing depth rest

section

variable {depth : Nat} {quote : Option Char} {cs inside behind : List Char}

/-! One step of the search for the closing parenthesis, by the character. -/

theorem close?_end : close? 0 none (')' :: cs) = some ([], cs) := rfl

theorem close?_open :
    close? depth none ('(' :: cs) =
      (close? (depth + 1) none cs).map fun p => ('(' :: p.1, p.2) := by
  rw [close?.eq_def]
  rfl

theorem close?_shut :
    close? (depth + 1) none (')' :: cs) =
      (close? depth none cs).map fun p => (')' :: p.1, p.2) := by
  rw [close?.eq_def]
  rfl

theorem close?_quote {q : Char} (hq : q = '"' ∨ q = '\'') :
    close? depth none (q :: cs) = (close? depth (some q) cs).map fun p => (q :: p.1, p.2) := by
  rw [close?.eq_def]
  rcases hq with rfl | rfl <;> rfl

theorem close?_plain {c : Char} (hc : c ∉ ['(', ')', '"', '\'']) :
    close? depth none (c :: cs) = (close? depth none cs).map fun p => (c :: p.1, p.2) := by
  simp only [List.mem_cons, List.not_mem_nil, or_false, not_or] at hc
  rw [close?.eq_def]
  simp [hc]

theorem close?_unquote {q : Char} :
    close? depth (some q) (q :: cs) = (close? depth none cs).map fun p => (q :: p.1, p.2) := by
  rw [close?.eq_def]
  simp

theorem close?_inside {q c : Char} (hc : c ≠ q) :
    close? depth (some q) (c :: cs) = (close? depth (some q) cs).map fun p => (c :: p.1, p.2) := by
  rw [close?.eq_def]
  simp [hc]

theorem close?_sound (h : close? depth quote cs = some (inside, behind)) :
    cs = inside ++ ')' :: behind ∧ Awaits depth quote inside := by
  induction cs generalizing depth quote inside with
  | nil => simp [close?] at h
  | cons c cs ih =>
    have hlater : ∀ {depth quote}, (close? depth quote cs).map (fun p => (c :: p.1, p.2)) =
        some (inside, behind) → ∃ later, inside = c :: later ∧ cs = later ++ ')' :: behind ∧
          Awaits depth quote later := by
      intro depth quote h
      obtain ⟨⟨later, _⟩, hclose, heq⟩ := Option.map_eq_some_iff.1 h
      cases heq
      exact ⟨later, rfl, ih hclose⟩
    cases quote with
    | some q =>
      by_cases hq : c = q
      · subst hq
        rw [close?_unquote] at h
        obtain ⟨later, rfl, rfl, hclosing⟩ := hlater h
        exact ⟨rfl, [], later, rfl, List.not_mem_nil, hclosing⟩
      · rw [close?_inside hq] at h
        obtain ⟨_, rfl, rfl, quoted, rest, rfl, hquoted, hclosing⟩ := hlater h
        have hnot : q ∉ c :: quoted := List.not_mem_cons_of_ne_of_not_mem (Ne.symm hq) hquoted
        exact ⟨rfl, c :: quoted, rest, rfl, hnot, hclosing⟩
    | none =>
      by_cases hplain : c ∉ ['(', ')', '"', '\'']
      · rw [close?_plain hplain] at h
        obtain ⟨later, rfl, rfl, hclosing⟩ := hlater h
        exact ⟨rfl, hclosing.prepend [c] fun _ => .plain hplain⟩
      · simp only [List.mem_cons, List.not_mem_nil, or_false, not_not] at hplain
        rcases hplain with rfl | rfl | hquote
        · rw [close?_open] at h
          obtain ⟨_, rfl, rfl, hclosing⟩ := hlater h
          cases hclosing with
          | @more _ first rest hfirst hrest =>
            refine ⟨rfl, ?_⟩
            have hparens := hrest.prepend ('(' :: first ++ [')']) fun cs hcs => by
              simpa using Balanced.parens hfirst hcs
            simpa [Awaits] using hparens
        · cases depth with
          | zero =>
            cases h
            exact ⟨rfl, .last .nil⟩
          | succ depth =>
            rw [close?_shut] at h
            obtain ⟨later, rfl, rfl, hclosing⟩ := hlater h
            exact ⟨rfl, .more .nil hclosing⟩
        · rw [close?_quote hquote] at h
          obtain ⟨_, rfl, rfl, quoted, rest, rfl, hquoted, hclosing⟩ := hlater h
          refine ⟨rfl, ?_⟩
          have hstring := hclosing.prepend (c :: quoted ++ [c]) fun cs hcs => by
            simpa using Balanced.quoted hquote hquoted hcs
          simpa [Awaits] using hstring

private theorem close?_quoted {q : Char} (h : q ∉ inside) :
    close? depth (some q) (inside ++ q :: cs) =
      (close? depth none cs).map fun p => (inside ++ q :: p.1, p.2) := by
  induction inside with
  | nil => exact close?_unquote
  | cons c inside ih =>
    rw [List.mem_cons, not_or] at h
    rw [List.cons_append, close?_inside (Ne.symm h.1), ih h.2, Option.map_map]
    rfl

theorem Balanced.close? (h : Balanced inside) (depth : Nat) (cs : List Char) :
    ThemeCall.close? depth none (inside ++ cs) =
      (ThemeCall.close? depth none cs).map fun p => (inside ++ p.1, p.2) := by
  induction h generalizing depth cs with
  | nil => simp
  | plain hc _ ih =>
    rw [List.cons_append, close?_plain hc, ih, Option.map_map]
    rfl
  | quoted hq hinside _ ih =>
    rw [List.append_assoc, List.cons_append, List.cons_append, close?_quote hq,
      close?_quoted hinside, ih, Option.map_map, Option.map_map]
    congr 1
    funext p
    simp
  | parens _ _ ihinside ih =>
    rw [List.append_assoc, List.cons_append, List.cons_append, close?_open, ihinside,
      close?_shut, ih, Option.map_map, Option.map_map, Option.map_map]
    congr 1
    funext p
    simp

theorem close?_eq_some_iff :
    close? 0 none cs = some (inside, behind) ↔ cs = inside ++ ')' :: behind ∧ Balanced inside := by
  constructor
  · intro h
    obtain ⟨rfl, hclosing⟩ := close?_sound h
    cases hclosing with
    | last hbalanced => exact ⟨rfl, hbalanced⟩
  · rintro ⟨rfl, hbalanced⟩
    rw [hbalanced.close?, close?_end]
    simp

theorem close?_eq_none_iff :
    close? 0 none cs = none ↔ ∀ inside behind, cs = inside ++ ')' :: behind → ¬Balanced inside := by
  constructor
  · intro h inside behind hcs hbalanced
    rw [close?_eq_some_iff.2 ⟨hcs, hbalanced⟩] at h
    cases h
  · intro h
    cases hclose : close? 0 none cs with
    | none => rfl
    | some p =>
      obtain ⟨hcs, hbalanced⟩ := close?_eq_some_iff.1 hclose
      exact absurd hbalanced (h _ _ hcs)

end

/-! ### Openings -/

section

variable {inName : Bool} {cs before behind : List Char}

def Standalone (before : List Char) : Prop :=
  ∀ c ∈ before.getLast?, isNamePart c = false

theorem standalone_cons {c : Char} :
    Standalone (c :: before) ↔ (before = [] → isNamePart c = false) ∧ Standalone before := by
  by_cases hnil : before = []
  · simp [hnil, Standalone]
  · rw [Standalone, getLast?_cons_of_ne_nil hnil]
    simp [hnil, Standalone]

def Clear (cs : List Char) : Prop :=
  ∀ before behind, cs = before ++ opening ++ behind → ¬Standalone before

theorem find?_eq_none_iff : find? false cs = none ↔ Clear cs := by
  constructor
  · rintro h before behind rfl hlast
    exact find?_ne_none hlast (fun _ => rfl) h
  · intro h
    cases hfind : find? false cs with
    | none => rfl
    | some p =>
      obtain ⟨hcs, -, -, hlast⟩ := find?_before hfind
      exact absurd hlast (h _ _ hcs)

private theorem find?_first (hbefore : find? inName before = none) (hlast : Standalone before)
    (hname : before = [] → inName = false) :
    find? inName (before ++ opening ++ behind) = some (before, behind) := by
  induction before generalizing inName with
  | nil =>
    rw [hname rfl]
    simp [find?, opening]
  | cons c before ih =>
    obtain ⟨hopening, hrest⟩ := find?_cons_eq_none.1 hbefore
    have hnot : ¬(!inName && opening.isPrefixOf (c :: before ++ (opening ++ behind))) = true := by
      rw [Bool.and_eq_true, Bool.not_eq_true', List.isPrefixOf_iff_prefix]
      exact fun h => not_opening_append (.inl hlast) (hopening h.1) h.2
    rw [List.append_assoc, List.cons_append, find?]
    rw [List.cons_append] at hnot
    obtain ⟨hc, hlast⟩ := standalone_cons.1 hlast
    rw [if_neg hnot, ← List.append_assoc, ih hrest hlast hc]
    rfl

theorem find?_eq_some_iff : find? false cs = some (before, behind) ↔
    cs = before ++ opening ++ behind ∧ Standalone before ∧ Clear before := by
  constructor
  · intro h
    obtain ⟨hcs, hclear, -, hlast⟩ := find?_before h
    exact ⟨hcs, hlast, find?_eq_none_iff.1 hclear⟩
  · rintro ⟨rfl, hlast, hclear⟩
    exact find?_first (find?_eq_none_iff.2 hclear) hlast fun _ => rfl

end

/-! ### The calls of a text -/

structure Piece where
  before : List Char
  arguments : List Char
  standalone : Standalone before
  clear : Clear before
  balanced : Balanced arguments

def Piece.text (p : Piece) : List Char :=
  p.before ++ opening ++ p.arguments ++ [')']

/-- A text that does not begin with a closed call, whatever stands before that: none opens, or the
first one that does is not closed. `lead` is what stands before the latter. -/
inductive Leftover : (cs lead : List Char) → Prop
  | plain {cs : List Char} (h : Clear cs) : Leftover cs []
  | unclosed {lead behind : List Char} (standalone : Standalone lead) (clear : Clear lead)
      (unclosed : ∀ inside rest, behind = inside ++ ')' :: rest → ¬Balanced inside) :
      Leftover (lead ++ opening ++ behind) lead

/-- A text as its closed calls from the left, as far as the first call that is not closed. -/
structure Reading (cs : List Char) where
  pieces : List Piece
  tail : List Char
  lead : List Char
  text : cs = pieces.flatMap Piece.text ++ tail
  leftover : Leftover tail lead

theorem ofArguments_eq (before arguments rest : List Char) :
    ofArguments before arguments rest = { ofArguments [] arguments [] with before, rest } := by
  unfold ofArguments
  dsimp only

@[simp] theorem before_ofArguments (before arguments rest : List Char) :
    (ofArguments before arguments rest).before = before := by
  rw [ofArguments_eq]

@[simp] theorem rest_ofArguments (before arguments rest : List Char) :
    (ofArguments before arguments rest).rest = rest := by
  rw [ofArguments_eq]

theorem next_piece (p : Piece) (rest : List Char) :
    next (p.text ++ rest) = .call (ofArguments p.before p.arguments rest) := by
  have hfind : find? false (p.text ++ rest) = some (p.before, p.arguments ++ ')' :: rest) := by
    rw [find?_eq_some_iff]
    exact ⟨by simp [Piece.text], p.standalone, p.clear⟩
  have hclose : close? 0 none (p.arguments ++ ')' :: rest) = some (p.arguments, rest) :=
    close?_eq_some_iff.2 ⟨rfl, p.balanced⟩
  rw [next, hfind]
  dsimp only
  rw [hclose]

theorem exists_piece {cs : List Char} {c : ThemeCall} (h : next cs = .call c) :
    ∃ p : Piece, cs = p.text ++ c.rest ∧ c = ofArguments p.before p.arguments c.rest := by
  unfold next at h
  split at h
  · cases h
  next before behind hfind =>
    split at h
    · cases h
    next arguments rest hclose =>
      cases h
      obtain ⟨rfl, hstandalone, hclear⟩ := find?_eq_some_iff.1 hfind
      obtain ⟨rfl, hbalanced⟩ := close?_eq_some_iff.1 hclose
      let p : Piece := ⟨before, arguments, hstandalone, hclear, hbalanced⟩
      exact ⟨p, by simp [p, Piece.text], by rw [rest_ofArguments]⟩

private theorem leftover_of_unclosed {cs lead : List Char} (h : next cs = .unclosed lead) :
    Leftover cs lead := by
  unfold next at h
  split at h
  · cases h
  next before behind hfind =>
    split at h
    next hclose =>
      cases h
      obtain ⟨rfl, hstandalone, hclear⟩ := find?_eq_some_iff.1 hfind
      exact .unclosed hstandalone hclear (close?_eq_none_iff.1 hclose)
    · cases h

theorem Leftover.next {cs lead : List Char} (h : Leftover cs lead) :
    ThemeCall.next cs = .plain ∧ lead = [] ∨ ThemeCall.next cs = .unclosed lead := by
  cases h with
  | plain hclear =>
    refine .inl ⟨?_, rfl⟩
    rw [ThemeCall.next, find?_eq_none_iff.2 hclear]
  | unclosed hstandalone hclear hunclosed =>
    refine .inr ?_
    rw [ThemeCall.next, find?_eq_some_iff.2 ⟨rfl, hstandalone, hclear⟩]
    dsimp only
    rw [close?_eq_none_iff.2 hunclosed]

theorem Leftover.lead_eq_nil_iff {cs lead : List Char} (h : Leftover cs lead) :
    lead = [] ↔ Clear cs ∨ opening <+: cs := by
  cases h with
  | plain hclear => simp [hclear]
  | @unclosed lead behind hstandalone hclear _ =>
    constructor
    · rintro rfl
      exact .inr (List.prefix_append opening behind)
    · rintro (hnone | ⟨rest, hrest⟩)
      · exact absurd hstandalone (hnone lead behind rfl)
      · have hfind : find? false (lead ++ opening ++ behind) = some (lead, behind) :=
          find?_eq_some_iff.2 ⟨rfl, hstandalone, hclear⟩
        have hempty : Clear [] := find?_eq_none_iff.1 rfl
        have hfirst : find? false ([] ++ opening ++ rest) = some ([], rest) :=
          find?_eq_some_iff.2 ⟨rfl, by simp [Standalone], hempty⟩
        rw [List.nil_append, hrest, hfind] at hfirst
        cases hfirst
        rfl

def Reading.cons {cs : List Char} (p : Piece) (r : Reading cs) : Reading (p.text ++ cs) where
  pieces := p :: r.pieces
  tail := r.tail
  lead := r.lead
  text := by rw [List.flatMap_cons, List.append_assoc, ← r.text]
  leftover := r.leftover

theorem exists_reading (cs : List Char) : Nonempty (Reading cs) := by
  cases hnext : next cs with
  | plain => exact ⟨[], cs, [], rfl, .plain (find?_eq_none_iff.1 (find?_of_next_plain hnext))⟩
  | unclosed lead => exact ⟨[], cs, lead, rfl, leftover_of_unclosed hnext⟩
  | call c =>
    obtain ⟨p, hcs, -⟩ := exists_piece hnext
    obtain ⟨r⟩ := exists_reading c.rest
    exact ⟨hcs ▸ r.cons p⟩
termination_by cs.length
decreasing_by exact (length_of_next hnext).1

private theorem occurs_of_piece {cs rest : List Char} (p : Piece) (h : cs = p.text ++ rest) :
    Occurs cs := by
  refine ⟨p.before, p.arguments ++ ')' :: rest, by simp [h, Piece.text], p.standalone, ?_⟩
  rw [close?_eq_some_iff.2 ⟨rfl, p.balanced⟩]
  rfl

namespace Reading

variable {cs : List Char}

def filled (r : Reading cs) (values : List (List Char)) : List Char :=
  (List.zipWith (fun p value => p.before ++ value) r.pieces values).flatten

theorem pieces_eq_nil (r : Reading cs) (h : ¬Occurs cs) : r.pieces = [] := by
  cases hpieces : r.pieces with
  | nil => rfl
  | cons p ps =>
    have htext := r.text
    rw [hpieces, List.flatMap_cons, List.append_assoc] at htext
    exact absurd (occurs_of_piece p htext) h

end Reading

end ThemeCall

namespace Theme

open ThemeCall

variable {t : Theme} {chain : List String}

/-! ### The value of a call -/

private theorem callValue_ofArguments (before arguments rest : List Char) :
    t.callValue chain (ofArguments before arguments rest) =
      t.callValue chain (ofArguments [] arguments []) := by
  rw [ofArguments_eq before arguments rest]
  generalize ofArguments [] arguments [] = c
  rfl

def evaluate (t : Theme) (arguments : List Char) : Except Error (List Char) :=
  t.callValue [] (ofArguments [] arguments [])

private theorem expandCalls_pieces (pieces : List Piece) {tail lead : List Char}
    (h : Leftover tail lead) :
    t.expandCalls [] (pieces.flatMap Piece.text ++ tail) =
      (pieces.mapM fun p => t.evaluate p.arguments).map fun values =>
        (List.zipWith (fun p value => p.before ++ value) pieces values).flatten ++
          lead ++ tail := by
  induction pieces with
  | nil =>
    rcases h.next with ⟨hplain, rfl⟩ | hunclosed
    · exact expandCalls_plain hplain
    · exact expandCalls_unclosed hunclosed
  | cons p pieces ih =>
    have hnext := next_piece p (pieces.flatMap Piece.text ++ tail)
    rw [List.flatMap_cons, List.append_assoc, expandCalls_eq_bind hnext, callValue_ofArguments,
      rest_ofArguments, before_ofArguments, ih, List.mapM_cons, ← evaluate]
    cases t.evaluate p.arguments with
    | error e => rfl
    | ok value =>
      cases pieces.mapM fun p => t.evaluate p.arguments with
      | error e => rfl
      | ok values =>
        simp [bind, Except.bind, Except.map, pure, Except.pure]

/-- A text is expanded by putting the values of its closed calls, evaluated from the left, in their
places. All other text is kept as it is, except that what stands between the last of these calls and
one that is not closed is written twice. So it is written once exactly if there is no such call, or
nothing before it. A text in which no closed call stands is put behind its own beginning, up to the
unclosed call. -/
theorem expandText_around (t : Theme) (s : String) :
    Nonempty (Reading s.toList) ∧ ∀ r : Reading s.toList,
      t.expandText s = ((r.pieces.mapM fun p => t.evaluate p.arguments).map fun values =>
        String.ofList (r.filled values ++ r.lead ++ r.tail)) ∧
      (r.lead = [] ↔ Clear r.tail ∨ opening <+: r.tail) ∧
      (¬Occurs s.toList → t.expandText s = .ok (String.ofList r.lead ++ s)) := by
  refine ⟨exists_reading s.toList, fun r => ?_⟩
  have hexpand : t.expandText s = (r.pieces.mapM fun p => t.evaluate p.arguments).map fun values =>
      String.ofList (r.filled values ++ r.lead ++ r.tail) := by
    have hpieces := expandCalls_pieces (t := t) r.pieces r.leftover
    rw [← r.text] at hpieces
    rw [expandText, hpieces]
    cases r.pieces.mapM fun p => t.evaluate p.arguments <;> rfl
  refine ⟨hexpand, r.leftover.lead_eq_nil_iff, fun hnone => ?_⟩
  have hpieces := r.pieces_eq_nil hnone
  have htail : r.tail = s.toList := by
    have htext := r.text
    rwa [hpieces, List.flatMap_nil, List.nil_append, eq_comm] at htext
  rw [hexpand, hpieces, htail]
  simp [Reading.filled, hpieces, Except.map, pure, Except.pure]

theorem not_occurs_unclosed : ¬Occurs "a theme(".toList := by
  rintro ⟨before, behind, heq, -, hclose⟩
  have hlength := congrArg List.length heq
  simp [opening] at hlength
  rcases before with _ | ⟨x, _ | ⟨y, before⟩⟩
  · simp [opening] at heq
  · simp [opening] at heq
  · obtain rfl : behind = [] := List.length_eq_zero_iff.1 (by simp at hlength; omega)
    cases hclose

theorem expandText_around_unclosed :
    calledTheme.expandText "b theme(--a) c theme(" = .ok "b 1px c  c theme(" ∧
      ¬Occurs "a theme(".toList ∧ calledTheme.expandText "a theme(" = .ok "a a theme(" := by
  let call : Piece := ⟨"b ".toList, "--a".toList, by simp [Standalone, isNamePart],
    find?_eq_none_iff.1 rfl, .plain (by decide) (.plain (by decide) (.plain (by decide) .nil))⟩
  have hbehind : Leftover (" c ".toList ++ opening ++ []) " c ".toList :=
    .unclosed (by simp [Standalone, isNamePart]) (find?_eq_none_iff.1 rfl) (by simp)
  have halone : Leftover ("a ".toList ++ opening ++ []) "a ".toList :=
    .unclosed (by simp [Standalone, isNamePart]) (find?_eq_none_iff.1 rfl) (by simp)
  let r : Reading "b theme(--a) c theme(".toList := ⟨[call], " c theme(".toList, _, rfl, hbehind⟩
  let r' : Reading "a theme(".toList := ⟨[], "a theme(".toList, _, rfl, halone⟩
  have hvalue : calledTheme.evaluate "--a".toList = .ok "1px".toList := by
    have hcall : ofArguments [] "--a".toList [] =
        ⟨[], "--a".toList, "--a", none, none, []⟩ := by cbv
    rw [evaluate, hcall, callValue_variable]
  have hvalues : r.pieces.mapM (fun p => calledTheme.evaluate p.arguments) =
      .ok ["1px".toList] := by
    rw [show r.pieces = [call] from rfl, List.mapM_cons, hvalue]
    rfl
  refine ⟨?_, not_occurs_unclosed, ((expandText_around calledTheme _).2 r').2.2 not_occurs_unclosed⟩
  rw [((expandText_around calledTheme _).2 r).1, hvalues]
  rfl

theorem expandText_repeats :
    ¬∀ (t : Theme) (s out : String), t.expandText s = .ok out → ¬Occurs s.toList → out = s := by
  intro h
  have hnext : next "a theme(".toList = .unclosed "a ".toList := rfl
  have hexpand : expandText {} "a theme(" = .ok "a a theme(" := by
    rw [expandText, expandCalls_unclosed hnext]
    rfl
  exact absurd (h _ _ _ hexpand not_occurs_unclosed) (by decide)

end Theme

end UtilityCss
