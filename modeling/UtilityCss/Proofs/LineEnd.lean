import UtilityCss.Proofs.LexemeReach
import UtilityCss.Proofs.Reading

/-!
Lexemes at the end of a printed line. The line ends with white space, whatever follows it, unless a
comment or an address is still open: then that lexeme takes the beginning of what follows.
-/
namespace UtilityCss

open Text Lexeme

def Lexeme.Kind.IsOpen (isComment : Bool) (kind : Kind) : Prop :=
  if isComment then ∃ body, kind = .comment body else kind = .other

/-- What an open lexeme takes of the text behind its line: all of it, or up to the character that
closes the lexeme. -/
def Takes (t u : List Char) : Prop :=
  u ≠ [] → ∃ z ∈ t.getLast?, z = ')' ∨ z = '/'

def GoesOn (isComment : Bool) (es : List Char) (scanned : List Char → Kind × Nat) : Prop :=
  ∀ v, ∃ kind t u, scanned v = (kind, es.length + 2 + t.length) ∧ v = t ++ u ∧
    kind.IsOpen isComment ∧ Takes t u

def Stays (es : List Char) (scanned : List Char → Kind × Nat) : Prop :=
  ∃ kind n, n - 1 ≤ es.length ∧ ∀ v, scanned v = (kind, n)

theorem Awaits.goesOn {σ : Type} {step : σ → Char → Option Char → Option σ} {closed : σ → Prop}
    {z : Char} (h : Awaits step closed z) (hz : z = ')' ∨ z = '/') {isComment : Bool}
    {es x : List Char} {s : σ} {n : Nat} {kind : List Char → Kind}
    (hn : n + x.length = es.length + 1) (hkind : ∀ v, (kind v).IsOpen isComment)
    (hopen : ∀ v, ∃ s', ¬closed s' ∧
      reach step s (x ++ '\n' :: v) = x.length + 1 + reach step s' v) :
    GoesOn isComment es fun v => (kind v, n + reach step s (x ++ '\n' :: v)) := by
  intro v
  obtain ⟨s', hs', hreach⟩ := hopen v
  have le := reach_le_length step s' v
  refine ⟨kind v, v.take (reach step s' v), v.drop (reach step s' v), ?_,
    (List.take_append_drop ..).symm, hkind v, fun hrest => ⟨z, h.reach_last hs' hrest, hz⟩⟩
  simp only [hreach, List.length_take, Nat.min_eq_left le, Prod.mk.injEq, true_and]
  omega

variable {c : Char} {es : List Char}

theorem Stays.const {scanned : List Char → Kind × Nat} (kind : Kind) (n : Nat)
    (hn : n - 1 ≤ es.length) (h : ∀ v, scanned v = (kind, n)) : Stays es scanned :=
  ⟨kind, n, hn, h⟩

private theorem scan_slash (es : List Char) : Stays es (fun v => scan '/' (es ++ '\n' :: v)) ∨
    ∃ b, GoesOn b es fun v => scan '/' (es ++ '\n' :: v) := by
  cases es with
  | nil => exact .inl (.const .other 1 (Nat.zero_le _) fun v => rfl)
  | cons d es =>
    by_cases hd : d = '*'
    · subst hd
      have hscan : ∀ v, scan '/' ('*' :: es ++ '\n' :: v) =
          (.comment (commentBody (('/' :: '*' :: (es ++ '\n' :: v)).take
            (2 + reach commentStep .body (es ++ '\n' :: v)))),
            2 + reach commentStep .body (es ++ '\n' :: v)) := fun v => rfl
      simp only [hscan]
      rcases commentStep_awaits.reach_line (by decide) es .body with ⟨n, hn, hreach⟩ | hopen
      · refine .inl
          (.const (.comment (commentBody ('/' :: '*' :: es.take n))) (2 + n) ?_ fun v => ?_)
        · simp only [List.length_cons]
          omega
        · rw [hreach, Nat.add_comm 2 n]
          simp [List.take_append_of_le_length hn]
      · refine .inr ⟨true, commentStep_awaits.goesOn (.inr rfl) ?_ (fun v => ⟨_, rfl⟩) hopen⟩
        simp only [List.length_cons]
        omega
    · refine .inl (.const .other 1 (Nat.zero_le _) fun v => ?_)
      simp [scan, hd]

theorem scan_sign (hc : c ∈ signs) (h : IsLine es) : Stays es (fun v => scan c (es ++ '\n' :: v)) ∨
    ∃ b, GoesOn b es fun v => scan c (es ++ '\n' :: v) := by
  have hnext : ∀ v, (es ++ '\n' :: v).head? = (es ++ ['\n']).head? := head?_append_cons es '\n'
  obtain ⟨n, hn, hname⟩ := nameLength_ends es h
  obtain ⟨b, hstart⟩ := startsName_ends (y := '\n') (by decide) (by decide) es
  simp only [signs, List.mem_cons, List.not_mem_nil, or_false] at hc
  rcases hc with rfl | rfl | rfl | rfl | rfl | rfl | rfl | rfl | rfl | rfl | rfl | rfl | rfl | rfl
  · obtain ⟨m, hm, hreach⟩ := stringLength_ends '"' (.inl rfl) es h
    exact .inl (.const .other (1 + m) (by omega) fun v => by simp only [scan, hreach])
  · obtain ⟨m, hm, hreach⟩ := stringLength_ends '\'' (.inr rfl) es h
    exact .inl (.const .other (1 + m) (by omega) fun v => by simp only [scan, hreach])
  iterate 8 exact .inl (.const _ 1 (Nat.zero_le _) fun v => rfl)
  · -- a hash: with a name or without one
    left
    by_cases hb : (b || (es ++ ['\n']).head?.any fun d => d.isDigit || d == '-') = true
    · exact .const .other (1 + n) (by omega) fun v => by
        simp only [scan, hstart, hnext, hname, hb, if_true]
    · exact .const .other 1 (Nat.zero_le _) fun v => by
        simp only [scan, hstart, hnext, hb]
        rfl
  · left
    cases b with
    | true =>
      refine .const (.atKeyword (String.ofList (decodeName .plain (es.take n)))) (1 + n) (by omega)
        fun v => ?_
      simp only [scan, hstart, if_true, hname, List.take_append_of_le_length hn]
    | false => exact .const .other 1 (Nat.zero_le _) fun v => by simp [scan, hstart]
  · exact scan_slash es
  · left
    have hpre := isPrefixOf_append_cons ['!', '-', '-'] (z := '\n') (by decide) es
    cases hes : ['!', '-', '-'].isPrefixOf es with
    | true =>
      have hlength := (List.isPrefixOf_iff_prefix.1 hes).length_le
      exact .const .other 4 (by simpa using hlength) fun v =>
        by simp only [scan, hpre, hes, if_true]
    | false => exact .const .other 1 (Nat.zero_le _) fun v => by simp [scan, hpre, hes]

theorem IsLine.of_round {tail : List Char} (h : IsLine ('(' :: tail)) :
    tail ≠ [] ∧ IsLine tail := by
  refine ⟨?_, IsLine.suffix _ _ (List.suffix_cons ..) h⟩
  rintro rfl
  exact absurd (h '(' rfl) (by decide)

theorem exists_dropWhile_line {tail : List Char} (hne : tail ≠ []) (h : IsLine tail) :
    ∃ d ds, tail.dropWhile isSpace = d :: ds := by
  apply List.exists_cons_of_ne_nil
  intro hall
  have hmark := h (tail.getLast hne) (List.getLast?_eq_some_getLast hne)
  have spaces : tail.takeWhile isSpace = tail := by
    simpa [hall] using List.takeWhile_append_dropWhile (p := isSpace) (l := tail)
  have all_spaces : ∀ x ∈ tail, isSpace x = true := by
    rw [← spaces]
    exact List.all_eq_true.1 List.all_takeWhile
  have hspace := all_spaces _ (List.getLast_mem hne)
  rcases isLineMark_iff.1 hmark with hc | hc | hc <;> rw [hc] at hspace
    <;> exact absurd hspace (by decide)

theorem scanName_line (h : IsLine (c :: es)) :
    Stays es (fun v => scanName (c :: es ++ '\n' :: v)) ∨
      ∃ b, GoesOn b es fun v => scanName (c :: es ++ '\n' :: v) := by
  obtain ⟨n, hn, hname⟩ := nameLength_ends (c :: es) h
  rw [List.length_cons] at hn
  have hdrop : ∀ v, (c :: es ++ '\n' :: v).drop n = (c :: es).drop n ++ '\n' :: v := fun v =>
    List.drop_append_of_le_length (by simpa using hn)
  have htake : ∀ v, (c :: es ++ '\n' :: v).take n = (c :: es).take n := fun v =>
    List.take_append_of_le_length (by simpa using hn)
  have hbehind := List.length_drop (i := n) (l := c :: es)
  simp only [scanName, hname, hdrop, htake]
  cases htail : (c :: es).drop n with
  | nil => exact .inl (.const .other n (by omega) fun v => rfl)
  | cons d tail =>
    rw [htail, List.length_cons, List.length_cons] at hbehind
    by_cases hd : d = '('
    · subst hd
      have hline : IsLine ('(' :: tail) :=
        htail ▸ IsLine.suffix _ _ (List.drop_suffix n (c :: es)) h
      have function : Stays es fun _ => (Kind.opening .round, n + 1) :=
        .const (.opening .round) (n + 1) (by omega) fun _ => rfl
      obtain ⟨e, ds, hfirst⟩ := exists_dropWhile_line hline.of_round.1 hline.of_round.2
      have hquote : ∀ v, ((tail ++ '\n' :: v).dropWhile isSpace).head? = some e := by
        intro v
        rw [List.dropWhile_append, hfirst]
        rfl
      simp only [List.cons_append, hquote]
      split
      · split
        · exact .inl function
        · rcases urlStep_awaits.reach_line (by decide) tail .lead with ⟨m, hm, hreach⟩ | hopen
          · exact .inl (.const .other (n + 1 + m) (by omega) fun v => by rw [hreach])
          · refine .inr ⟨false, ?_⟩
            exact urlStep_awaits.goesOn (.inl rfl) (by omega) (fun _ => rfl) hopen
      · exact .inl function
    · exact .inl (.const .other n (by omega) fun v => by simp [hd])

theorem scan_line (h : IsLine (c :: es)) : Stays es (fun v => scan c (es ++ '\n' :: v)) ∨
    ∃ b, GoesOn b es fun v => scan c (es ++ '\n' :: v) := by
  by_cases hc : c ∈ signs
  · exact scan_sign hc (IsLine.suffix _ _ (List.suffix_cons c es) h)
  · obtain ⟨m, hm, hnumber⟩ :=
      numberLength_ends IsLine.suffix (by decide) (by decide) nameLength_ends
      (c :: es) h
    obtain ⟨b, hname⟩ := startsName_ends (y := '\n') (by decide) (by decide) (c :: es)
    have hstart := startsNumber_append_cons (z := '\n') (by decide) (c :: es)
    have harrow := isPrefixOf_append_cons ['-', '>'] (z := '\n') (by decide) es
    simp only [scan_of_other hc, scanOther, ← List.cons_append, hnumber, hname, hstart, harrow,
      head?_append_cons es '\n' _]
    rw [List.length_cons] at hm
    split
    case isTrue hspace =>
      left
      obtain ⟨d, ds, hfirst⟩ := exists_dropWhile_line (List.cons_ne_nil c es) h
      refine .const .space ((c :: es).takeWhile isSpace).length ?_ fun v => ?_
      · have := (List.takeWhile_sublist (l := c :: es) isSpace).length_le
        rw [List.length_cons] at this
        omega
      · rw [List.takeWhile_append, if_neg]
        intro hall
        have spaces := (List.takeWhile_sublist isSpace).eq_of_length hall
        have whole := List.takeWhile_append_dropWhile (p := isSpace) (l := c :: es)
        rw [spaces, hfirst] at whole
        simp at whole
    case isFalse =>
      split
      · exact .inl (.const .other m (by omega) fun _ => rfl)
      · split
        case isTrue hdash =>
          have hlength := (List.isPrefixOf_iff_prefix.1 hdash.2).length_le
          exact .inl (.const .other 3 (by simpa using hlength) fun _ => rfl)
        case isFalse =>
          split
          · exact scanName_line h
          · split
            case isTrue hpair =>
              refine .inl (.const .other 2 ?_ fun _ => rfl)
              cases es with
              | nil => simp at hpair
              | cons d es => simp
            case isFalse => exact .inl (.const .other 1 (Nat.zero_le _) fun _ => rfl)

def Ends (ds : List Char) (ls : List Lexeme) : Prop :=
  (∃ l ∈ ls.getLast?, l.kind = .space) ∧
    ∀ v, (∀ c ∈ v.head?, isSpace c = false) → lex (ds ++ '\n' :: v) = ls ++ lex v

def Swallows (isComment : Bool) (ds : List Char) (ls : List Lexeme) (text : String) : Prop :=
  ∀ v, ∃ kind t u, v = t ++ u ∧ kind.IsOpen isComment ∧
    lex (ds ++ '\n' :: v) = ls ++ ⟨kind, text ++ String.ofList t⟩ :: lex u ∧ Takes t u

theorem lex_newline (v : List Char) (hv : ∀ c ∈ v.head?, isSpace c = false) :
    lex ('\n' :: v) = ⟨.space, "\n"⟩ :: lex v := by
  have line_end : ∀ c ∈ ['\n'], isSpace c = true := List.all_eq_true.1 rfl
  have stop : ('\n' :: v).takeWhile isSpace = ['\n'] := takeWhile_append_stop line_end hv
  have hscan : scan '\n' v = (.space, 1) := by
    rw [scan_space v (by decide), stop]
    rfl
  exact lex_single hscan

theorem lex_line (ds : List Char) (h : IsLine ds) :
    (∃ ls, Ends ds ls) ∨ ∃ b ls text, Swallows b ds ls text := by
  match ds with
  | [] =>
    exact .inl ⟨[⟨.space, "\n"⟩], ⟨_, rfl, rfl⟩, lex_newline⟩
  | c :: es =>
    rcases scan_line h with ⟨kind, n, hn, hscan⟩ | ⟨b, hopen⟩
    · -- the first lexeme, then the rest of the line
      dsimp only at hscan
      obtain ⟨first, hlex⟩ : ∃ first, ∀ v,
          lex (c :: es ++ '\n' :: v) = first :: lex (es.drop (n - 1) ++ '\n' :: v) := by
        refine ⟨⟨kind, String.ofList (c :: es.take (n - 1))⟩, fun v => ?_⟩
        have := lex_append c es ('\n' :: v) (by rw [hscan]; exact hn)
        rwa [hscan] at this
      have htail : IsLine (es.drop (n - 1)) :=
        IsLine.suffix _ _ ((List.drop_suffix (n - 1) es).trans (List.suffix_cons c es)) h
      rcases lex_line (es.drop (n - 1)) htail with ⟨ls, ⟨l, hl, hspace⟩, hls⟩ | ⟨b, ls, text, hls⟩
      · refine .inl ⟨first :: ls, ⟨l, ?_, hspace⟩, fun v hv => ?_⟩
        · rw [List.getLast?_cons, Option.mem_def.1 hl]
          rfl
        · rw [hlex, hls v hv]
          rfl
      · refine .inr ⟨b, first :: ls, text, fun v => ?_⟩
        obtain ⟨kind', t, u, hv, hkind, hu, hrest⟩ := hls v
        refine ⟨kind', t, u, hv, hkind, ?_, hrest⟩
        rw [hlex, hu]
        rfl
    · refine .inr ⟨b, [], String.ofList (c :: es ++ ['\n']), fun v => ?_⟩
      obtain ⟨kind, t, u, hscan, rfl, hkind, hrest⟩ := hopen v
      refine ⟨kind, t, u, rfl, hkind, ?_, hrest⟩
      dsimp only at hscan
      have split_at : es ++ '\n' :: (t ++ u) = (es ++ '\n' :: t) ++ u := by simp
      have hlength : es.length + 2 + t.length - 1 = (es ++ '\n' :: t).length := by
        simp only [List.length_append, List.length_cons]
        omega
      rw [split_at] at hscan
      have hlex := lex_append c (es ++ '\n' :: t) u (by simp only [hscan, ← hlength, Nat.le_refl])
      rw [hscan, hlength, List.take_length, List.drop_length, List.nil_append] at hlex
      have text_eq : String.ofList (c :: (es ++ '\n' :: t)) =
          String.ofList (c :: es ++ ['\n']) ++ String.ofList t := by
        rw [← String.ofList_append]
        simp
      rw [List.cons_append, split_at, ← List.cons_append, hlex, text_eq]
      rfl
termination_by ds.length
decreasing_by grind

end UtilityCss
