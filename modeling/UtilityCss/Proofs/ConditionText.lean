import UtilityCss.Proofs.MarkedNames
import UtilityCss.Proofs.RoundTrip
import UtilityCss.Proofs.TopRules
import UtilityCss.Variant.Negate

/-!
Selectors and queries as conditions. A selector list holds if one of its parts does, a part
`&:not(...)` if nothing in the list between the brackets does, and a query that begins with `not` if
the rest does not. What is neither is an atom, whose truth is given. The opposite of a selector or
query, as a text, then means its opposite.
-/
namespace UtilityCss

namespace Text

variable {separator : Char} {n : Nesting} {a b cs : List Char}

/-! ### Parts -/

theorem isPart_append : IsPart separator n (a ++ b) ↔
    IsPart separator n a ∧ IsPart separator (a.foldl Nesting.step n) b := by
  induction a generalizing n with
  | nil => simp [IsPart, segmentFrom]
  | cons c a ih =>
    have hcons : ∀ cs, IsPart separator n (c :: cs) ↔
        n.splits separator c = false ∧ IsPart separator (n.step c) cs := by
      intro cs
      refine ⟨fun h => ?_, fun h => isPart_cons h.1 h.2⟩
      unfold IsPart at h
      simp only [segmentFrom] at h
      split at h
      · cases h
      next hsplits =>
        simp only [Prod.mk.injEq, List.cons.injEq, true_and] at h
        exact ⟨by simpa using hsplits, Prod.ext h.1 h.2⟩
    rw [List.cons_append, hcons, hcons, ih, List.foldl_cons, and_assoc]

theorem isPart_of_mem_segment {s part : String} (h : part ∈ segment separator s) :
    IsPart separator {} part.toList := by
  obtain ⟨chars, hchars, rfl⟩ := List.mem_map.1 h
  rw [String.toList_ofList]
  exact (areParts_iff.1 (areParts_segmentFrom separator {} s.toList)).2.1 chars hchars

/-! ### Blanks -/

private theorem isStructural_of_isBlank {c : Char} (h : isBlank c = true) :
    isStructural c = false :=
  isStructural_eq_false h rfl

private theorem foldl_step_blank (h : ∀ c ∈ cs, isBlank c = true) : cs.foldl Nesting.step {} = {} :=
  foldl_step_of_not_isStructural fun c hc => isStructural_of_isBlank (h c hc)

theorem isPart_trim {s : String} (h : IsPart separator {} s.toList) :
    IsPart separator {} (trim s).toList := by
  obtain ⟨x, y, hs, hx, -⟩ := exists_trim s
  rw [hs, List.append_assoc, isPart_append, foldl_step_blank hx, isPart_append] at h
  exact h.2.1

def IsTrimmed (cs : List Char) : Prop :=
  (∀ c ∈ cs.head?, isBlank c = false) ∧ ∀ c ∈ cs.getLast?, isBlank c = false

theorem trim_of_isTrimmed {s : String} (h : IsTrimmed s.toList) : trim s = s := by
  by_cases hs : s.toList = []
  · have hempty : s = "" := String.toList_injective hs
    rw [hempty]
    rfl
  · have hpad := trim_pad [] [] (by simp) (by simp) hs h.1 h.2
    simpa using hpad

theorem isTrimmed_trim (s : String) : IsTrimmed (trim s).toList := by
  rw [trim, String.toList_ofList]
  have hfront : ∀ l : List Char, ∀ c ∈ (l.dropWhile isBlank).head?, isBlank c = false := by
    intro l c hc
    have hhead := List.head?_dropWhile_not isBlank l
    rw [Option.mem_def.1 hc] at hhead
    exact hhead
  refine ⟨fun c hc => ?_, fun c hc => ?_⟩
  · refine hfront s.toList c ?_
    obtain ⟨y, hy, -⟩ := exists_blank_tail (s.toList.dropWhile isBlank)
    cases hback : dropEndWhile isBlank (s.toList.dropWhile isBlank) with
    | nil => simp [hback] at hc
    | cons first rest =>
      rw [hback] at hc hy
      rw [hy]
      simpa using hc
  · refine hfront (s.toList.dropWhile isBlank).reverse c ?_
    simpa [dropEndWhile] using hc

@[simp] theorem trim_trim (s : String) : trim (trim s) = trim s :=
  trim_of_isTrimmed (isTrimmed_trim s)

/-! ### Brackets -/

def IsClosed (s : String) : Prop :=
  s.toList.foldl Nesting.step {} = {}

instance (s : String) : Decidable (IsClosed s) :=
  inferInstanceAs (Decidable (_ = _))

def Nesting.inside (n : Nesting) : Nesting :=
  { n with closers := n.closers ++ [')'] }

def staysInside : Nesting → List Char → Bool
  | n, [] => n = Nesting.inside {}
  | n, c :: cs => !(n.step c).isNeutral && staysInside (n.step c) cs

/-- A text that round brackets can be put around: they will match each other. -/
def isEnclosable (s : String) : Bool :=
  staysInside (Nesting.inside {}) s.toList

theorem Nesting.step_inside (n : Nesting) (c : Char) :
    n.inside.step c = (n.step c).inside ∨ (n.inside.step c).isNeutral = true := by
  obtain ⟨closers, quote, escaped⟩ := n
  unfold Nesting.step Nesting.inside
  cases escaped with
  | true => exact .inl rfl
  | false =>
    by_cases hslash : c = '\\'
    · simp [hslash]
    · cases quote with
      | some q =>
        refine .inl ?_
        simp only [hslash, Bool.false_eq_true, if_false]
        split <;> rfl
      | none =>
        by_cases hquote : isQuote c
        · simp [hslash, hquote]
        · cases hopen : closer? c with
          | some k => simp [hslash, hquote]
          | none =>
            cases closers with
            | cons k ks =>
              refine .inl ?_
              simp only [hslash, hquote, Bool.false_eq_true, if_false, List.cons_append,
                List.head?_cons, List.tail_cons]
              by_cases hclose : (isCloser c && some k == some c) = true <;>
                simp only [hclose, Bool.false_eq_true, if_true, if_false, List.cons_append]
            | nil =>
              by_cases hclose : c = ')'
              · refine .inr ?_
                simp [hclose, isQuote, isCloser, Nesting.isNeutral]
              · refine .inl ?_
                have hne : (')' == c) = false := beq_eq_false_iff_ne.2 (Ne.symm hclose)
                simp [hslash, hquote, hne]

theorem foldl_step_of_staysInside {n : Nesting} (h : staysInside n.inside cs = true) :
    cs.foldl Nesting.step n = {} ∧ cs.foldl Nesting.step n.inside = Nesting.inside {} := by
  induction cs generalizing n with
  | nil =>
    have heq : n.inside = Nesting.inside {} := by simpa [staysInside] using h
    refine ⟨?_, heq⟩
    simp only [Nesting.inside, List.nil_append, Nesting.mk.injEq, List.append_left_eq_self] at heq
    exact Nesting.isNeutral_iff.1 (by simp [Nesting.isNeutral, heq])
  | cons c cs ih =>
    rw [staysInside, Bool.and_eq_true, Bool.not_eq_true'] at h
    rcases n.step_inside c with hstep | hneutral
    · rw [hstep] at h
      rw [List.foldl_cons, List.foldl_cons, hstep]
      exact ih h.2
    · rw [hneutral] at h
      cases h.1

private theorem isPart_of_staysInside {n : Nesting} (hn : n.isNeutral = false)
    (h : staysInside n cs = true) : IsPart separator n cs := by
  induction cs generalizing n with
  | nil => rfl
  | cons c cs ih =>
    rw [staysInside, Bool.and_eq_true, Bool.not_eq_true'] at h
    exact isPart_cons (by simp [Nesting.splits, hn]) (ih h.1 h.2)

theorem isClosed_of_isEnclosable {s : String} (h : isEnclosable s = true) : IsClosed s :=
  (foldl_step_of_staysInside h).1

theorem isPart_enclosed {opening : List Char} (hopening : IsPart separator {} opening)
    (hinside : opening.foldl Nesting.step {} = Nesting.inside {}) {s : String}
    (h : isEnclosable s = true) : IsPart separator {} (opening ++ s.toList ++ [')']) := by
  have hneutral : ∀ c, Nesting.splits (Nesting.inside {}) separator c = false := by
    intro c
    simp [Nesting.splits, Nesting.isNeutral, Nesting.inside]
  rw [isPart_append, isPart_append, hinside, List.foldl_append, hinside,
    (foldl_step_of_staysInside h).2]
  exact ⟨⟨hopening, isPart_of_staysInside rfl h⟩, isPart_cons (hneutral ')') rfl⟩

theorem staysInside_append {n : Nesting} (ha : staysInside n a = true) :
    staysInside n (a ++ b) = staysInside (Nesting.inside {}) b := by
  induction a generalizing n with
  | nil =>
    have hn : n = Nesting.inside {} := by simpa [staysInside] using ha
    rw [hn, List.nil_append]
  | cons c a ih =>
    rw [staysInside, Bool.and_eq_true] at ha
    rw [List.cons_append, staysInside, ha.1, ih ha.2, Bool.true_and]

/-! ### The element itself -/

def starChar (c : Char) : Char :=
  if c = '&' then '*' else c

def star (s : String) : String :=
  replaceChar '&' "*" s

theorem toList_star (s : String) : (star s).toList = s.toList.map starChar :=
  toList_replaceChar rfl '&' s

theorem star_append (s s' : String) : star (s ++ s') = star s ++ star s' := by
  apply String.toList_injective
  simp [toList_star]

theorem star_star (s : String) : star (star s) = star s := by
  apply String.toList_injective
  rw [toList_star, toList_star, List.map_map]
  apply List.map_congr_left
  intro c _
  by_cases h : c = '&' <;> simp [starChar, h]

private theorem isBlank_starChar (c : Char) : isBlank (starChar c) = isBlank c := by
  unfold starChar
  split
  next h => rw [h]; rfl
  · rfl

theorem trim_star (s : String) : trim (star s) = star (trim s) := by
  have hblank : isBlank ∘ starChar = isBlank := funext isBlank_starChar
  apply String.toList_injective
  rw [toList_star, trim, trim, String.toList_ofList, String.toList_ofList, toList_star]
  simp only [dropEndWhile, List.dropWhile_map, hblank, ← List.map_reverse]

def Nesting.QuotesRightly (n : Nesting) : Prop :=
  ∀ q ∈ n.quote, isQuote q = true

theorem Nesting.QuotesRightly.step (h : n.QuotesRightly) (c : Char) : (n.step c).QuotesRightly := by
  unfold Nesting.step
  split
  · exact h
  · split
    · exact h
    · split
      next q hq =>
        split
        · exact fun q hq => by cases hq
        · exact h
      next hnone =>
        split
        next hquote =>
          rintro q ⟨⟩
          exact hquote
        · split
          · exact h
          · split <;> exact h

theorem Nesting.step_of_ordinary (h : n.QuotesRightly) {c : Char} (hc : isStructural c = false) :
    n.step c = { n with escaped := false } := by
  simp only [isStructural, Bool.or_eq_false_iff, beq_eq_false_iff_ne, Option.isSome_eq_false_iff,
    Option.isNone_iff_eq_none] at hc
  obtain ⟨⟨⟨hslash, hquote⟩, hopen⟩, hclose⟩ := hc
  obtain ⟨closers, quote, escaped⟩ := n
  cases escaped with
  | true => rfl
  | false =>
    cases quote with
    | some q =>
      have hne : c ≠ q := by
        rintro rfl
        simp [h c rfl] at hquote
      simp [Nesting.step, hslash, hne]
    | none => simp [Nesting.step, hslash, hquote, hopen, hclose]

theorem Nesting.step_starChar (h : n.QuotesRightly) (c : Char) :
    n.step (starChar c) = n.step c := by
  unfold starChar
  split
  next hc => rw [hc, step_of_ordinary h rfl, step_of_ordinary h rfl]
  · rfl

theorem Nesting.quotesRightly_default : Nesting.QuotesRightly {} := by
  simp [QuotesRightly]

private theorem staysInside_star (h : n.QuotesRightly) :
    staysInside n (cs.map starChar) = staysInside n cs := by
  induction cs generalizing n with
  | nil => rfl
  | cons c cs ih =>
    rw [List.map_cons, staysInside, Nesting.step_starChar h, ih (h.step c), staysInside]

theorem isEnclosable_star (s : String) : isEnclosable (star s) = isEnclosable s := by
  rw [isEnclosable, toList_star]
  exact staysInside_star (by simp [Nesting.QuotesRightly, Nesting.inside])

theorem segmentFrom_star (h : n.QuotesRightly) : segmentFrom ',' n (cs.map starChar) =
    ((segmentFrom ',' n cs).1.map starChar, (segmentFrom ',' n cs).2.map (List.map starChar)) := by
  induction cs generalizing n with
  | nil => rfl
  | cons c cs ih =>
    have hsplits : n.splits ',' (starChar c) = n.splits ',' c := by
      unfold starChar
      split
      next hc => simp [hc, Nesting.splits]
      · rfl
    simp only [List.map_cons, segmentFrom, Nesting.step_starChar h, ih (h.step c), hsplits]
    split <;> rfl

theorem segment_star (s : String) : segment ',' (star s) = (segment ',' s).map star := by
  have hmap : ∀ cs : List Char, String.ofList (cs.map starChar) = star (String.ofList cs) := by
    intro cs
    apply String.toList_injective
    rw [toList_star, String.toList_ofList, String.toList_ofList]
  rw [segment, segments, toList_star, segmentFrom_star Nesting.quotesRightly_default,
    segment, segments]
  simp [hmap]

/-! ### Lists of parts -/

def anyPart (p : String → Bool) (s : String) : Bool :=
  (segment ',' s).any p

theorem anyPart_of_isPart {p : String → Bool} {s : String} (h : IsPart ',' {} s.toList) :
    anyPart p s = p s := by
  rw [anyPart, segment_eq_singleton h, List.any_cons, List.any_nil, Bool.or_false]

private theorem anyPart_space {p : String → Bool} (hp : ∀ s, p (" " ++ s) = p s) (s : String) :
    anyPart p (" " ++ s) = anyPart p s := by
  have hsegment : segment ',' (" " ++ s) =
      (" " ++ String.ofList (segmentFrom ',' {} s.toList).1) ::
        (segmentFrom ',' {} s.toList).2.map String.ofList := by
    have hstep : Nesting.step {} ' ' = {} := by decide
    have hsplits : Nesting.splits {} ',' ' ' = false := by decide
    simp only [segment, segments, String.toList_append]
    rw [show " ".toList = [' '] from rfl, List.singleton_append, segmentFrom, hstep, hsplits]
    simp [String.ofList_cons]
  rw [anyPart, hsegment, List.any_cons, hp, anyPart, segment, segments, List.map_cons,
    List.any_cons]

theorem anyPart_intercalate {p : String → Bool} (hp : ∀ s, p (" " ++ s) = p s) {parts : List String}
    (hne : parts ≠ []) (hclosed : ∀ part ∈ parts.dropLast, IsClosed part) :
    anyPart p (String.intercalate ", " parts) = parts.any (anyPart p) := by
  induction parts with
  | nil => exact absurd rfl hne
  | cons part parts ih =>
    cases parts with
    | nil => simp
    | cons next parts =>
      rw [List.dropLast_cons_cons, List.forall_mem_cons] at hclosed
      have hjoin : String.intercalate ", " (part :: next :: parts) =
          part ++ String.singleton ',' ++ (" " ++ String.intercalate ", " (next :: parts)) := by
        apply String.toList_injective
        simp [List.intercalate]
      have hrest := ih (List.cons_ne_nil _ _) hclosed.2
      rw [hjoin, anyPart, segment_append (by decide) hclosed.1, List.any_append,
        List.any_cons, ← hrest, ← anyPart_space hp (String.intercalate ", " (next :: parts))]
      rfl

theorem isEnclosable_intercalate {parts : List String}
    (h : ∀ part ∈ parts, isEnclosable part = true) :
    isEnclosable (String.intercalate ", " parts) = true := by
  induction parts with
  | nil => rfl
  | cons part parts ih =>
    rw [List.forall_mem_cons] at h
    cases parts with
    | nil => simpa using h.1
    | cons next parts =>
      have hjoin : (String.intercalate ", " (part :: next :: parts)).toList =
          part.toList ++ (',' :: ' ' :: (String.intercalate ", " (next :: parts)).toList) := by
        simp [List.intercalate]
      rw [isEnclosable, hjoin, staysInside_append h.1]
      exact ih h.2

end Text

/-! ### Truth -/

/-- The truth of selectors and queries that are not taken apart. Queries are those of one kind of
at-rule. -/
structure Truth where
  selector : String → Bool
  query : (name text : String) → Bool

def pseudoArgument? (opening part : String) : Option String :=
  (Text.between? opening ")" part).filter Text.isEnclosable

private theorem length_lt_of_pseudoArgument? {opening part inner : String}
    (h : pseudoArgument? opening part = some inner) : inner.toList.length < part.toList.length := by
  obtain ⟨hbetween, -⟩ := Option.filter_eq_some_iff.1 h
  rw [Text.between?_eq_some_iff.1 hbetween]
  simp
  omega

/-- The list of selectors that a selector stands for, and whether the element must match one of
them. -/
def selectorList? (part : String) : Option (Bool × String) :=
  ((pseudoArgument? "*:not(" part).map (false, ·)).or ((pseudoArgument? "*:is(" part).map (true, ·))

private theorem length_lt_of_selectorList? {part : String} {list : Bool × String}
    (h : selectorList? part = some list) : list.2.toList.length < part.toList.length := by
  unfold selectorList? at h
  rcases Option.or_eq_some_iff.1 h with h | ⟨-, h⟩
  all_goals
    obtain ⟨inner, hinner, rfl⟩ := Option.map_eq_some_iff.1 h
    exact length_lt_of_pseudoArgument? hinner

def starHolds (t : Truth) (s : String) : Bool :=
  (Text.segment ',' s).attach.any fun part =>
    (selectorList? (Text.trim part.1)).attach.elim
      (Text.trim part.1 == "*" || t.selector (Text.trim part.1)) fun list =>
        list.1.1 == starHolds t list.1.2
termination_by s.toList.length
decreasing_by
  have hpart := Text.length_le_of_mem_segment part.2
  have htrim := Text.length_trim_le part.1
  have hlt := length_lt_of_selectorList? list.2
  omega

def partHolds (t : Truth) (part : String) : Bool :=
  (selectorList? part).elim (part == "*" || t.selector part) fun list =>
    list.1 == starHolds t list.2

theorem starHolds_eq (t : Truth) (s : String) :
    starHolds t s = Text.anyPart (fun part => partHolds t (Text.trim part)) s := by
  unfold starHolds Text.anyPart
  conv_rhs => rw [← List.attach_map_subtype_val (Text.segment ',' s), List.any_map]
  refine congrArg (List.any _) (funext fun part => ?_)
  rw [Function.comp_apply, partHolds]
  cases selectorList? (Text.trim part.1) <;> rfl

def selectorHolds (t : Truth) (s : String) : Bool :=
  starHolds t (Text.star s)

def negatedQuery? (query : String) : Option String :=
  Text.strip? "not " (Text.trim query)

private theorem length_lt_of_negatedQuery? {query rest : String}
    (h : negatedQuery? query = some rest) : rest.toList.length < query.toList.length := by
  unfold negatedQuery? at h
  have htrim := Text.length_trim_le query
  rw [Text.strip?_eq_some_iff.1 h] at htrim
  simp at htrim
  omega

def queryHolds (t : Truth) (name query : String) : Bool :=
  (negatedQuery? query).attach.elim (t.query name (Text.trim query)) fun rest =>
    !queryHolds t name rest.1
termination_by query.toList.length
decreasing_by exact length_lt_of_negatedQuery? rest.2

theorem queryHolds_eq (t : Truth) (name query : String) :
    queryHolds t name query =
      (negatedQuery? query).elim (t.query name (Text.trim query)) fun rest =>
        !queryHolds t name rest := by
  rw [queryHolds]
  cases negatedQuery? query <;> rfl

def queriesOf (name params : String) : List String :=
  if name = "media" then Text.segment ',' params else [params]

def atRuleHolds (t : Truth) (name params : String) : Bool :=
  (queriesOf name params).any (queryHolds t name)

/-! ### Opposite selectors -/

theorem pseudoArgument?_enclosed (opening : String) {inner : String}
    (h : Text.isEnclosable inner = true) :
    pseudoArgument? opening (opening ++ inner ++ ")") = some inner := by
  rw [pseudoArgument?, Text.between?_eq_some_iff.2 rfl, Option.filter_some, if_pos h]

theorem selectorList?_not {inner : String} (h : Text.isEnclosable inner = true) :
    selectorList? ("*:not(" ++ inner ++ ")") = some (false, inner) := by
  rw [selectorList?, pseudoArgument?_enclosed "*:not(" h]
  rfl

private theorem selectorList?_is {inner : String} (h : Text.isEnclosable inner = true) :
    selectorList? ("*:is(" ++ inner ++ ")") = some (true, inner) := by
  have hnot : pseudoArgument? "*:not(" ("*:is(" ++ inner ++ ")") = none := by
    rw [Option.eq_none_iff_forall_ne_some]
    intro other hother
    have hsame := Text.between?_eq_some_iff.1 (Option.filter_eq_some_iff.1 hother).1
    have hchars := congrArg String.toList hsame
    simp at hchars
  rw [selectorList?, hnot, pseudoArgument?_enclosed "*:is(" h]
  rfl

theorem starHolds_enclosed (t : Truth) {opening : String}
    (hopening : Text.IsPart ',' {} opening.toList)
    (hinside : opening.toList.foldl Text.Nesting.step {} = Text.Nesting.inside {})
    (hhead : ∃ c cs, opening.toList = c :: cs ∧ Text.isBlank c = false) {inner : String}
    (h : Text.isEnclosable inner = true) :
    starHolds t (opening ++ inner ++ ")") = partHolds t (opening ++ inner ++ ")") := by
  have hlist : (opening ++ inner ++ ")").toList = opening.toList ++ inner.toList ++ [')'] := by
    simp
  have htrimmed : Text.IsTrimmed (opening ++ inner ++ ")").toList := by
    obtain ⟨c, cs, hcs, hc⟩ := hhead
    rw [hlist, hcs]
    refine ⟨by simpa using hc, fun last hlast => ?_⟩
    rw [List.getLast?_append, List.getLast?_singleton, Option.some_or] at hlast
    cases hlast
    rfl
  rw [starHolds_eq, Text.anyPart_of_isPart (hlist ▸ Text.isPart_enclosed hopening hinside h),
    Text.trim_of_isTrimmed htrimmed]

def strippedPart (part : String) : String :=
  (Text.between? "&:is(" ")" part).getD part

theorem partHolds_star (t : Truth) {part : String} (hpart : Text.IsPart ',' {} part.toList)
    (htrim : Text.trim part = part) (h : Text.isEnclosable (strippedPart part) = true) :
    partHolds t (Text.star part) = starHolds t (Text.star (strippedPart part)) := by
  unfold strippedPart at h ⊢
  cases hbetween : Text.between? "&:is(" ")" part with
  | some inner =>
    rw [hbetween, Option.getD_some, ← Text.isEnclosable_star] at h
    have hstar : Text.star part = "*:is(" ++ Text.star inner ++ ")" := by
      rw [Text.between?_eq_some_iff.1 hbetween, Text.star_append, Text.star_append]
      rfl
    rw [Option.getD_some, hstar, partHolds, selectorList?_is h]
    simp
  | none =>
    have hstar : Text.IsPart ',' {} (Text.star part).toList := by
      unfold Text.IsPart at hpart ⊢
      rw [Text.toList_star, Text.segmentFrom_star Text.Nesting.quotesRightly_default, hpart]
      rfl
    rw [Option.getD_none, starHolds_eq, Text.anyPart_of_isPart hstar, Text.trim_star, htrim]

def SelectorReadable (selector : String) : Prop :=
  ∀ part ∈ Text.segment ',' selector, Text.isEnclosable (strippedPart (Text.trim part)) = true

instance (selector : String) : Decidable (SelectorReadable selector) :=
  inferInstanceAs (Decidable (∀ _ ∈ _, _))

theorem star_intercalate (parts : List String) :
    Text.star (String.intercalate ", " parts) = String.intercalate ", " (parts.map Text.star) := by
  induction parts with
  | nil => rfl
  | cons part parts ih =>
    cases parts with
    | nil => simp
    | cons next parts =>
      have hjoin : ∀ first second : String, ∀ rest : List String,
          String.intercalate ", " (first :: second :: rest) =
            first ++ ", " ++ String.intercalate ", " (second :: rest) := by
        intro first second rest
        apply String.toList_injective
        simp [List.intercalate]
      rw [hjoin, Text.star_append, Text.star_append, ih]
      simp only [List.map_cons]
      rw [hjoin]
      rfl

def bareParts (selector : String) : List String :=
  (Text.segment ',' selector).map fun part => Text.star (strippedPart (Text.trim part))

private theorem star_of_mem_bareParts {selector part : String} (h : part ∈ bareParts selector) :
    Text.star part = part := by
  obtain ⟨part, -, rfl⟩ := List.mem_map.1 h
  exact Text.star_star _

private theorem negateSelector?_eq_some {selector opposite : String}
    (h : negateSelector? selector = some opposite) :
    opposite = "&:not(" ++ String.intercalate ", " (bareParts selector) ++ ")" := by
  unfold negateSelector? at h
  split at h
  · cases h
  · exact (Option.some.inj h).symm

theorem SelectorReadable.isEnclosable {selector : String} (h : SelectorReadable selector) :
    ∀ part ∈ bareParts selector, Text.isEnclosable part = true :=
  List.forall_mem_map.2 fun part hpart => (Text.isEnclosable_star _).trans (h part hpart)

theorem SelectorReadable.starHolds {selector : String} (h : SelectorReadable selector) (t : Truth) :
    UtilityCss.starHolds t (String.intercalate ", " (bareParts selector)) =
      selectorHolds t selector := by
  have hspace : ∀ s, partHolds t (Text.trim (" " ++ s)) = partHolds t (Text.trim s) := by
    intro s
    rw [trim_space_left]
  have hpart : ∀ part ∈ Text.segment ',' selector, partHolds t (Text.trim (Text.star part)) =
      UtilityCss.starHolds t (Text.star (strippedPart (Text.trim part))) := by
    intro part hpart
    rw [Text.trim_star]
    exact partHolds_star t (Text.isPart_trim (Text.isPart_of_mem_segment hpart))
      (Text.trim_trim part)
      (h part hpart)
  have hne : bareParts selector ≠ [] := by simp [bareParts, Text.segment, Text.segments]
  have hclosed : ∀ part ∈ (bareParts selector).dropLast, Text.IsClosed part := fun part hpart =>
    Text.isClosed_of_isEnclosable (h.isEnclosable part (List.dropLast_subset _ hpart))
  have hlist : UtilityCss.starHolds t (String.intercalate ", " (bareParts selector)) =
      (bareParts selector).any (UtilityCss.starHolds t) := by
    rw [starHolds_eq,
      Text.anyPart_intercalate (p := fun part => partHolds t (Text.trim part)) hspace hne hclosed]
    exact congrArg (List.any _) (funext fun part => (starHolds_eq t part).symm)
  have hselector : selectorHolds t selector =
      (Text.segment ',' selector).any fun part => partHolds t (Text.trim (Text.star part)) := by
    rw [selectorHolds, starHolds_eq, Text.anyPart, Text.segment_star, List.any_map,
      Function.comp_def]
  rw [hlist, hselector, bareParts, List.any_map, Bool.eq_iff_iff, List.any_eq_true,
    List.any_eq_true]
  refine exists_congr fun part => and_congr_right fun hmem => ?_
  rw [Function.comp_apply, hpart part hmem]

theorem selectorHolds_negate (t : Truth) {selector opposite : String}
    (h : SelectorReadable selector) (hopposite : negateSelector? selector = some opposite) :
    selectorHolds t opposite = !selectorHolds t selector := by
  have hopening : Text.IsPart ',' {} "*:not(".toList := rfl
  have hlist := Text.isEnclosable_intercalate h.isEnclosable
  have hstar :
      Text.star opposite = "*:not(" ++ String.intercalate ", " (bareParts selector) ++ ")" := by
    rw [negateSelector?_eq_some hopposite, Text.star_append, Text.star_append, star_intercalate,
      List.map_congr_left fun part hpart => star_of_mem_bareParts hpart, List.map_id']
    rfl
  rw [← h.starHolds t, selectorHolds, hstar,
    starHolds_enclosed t hopening rfl ⟨'*', _, rfl, rfl⟩ hlist, partHolds,
    selectorList?_not hlist]
  simp

/-! ### Opposite queries -/

private theorem negatedQuery?_trim (query : String) :
    negatedQuery? (Text.trim query) = negatedQuery? query := by
  rw [negatedQuery?, Text.trim_trim, negatedQuery?]

theorem queryHolds_trim (t : Truth) (name query : String) :
    queryHolds t name (Text.trim query) = queryHolds t name query := by
  rw [queryHolds_eq, negatedQuery?_trim, Text.trim_trim, queryHolds_eq t name query]

theorem queryHolds_space (t : Truth) (name query : String) :
    queryHolds t name (" " ++ query) = queryHolds t name query := by
  rw [← queryHolds_trim, trim_space_left, queryHolds_trim]

theorem negateQuery_eq (query : String) :
    negateQuery query = (negatedQuery? query).getD ("not " ++ Text.trim query) := rfl

theorem queryHolds_negate (t : Truth) (name : String) {query : String}
    (h : Text.isAllBlank query = false) :
    queryHolds t name (negateQuery query) = !queryHolds t name query := by
  rw [negateQuery_eq]
  cases hnegated : negatedQuery? query with
  | some rest =>
    rw [Option.getD_some, queryHolds_eq t name query, hnegated, Option.elim_some, Bool.not_not]
  | none =>
    have hne : (Text.trim query).toList ≠ [] := by
      intro hnil
      obtain ⟨x, y, hxy, hx, hy⟩ := exists_trim query
      rw [hnil, List.append_nil] at hxy
      have hall : Text.isAllBlank query = true := by
        rw [Text.isAllBlank, hxy, List.all_eq_true]
        exact List.forall_mem_append.2 ⟨hx, hy⟩
      rw [hall] at h
      cases h
    have htrimmed : Text.IsTrimmed ("not " ++ Text.trim query).toList := by
      rw [String.toList_append]
      refine ⟨?_, fun c hc => ?_⟩
      · rintro c ⟨⟩
        rfl
      · rw [List.getLast?_append_of_ne_nil _ hne] at hc
        exact (Text.isTrimmed_trim query).2 c hc
    have hnot : negatedQuery? ("not " ++ Text.trim query) = some (Text.trim query) := by
      rw [negatedQuery?, Text.trim_of_isTrimmed htrimmed]
      exact Text.strip?_eq_some_iff.2 rfl
    rw [Option.getD_none, queryHolds_eq, hnot, Option.elim_some, queryHolds_trim]

/-- Queries that are not blank, and none but the last leaves anything open. -/
structure QueriesReadable (queries : List String) : Prop where
  not_blank : ∀ query ∈ queries, Text.isAllBlank query = false
  closed : ∀ query ∈ queries.dropLast, Text.IsClosed (Text.trim query)

instance (queries : List String) : Decidable (QueriesReadable queries) :=
  decidable_of_iff ((∀ query ∈ queries, Text.isAllBlank query = false) ∧
      ∀ query ∈ queries.dropLast, Text.IsClosed (Text.trim query))
    ⟨fun h => ⟨h.1, h.2⟩, fun h => ⟨h.not_blank, h.closed⟩⟩

theorem negateQuery_cases (query : String) :
    Text.trim query = "not " ++ negateQuery query ∨
      negateQuery query = "not " ++ Text.trim query := by
  rw [negateQuery_eq]
  cases hnegated : negatedQuery? query with
  | some rest =>
    rw [negatedQuery?] at hnegated
    exact .inl (Text.strip?_eq_some_iff.1 hnegated)
  | none => exact .inr rfl

theorem foldl_step_not : "not ".toList.foldl Text.Nesting.step {} = {} := rfl

private theorem isClosed_negateQuery {query : String} (h : Text.IsClosed (Text.trim query)) :
    Text.IsClosed (negateQuery query) := by
  have hnot : ∀ s : String, ("not " ++ s).toList.foldl Text.Nesting.step {} =
      s.toList.foldl Text.Nesting.step {} := by
    intro s
    rw [String.toList_append, List.foldl_append, foldl_step_not]
  unfold Text.IsClosed at h ⊢
  rcases negateQuery_cases query with heq | heq
  · rw [heq, hnot] at h
    exact h
  · rw [heq, hnot, h]

private theorem isPart_negateQuery {query : String} (h : Text.IsPart ',' {} query.toList) :
    Text.IsPart ',' {} (negateQuery query).toList := by
  have hstart : Text.IsPart ',' {} "not ".toList := rfl
  have hnot : ∀ s : String, Text.IsPart ',' {} ("not " ++ s).toList ↔
      Text.IsPart ',' {} s.toList := by
    intro s
    rw [String.toList_append, Text.isPart_append, foldl_step_not, and_iff_right hstart]
  have htrim := Text.isPart_trim h
  rcases negateQuery_cases query with heq | heq
  · rw [heq, hnot] at htrim
    exact htrim
  · rw [heq, hnot]
    exact htrim

theorem atRuleHolds_negate (t : Truth) {name params : String} {node : Node}
    (h : QueriesReadable (queriesOf name params))
    (hopposite : negateAtRule? name params = some node) :
    ∃ params', node = .atRule name params' [] ∧ atRuleHolds t name params' =
      (queriesOf name params).any fun query => !queryHolds t name query := by
  simp only [negateAtRule?] at hopposite
  split at hopposite
  · cases hopposite
    refine ⟨_, rfl, ?_⟩
    have hmedia : ∀ params, queriesOf "media" params = Text.segment ',' params := fun _ => rfl
    rw [hmedia] at h
    have hclosed :
        ∀ part ∈ ((Text.segment ',' params).map negateQuery).dropLast, Text.IsClosed part := by
      rw [← List.map_dropLast]
      exact List.forall_mem_map.2 fun query hquery => isClosed_negateQuery (h.closed query hquery)
    have hne : (Text.segment ',' params).map negateQuery ≠ [] := by
      simp [Text.segment, Text.segments]
    have hparts := Text.anyPart_intercalate (p := queryHolds t "media") (queryHolds_space t "media")
      hne hclosed
    rw [atRuleHolds, hmedia, hmedia]
    refine hparts.trans ?_
    rw [List.any_map, Bool.eq_iff_iff, List.any_eq_true, List.any_eq_true]
    refine exists_congr fun query => and_congr_right fun hquery => ?_
    rw [Function.comp_apply,
      Text.anyPart_of_isPart (isPart_negateQuery (Text.isPart_of_mem_segment hquery)),
      queryHolds_negate t "media" (h.not_blank query hquery)]
  · cases hopposite
    refine ⟨_, rfl, ?_⟩
    have hsupports : ∀ params, queriesOf "supports" params = [params] := fun _ => rfl
    rw [hsupports] at h
    rw [atRuleHolds, hsupports, hsupports, List.any_cons, List.any_nil, List.any_cons, List.any_nil,
      queryHolds_negate t "supports" (h.not_blank params (List.mem_singleton_self params))]
  · cases hopposite

end UtilityCss
