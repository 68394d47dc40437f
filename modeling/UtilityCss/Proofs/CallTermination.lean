import UtilityCss.Proofs.CallText
import UtilityCss.Proofs.MarkedNames
import UtilityCss.Proofs.TopRules
import Mathlib.Logic.Relation

/-!
Where expanding theme calls ends. A call is replaced by a text that is expanded in turn: the value
of a variable, or the fallback. A fallback is shorter than the text that it stands in. A value may
be longer, and one that leads back to itself is expanded without an end. `Theme.Expands` is that
recursion with no look at the keys that are being expanded. The look at them changes no result, and
its error is given for exactly the texts on which the recursion does not end. Where no variable
leads back to itself there are none.
-/
namespace UtilityCss

namespace ThemeCall

/-! ### Calls at any nesting -/

/-- A closed call with these arguments stands in a text, be it inside of another one. -/
def Contains (cs arguments : List Char) : Prop :=
  ∃ before rest, cs = before ++ opening ++ arguments ++ ')' :: rest ∧ Standalone before ∧
    Balanced arguments

section

variable {cs inner arguments : List Char}

theorem Standalone.append {front before : List Char} (hfront : Standalone front)
    (hbefore : Standalone before) : Standalone (front ++ before) := by
  intro c hc
  rw [List.getLast?_append] at hc
  cases hlast : before.getLast? with
  | none => exact hfront c (by simpa [hlast] using hc)
  | some d => exact hbefore c (by simpa [hlast] using hc)

theorem Contains.within (h : Contains inner arguments) {front : List Char} (back : List Char)
    (hfront : Standalone front) (hcs : cs = front ++ inner ++ back) : Contains cs arguments := by
  obtain ⟨before, rest, rfl, hbefore, hbalanced⟩ := h
  exact ⟨front ++ before, rest ++ back, by simp [hcs], hfront.append hbefore, hbalanced⟩

private theorem isNamePart_of_isBlank {c : Char} (h : Text.isBlank c = true) :
    isNamePart c = false := by
  rw [Bool.eq_false_iff]
  intro hname
  have bounds : 'A'.val.toNat = 65 ∧ 'Z'.val.toNat = 90 ∧ 'a'.val.toNat = 97 ∧ 'z'.val.toNat = 122 ∧
      '0'.val.toNat = 48 ∧ '9'.val.toNat = 57 := by decide
  have hvalue : c.toNat = c.val.toNat := rfl
  simp only [isNamePart, Char.isAlphanum, Char.isAlpha, Char.isUpper, Char.isLower, Char.isDigit,
    Bool.or_eq_true, Bool.and_eq_true, decide_eq_true_eq, ge_iff_le, UInt32.le_iff_toNat_le,
    beq_iff_eq] at hname
  simp only [Text.isBlank, Bool.or_eq_true, Bool.and_eq_true, decide_eq_true_eq, beq_iff_eq] at h
  rcases hname with (hname | rfl) | rfl
  · omega
  · revert h; decide
  · revert h; decide

private theorem fallback_ofArguments {before rest : List Char} {fallback : String}
    (h : (ofArguments before arguments rest).fallback = some fallback) :
    ∃ first behind, arguments = first ++ ',' :: behind ∧
      fallback = Text.trim (String.ofList behind) := by
  unfold ofArguments at h
  dsimp only at h
  split at h
  · simp at h
  next hparts =>
    have hjoin := Text.intercalate_segmentFrom ',' {} arguments
    cases hlater : (Text.segmentFrom ',' {} arguments).2 with
    | nil => simp [Text.segments, hlater] at hparts
    | cons second more =>
      rw [hlater, List.intercalate_cons_cons, List.append_assoc, List.singleton_append] at hjoin
      refine ⟨_, _, hjoin.symm, ?_⟩
      have hdrop : arguments.drop (((Text.segments ',' arguments).headD []).length + 1) =
          [','].intercalate (second :: more) := by
        nth_rewrite 2 [← hjoin]
        exact List.drop_length_add_append 1
      rw [← hdrop]
      exact (Option.some.inj h).symm

private theorem exists_fallback {before rest : List Char} {fallback : String}
    (h : (ofArguments before arguments rest).fallback = some fallback) :
    ∃ front back, arguments = front ++ fallback.toList ++ back ∧ Standalone front := by
  obtain ⟨first, behind, rfl, rfl⟩ := fallback_ofArguments h
  obtain ⟨blank, back, htrim, hblank, -⟩ := exists_trim (String.ofList behind)
  rw [String.toList_ofList] at htrim
  refine ⟨first ++ ',' :: blank, back, ?_, fun c hc => ?_⟩
  · calc
      first ++ ',' :: behind =
          first ++ ',' :: (blank ++ (Text.trim (String.ofList behind)).toList ++ back) :=
        congrArg (first ++ ',' :: ·) htrim
      _ = _ := by simp
  · rw [List.getLast?_append_cons] at hc
    rcases List.mem_cons.1 (List.mem_of_mem_getLast? hc) with rfl | hmem
    · rfl
    · exact isNamePart_of_isBlank (hblank c hmem)

@[simp] theorem arguments_ofArguments (before arguments rest : List Char) :
    (ofArguments before arguments rest).arguments = arguments := by
  unfold ofArguments
  dsimp only

theorem path_ofArguments (before arguments rest : List Char) :
    (ofArguments before arguments rest).path = (ofArguments [] arguments []).path := by
  rw [ofArguments_eq]

end

theorem contains_of_next {cs : List Char} {c : ThemeCall} (h : next cs = .call c) :
    Contains cs c.arguments ∧
      (∀ arguments, Contains c.rest arguments → Contains cs arguments) ∧
      ∀ fallback, c.fallback = some fallback →
        ∀ arguments, Contains fallback.toList arguments → Contains cs arguments := by
  obtain ⟨p, hcs, hc⟩ := exists_piece h
  have hclosed : Standalone p.text := by simp [Standalone, Piece.text, isNamePart]
  have hopened : Standalone (p.before ++ opening) := by simp [Standalone, opening, isNamePart]
  refine ⟨?_, fun arguments hrest => ?_, fun fallback hfallback arguments hinner => ?_⟩
  · rw [hc, arguments_ofArguments]
    exact ⟨p.before, c.rest, by simp [hcs, Piece.text], p.standalone, p.balanced⟩
  · exact hrest.within [] hclosed (by simpa using hcs)
  · rw [hc] at hfallback
    obtain ⟨front, back, harguments, hfront⟩ := exists_fallback hfallback
    refine hinner.within (back ++ ')' :: c.rest) (hopened.append hfront) ?_
    simp [hcs, Piece.text, harguments]

/-! ### Finding them -/

def callsFrom (inName : Bool) : List Char → List (List Char)
  | [] => []
  | c :: cs =>
    let later := callsFrom (isNamePart c) cs
    if !inName && opening.isPrefixOf (c :: cs) then
      match close? 0 none (cs.drop (opening.length - 1)) with
      | some (arguments, _) => arguments :: later
      | none => later
    else later

theorem mem_callsFrom {inName : Bool} {arguments before rest : List Char}
    (hname : before = [] → inName = false) (hbefore : Standalone before) (h : Balanced arguments) :
    arguments ∈ callsFrom inName (before ++ opening ++ arguments ++ ')' :: rest) := by
  induction before generalizing inName with
  | nil =>
    have hclose : close? 0 none (arguments ++ ')' :: rest) = some (arguments, rest) :=
      close?_eq_some_iff.2 ⟨rfl, h⟩
    simp [hname rfl, opening, callsFrom, hclose]
  | cons c before ih =>
    obtain ⟨hc, hbefore⟩ := standalone_cons.1 hbefore
    have hlater := ih hc hbefore
    simp only [List.cons_append, callsFrom]
    split
    · split
      · exact List.mem_cons_of_mem _ hlater
      · exact hlater
    · exact hlater

theorem Contains.mem_callsFrom {cs arguments : List Char} (h : Contains cs arguments) :
    arguments ∈ callsFrom false cs := by
  obtain ⟨before, rest, rfl, hbefore, hbalanced⟩ := h
  exact ThemeCall.mem_callsFrom (fun _ => rfl) hbefore hbalanced

end ThemeCall

namespace Theme

open ThemeCall

variable {t : Theme} {chain : List String} {cs : List Char}

/-! ### Evaluation without a look at the keys -/

/-- The recursion of expanding, with no other bound than that it comes to an end. -/
inductive Expands (t : Theme) : List Char → Except Error (List Char) → Prop
  | plain {cs : List Char} (h : next cs = .plain) : Expands t cs (.ok cs)
  | unclosed {cs lead : List Char} (h : next cs = .unclosed lead) : Expands t cs (.ok (lead ++ cs))
  | unresolved {cs : List Char} {c : ThemeCall} (h : next cs = .call c)
      (hsource : t.source? c = none) :
      Expands t cs (.error (.unresolvedThemeCall (Text.trim (String.ofList c.arguments))))
  | failed {cs source : List Char} {c : ThemeCall} {e : Error} (h : next cs = .call c)
      (hsource : t.source? c = some source) (hinner : Expands t source (.error e)) :
      Expands t cs (.error e)
  | call {cs source out : List Char} {c : ThemeCall} {others : Except Error (List Char)}
      (h : next cs = .call c) (hsource : t.source? c = some source)
      (hinner : Expands t source (.ok out)) (hrest : Expands t c.rest others) :
      Expands t cs (others.map fun rest => c.before ++ t.finish c out ++ rest)

theorem Expands.unique {r r' : Except Error (List Char)} (h : t.Expands cs r)
    (h' : t.Expands cs r') : r' = r := by
  induction h generalizing r' with
  | plain hplain => cases h' <;> simp_all
  | unclosed hunclosed => cases h' <;> simp_all
  | unresolved hcall hsource => cases h' <;> simp_all
  | failed hcall hsource _ ih => cases h' <;> grind
  | call hcall hsource _ _ ihinner ihrest => cases h' <;> grind

/-- Only a call with neither a value nor a fallback fails. -/
theorem Expands.exists_unresolved {r : Except Error (List Char)} {e : Error} (h : t.Expands cs r)
    (hr : r = .error e) : ∃ arguments, e = .unresolvedThemeCall arguments := by
  induction h with
  | plain => cases hr
  | unclosed => cases hr
  | unresolved => exact ⟨_, (Except.error.inj hr).symm⟩
  | failed _ _ _ ih => exact ih hr
  | @call _ _ _ _ others _ _ _ _ _ ihrest =>
    cases others with
    | ok => cases hr
    | error => exact ihrest hr

theorem Expands.of_source {c : ThemeCall} {source : List Char}
    {inner others : Except Error (List Char)}
    (h : next cs = .call c) (hsource : t.source? c = some source) (hinner : t.Expands source inner)
    (hrest : t.Expands c.rest others) :
    t.Expands cs (do
      let value ← inner.map (t.finish c)
      let rest ← others
      return c.before ++ value ++ rest) := by
  cases inner with
  | error e => exact .failed h hsource hinner
  | ok out =>
    have hcall := Expands.call h hsource hinner hrest
    cases others <;> exact hcall

/-! ### The look at the keys -/

theorem repeated?_eq_some {c : ThemeCall} {key : String} :
    t.repeated? chain c = some key ↔ t.pathKey? c.path = some key ∧ key ∈ chain := by
  simp [repeated?, Option.filter_eq_some_iff]

theorem mem_chainOf {c : ThemeCall} {key : String} :
    key ∈ t.chainOf chain c ↔ t.pathKey? c.path = some key ∨ key ∈ chain := by
  simp [chainOf]

theorem callValue_of_source {c : ThemeCall} {source : List Char} (hnew : t.repeated? chain c = none)
    (hsource : t.source? c = some source) :
    t.callValue chain c = (t.expandCalls (t.chainOf chain c) source).map (t.finish c) := by
  rw [callValue, hnew, hsource]

theorem expands_expandCalls (h : ∀ key, t.expandCalls chain cs ≠ .error (.circularThemeCall key)) :
    t.Expands cs (t.expandCalls chain cs) := by
  induction chain, cs using expandCalls_induction (t := t) with
  | plain chain cs hplain =>
    rw [expandCalls_plain hplain]
    exact .plain hplain
  | unclosed chain cs before hunclosed =>
    rw [expandCalls_unclosed hunclosed]
    exact .unclosed hunclosed
  | call chain cs c hcall ihsource ihrest =>
    rw [expandCalls_eq_bind hcall] at h ⊢
    cases hrepeated : t.repeated? chain c with
    | some key =>
      rw [callValue, hrepeated] at h
      exact absurd rfl (h key)
    | none =>
      cases hsource : t.source? c with
      | none =>
        rw [callValue, hrepeated, hsource]
        exact .unresolved hcall hsource
      | some source =>
        rw [callValue_of_source hrepeated hsource] at h ⊢
        have hinner := ihsource source hsource hrepeated
        cases hexpand : t.expandCalls (t.chainOf chain c) source with
        | error e =>
          rw [hexpand] at h hinner
          exact .failed hcall hsource (hinner h)
        | ok out =>
          rw [hexpand] at h hinner
          refine .of_source hcall hsource (hinner (by simp)) (ihrest fun key hothers => h key ?_)
          rw [hothers]
          rfl

/-- One text is expanded in the course of expanding another: what is put for its first call and, if
that does not fail, what stands behind the call. -/
inductive Needs (t : Theme) : List Char → List Char → Prop
  | source {cs source : List Char} {c : ThemeCall} (h : next cs = .call c)
      (hsource : t.source? c = some source) : Needs t source cs
  | rest {cs source out : List Char} {c : ThemeCall} (h : next cs = .call c)
      (hsource : t.source? c = some source) (hinner : t.Expands source (.ok out)) :
      Needs t c.rest cs

/-- The recursion has a result where it is well-founded, and only there. -/
theorem exists_expands_iff : (∃ r, t.Expands cs r) ↔ Acc t.Needs cs := by
  constructor
  · rintro ⟨r, h⟩
    induction h with
    | plain hplain => exact ⟨_, fun _ hneeds => by cases hneeds <;> simp_all⟩
    | unclosed hunclosed => exact ⟨_, fun _ hneeds => by cases hneeds <;> simp_all⟩
    | unresolved hcall hnone => exact ⟨_, fun _ hneeds => by cases hneeds <;> simp_all⟩
    | failed hcall hsource hinner ih =>
      refine ⟨_, fun _ hneeds => ?_⟩
      cases hneeds with
      | source hcall' hsource' => simp_all
      | rest hcall' hsource' hinner' =>
        rw [hcall] at hcall'
        cases hcall'
        rw [hsource] at hsource'
        cases hsource'
        cases hinner.unique hinner'
    | call hcall hsource hinner hrest ihinner ihrest =>
      refine ⟨_, fun _ hneeds => ?_⟩
      cases hneeds <;> simp_all
  · intro h
    induction h with
    | intro cs _ ih =>
      cases hnext : next cs with
      | plain => exact ⟨_, .plain hnext⟩
      | unclosed before => exact ⟨_, .unclosed hnext⟩
      | call c =>
        cases hsource : t.source? c with
        | none => exact ⟨_, .unresolved hnext hsource⟩
        | some source =>
          obtain ⟨inner, hinner⟩ := ih source (.source hnext hsource)
          cases inner with
          | error e => exact ⟨_, .failed hnext hsource hinner⟩
          | ok out =>
            obtain ⟨others, hrest⟩ := ih c.rest (.rest hnext hsource hinner)
            exact ⟨_, .call hnext hsource hinner hrest⟩

private theorem not_self_of_acc {α : Type} {r : α → α → Prop} {a : α} (h : Acc r a) : ¬r a a := by
  induction h with
  | intro a _ ih => exact fun hself => ih a hself hself

/-- Where a text is expanded on the way of values that need it, none of these is met again: its
recursion would need itself. -/
theorem Expands.repeated?_eq_none {c : ThemeCall} {source : List Char}
    {r : Except Error (List Char)}
    (hcall : next cs = .call c) (hsource : t.source? c = some source) (hinner : t.Expands source r)
    (hchain : ∀ k ∈ chain, Relation.ReflTransGen t.Needs cs ((t.get? k).getD "").toList) :
    t.repeated? chain c = none := by
  rw [Option.eq_none_iff_forall_ne_some]
  intro key hrepeated
  obtain ⟨hkey, hmem⟩ := repeated?_eq_some.1 hrepeated
  have hvalue : source = ((t.get? key).getD "").toList := by
    rw [source?, hkey] at hsource
    exact (Option.some.inj hsource).symm
  have hagain : Relation.TransGen t.Needs source source :=
    .head' (.source hcall hsource) (hvalue ▸ hchain key hmem)
  exact not_self_of_acc (exists_expands_iff.1 ⟨r, hinner⟩).transGen hagain

theorem needs_of_mem_chainOf {c : ThemeCall} {source : List Char} (hcall : next cs = .call c)
    (hsource : t.source? c = some source)
    (hchain : ∀ k ∈ chain, Relation.ReflTransGen t.Needs cs ((t.get? k).getD "").toList) :
    ∀ k ∈ t.chainOf chain c, Relation.ReflTransGen t.Needs source ((t.get? k).getD "").toList := by
  intro k hk
  rcases mem_chainOf.1 hk with hkey | hk
  · rw [source?, hkey] at hsource
    cases hsource
    exact .refl
  · exact .head (.source hcall hsource) (hchain k hk)

theorem Expands.expandCalls_eq {r : Except Error (List Char)} (h : t.Expands cs r)
    (chain : List String)
    (hchain : ∀ k ∈ chain, Relation.ReflTransGen t.Needs cs ((t.get? k).getD "").toList) :
    t.expandCalls chain cs = r := by
  induction h generalizing chain with
  | plain hplain => exact expandCalls_plain hplain
  | unclosed hunclosed => exact expandCalls_unclosed hunclosed
  | @unresolved cs c hcall hsource =>
    have hkey : t.pathKey? c.path = none := by
      rw [source?] at hsource
      split at hsource
      · cases hsource
      · assumption
    rw [expandCalls_eq_bind hcall, callValue, repeated?, hkey, hsource]
    rfl
  | failed hcall hsource hinner ih =>
    have hnew := Expands.repeated?_eq_none hcall hsource hinner hchain
    rw [expandCalls_eq_bind hcall, callValue_of_source hnew hsource,
      ih _ (needs_of_mem_chainOf hcall hsource hchain)]
    rfl
  | @call cs source out c others hcall hsource hinner hrest ihinner ihrest =>
    have hnew := Expands.repeated?_eq_none hcall hsource hinner hchain
    rw [expandCalls_eq_bind hcall, callValue_of_source hnew hsource,
      ihinner _ (needs_of_mem_chainOf hcall hsource hchain),
      ihrest chain fun k hk => .head (.rest hcall hsource hinner) (hchain k hk)]
    cases others <;> rfl

theorem expands_iff {r : Except Error (List Char)} :
    t.Expands cs r ↔ t.expandCalls [] cs = r ∧ ∀ key, r ≠ .error (.circularThemeCall key) := by
  constructor
  · intro h
    refine ⟨h.expandCalls_eq [] (by simp), fun key hr => ?_⟩
    obtain ⟨arguments, heq⟩ := h.exists_unresolved hr
    cases heq
  · rintro ⟨rfl, h⟩
    exact expands_expandCalls h

/-- The error of the look at the keys stands for a recursion without an end. -/
theorem circular_iff_not_acc :
    (∃ key, t.expandCalls [] cs = .error (.circularThemeCall key)) ↔ ¬Acc t.Needs cs := by
  rw [← exists_expands_iff]
  constructor
  · rintro ⟨key, hkey⟩ ⟨r, h⟩
    obtain ⟨rfl, hr⟩ := expands_iff.1 h
    exact hr key hkey
  · intro h
    by_contra hnone
    exact h ⟨_, expands_iff.2 ⟨rfl, fun key hkey => hnone ⟨key, hkey⟩⟩⟩

/-! ### References -/

def Mentions (t : Theme) (cs : List Char) (key : String) : Prop :=
  ∃ arguments, Contains cs arguments ∧ t.pathKey? (ofArguments [] arguments []).path = some key

/-- The value of a variable has a call, at any nesting, that names another one. -/
def Refers (t : Theme) (key key' : String) : Prop :=
  ∃ value, t.get? key = some value ∧ t.Mentions value.toList key'

theorem Mentions.mono {cs' : List Char} {key : String} (h : t.Mentions cs key)
    (hcontains : ∀ arguments, Contains cs arguments → Contains cs' arguments) :
    t.Mentions cs' key := by
  obtain ⟨arguments, hc, hkey⟩ := h
  exact ⟨arguments, hcontains arguments hc, hkey⟩

theorem mentions_of_next {c : ThemeCall} {key : String} (h : next cs = .call c)
    (hkey : t.pathKey? c.path = some key) : t.Mentions cs key := by
  obtain ⟨p, -, hc⟩ := exists_piece h
  have hcontains := (contains_of_next h).1
  rw [hc, arguments_ofArguments] at hcontains
  rw [hc, path_ofArguments] at hkey
  exact ⟨p.arguments, hcontains, hkey⟩

private theorem get?_of_pathKey? {path key : String} (h : t.pathKey? path = some key) :
    t.get? key = some ((t.get? key).getD "") := by
  obtain ⟨entry, hmem⟩ := exists_mem_of_pathKey? h
  cases hget : t.get? key with
  | some value => rfl
  | none =>
    rw [get?, entry?, Option.map_eq_none_iff, List.lookup_eq_none_iff] at hget
    simpa using hget (key, entry) hmem

private theorem mentions_of_source {c : ThemeCall} {source : List Char} {key' : String}
    (h : next cs = .call c)
    (hsource : t.source? c = some source) (hmentions : t.Mentions source key') :
    (∃ key, t.pathKey? c.path = some key ∧ t.Refers key key') ∨
      t.pathKey? c.path = none ∧ t.Mentions cs key' := by
  rw [source?] at hsource
  split at hsource
  next key hkey =>
    obtain rfl := Option.some.inj hsource
    exact .inl ⟨key, hkey, _, get?_of_pathKey? hkey, hmentions⟩
  next hkey =>
    obtain ⟨fallback, hfallback, rfl⟩ := Option.map_eq_some_iff.1 hsource
    exact .inr ⟨hkey, hmentions.mono ((contains_of_next h).2.2 fallback hfallback)⟩

/-- The error names a variable that leads back to itself. The keys on the way lead to all that the
text mentions. -/
theorem refers_of_circular {key : String}
    (hchain : ∀ k ∈ chain, ∀ key, t.Mentions cs key → Relation.TransGen t.Refers k key)
    (h : t.expandCalls chain cs = .error (.circularThemeCall key)) :
    Relation.TransGen t.Refers key key := by
  induction chain, cs using expandCalls_induction (t := t) with
  | plain chain cs hplain =>
    rw [expandCalls_plain hplain] at h
    cases h
  | unclosed chain cs before hunclosed =>
    rw [expandCalls_unclosed hunclosed] at h
    cases h
  | call chain cs c hcall ihsource ihrest =>
    rw [expandCalls_eq_bind hcall] at h
    rcases Except.bind_eq_error h with hvalue | ⟨value, -, h⟩
    · rw [callValue] at hvalue
      split at hvalue
      next key' hrepeated =>
        cases hvalue
        obtain ⟨hkey, hmem⟩ := repeated?_eq_some.1 hrepeated
        exact hchain key hmem key (mentions_of_next hcall hkey)
      next source hnew hsource =>
        refine ihsource source hsource hnew (fun k hk key' hm => ?_) (Except.map_eq_error hvalue)
        rcases mentions_of_source hcall hsource hm with ⟨key, hkey, hrefers⟩ | ⟨hnone, hmentions⟩
        · rcases mem_chainOf.1 hk with hk | hk
          · rw [hkey] at hk
            cases hk
            exact .single hrefers
          · exact (hchain k hk key (mentions_of_next hcall hkey)).tail hrefers
        · rcases mem_chainOf.1 hk with hk | hk
          · rw [hnone] at hk
            cases hk
          · exact hchain k hk key' hmentions
      next => cases hvalue
    · rcases Except.bind_eq_error h with hothers | ⟨others, -, h⟩
      · refine ihrest (fun k hk key hm => hchain k hk key ?_) hothers
        exact hm.mono (contains_of_next hcall).2.1
      · cases h

private theorem acyclic_of_rank (rank : String → Nat)
    (h : ∀ entry ∈ t.entries, ∀ arguments ∈ callsFrom false entry.2.value.toList,
      ∀ key ∈ t.pathKey? (ofArguments [] arguments []).path, rank key < rank entry.1)
        (key : String) :
    ¬Relation.TransGen t.Refers key key := by
  have hstep : ∀ {a b}, t.Refers a b → rank b < rank a := by
    rintro a b ⟨value, hvalue, arguments, hcontains, hkey⟩
    obtain ⟨entry, hentry, rfl⟩ := Option.map_eq_some_iff.1 hvalue
    obtain ⟨front, back, hentries, -⟩ := List.lookup_eq_some_iff.1 hentry
    have hmem : (a, entry) ∈ t.entries := by simp [hentries]
    exact h (a, entry) hmem arguments hcontains.mem_callsFrom b hkey
  have hpath : ∀ {a b}, Relation.TransGen t.Refers a b → rank b < rank a := by
    intro a b hpath
    induction hpath with
    | single hrefers => exact hstep hrefers
    | tail _ hrefers ih => exact Nat.lt_trans (hstep hrefers) ih
  exact fun hcycle => Nat.lt_irrefl _ (hpath hcycle)

/-- Where no variable leads back to itself, expanding ends on every text, with one result: a text,
or the error of a call that has neither a value nor a fallback. -/
theorem expandText_terminates (t : Theme) (h : ∀ key, ¬Relation.TransGen t.Refers key key)
    (s : String) :
    (∀ r, t.Expands s.toList r ↔ r = t.expandCalls [] s.toList) ∧
      ((∃ out, t.expandText s = .ok out) ∨
        ∃ arguments, t.expandText s = .error (.unresolvedThemeCall arguments)) := by
  have hexpands : t.Expands s.toList (t.expandCalls [] s.toList) :=
    expands_expandCalls fun key hcircular => h key (refers_of_circular (by simp) hcircular)
  refine ⟨fun r => ⟨fun hr => hexpands.unique hr, fun hr => hr ▸ hexpands⟩, ?_⟩
  rw [expandText]
  cases hresult : t.expandCalls [] s.toList with
  | ok out => exact .inl ⟨String.ofList out, rfl⟩
  | error e =>
    obtain ⟨arguments, rfl⟩ := hexpands.exists_unresolved hresult
    exact .inr ⟨arguments, rfl⟩

def nestedTheme : Theme :=
  { entries := [("--spacing-1-5", ⟨"6px", {}⟩), ("--color-red", ⟨"#f00", {}⟩),
      ("--b", ⟨"theme(colors.red / 50%) theme(spacing.1.5)", {}⟩),
      ("--a", ⟨"theme(--none, theme('--b')) theme(--b) theme(", {}⟩)] }

theorem expandText_terminates_nested :
    nestedTheme.Refers "--b" "--color-red" ∧
      (∀ key, ¬Relation.TransGen nestedTheme.Refers key key) ∧
      nestedTheme.Expands "calc(theme(--a) + theme(x, theme(--b))) theme(--a".toList
        (nestedTheme.expandCalls []
          "calc(theme(--a) + theme(x, theme(--b))) theme(--a".toList) := by
  have hrefers : nestedTheme.Refers "--b" "--color-red" := by
    have hclose : close? 0 none "colors.red / 50%) theme(spacing.1.5)".toList =
        some ("colors.red / 50%".toList, " theme(spacing.1.5)".toList) := by decide +kernel
    have hcontains : Contains "theme(colors.red / 50%) theme(spacing.1.5)".toList
        "colors.red / 50%".toList :=
      ⟨[], " theme(spacing.1.5)".toList, by decide +kernel, by simp [Standalone],
        (close?_eq_some_iff.1 hclose).2⟩
    exact ⟨_, rfl, _, hcontains, by decide +kernel⟩
  have hacyclic : ∀ key, ¬Relation.TransGen nestedTheme.Refers key key :=
    acyclic_of_rank (nestedTheme.entries.map Prod.fst).idxOf (by decide +kernel)
  exact ⟨hrefers, hacyclic, ((expandText_terminates nestedTheme hacyclic _).1 _).2 rfl⟩

end Theme

end UtilityCss
