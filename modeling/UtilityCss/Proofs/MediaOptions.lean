import Mathlib
import UtilityCss.Proofs.CollectShape
import UtilityCss.Proofs.WordText

/-!
Where the options of media queries go. At-rules are told from the at-rules around them, before and
after options are handed on. A query that is read loses its options, a query of options alone is
taken away, and a theme block has, behind its own options, those of the queries around it. Inside a
query that is taken away no query is read.
-/
namespace UtilityCss

namespace ThemeParams

def ofWord (word : String) : Except Error ThemeParams :=
  match flag? word with
  | some flags => .ok { flags }
  | none =>
    match Text.between? "prefix(" ")" word with
    | some inner =>
      if isPrefixName (Text.trim inner) then .ok { keyPrefix := some (Text.trim inner) }
      else .error (.invalidPrefix (Text.trim inner))
    | none =>
      match Text.between? "theme(" ")" word with
      | some inner => parse (commasToSpaces inner)
      | none => .ok {}

theorem parse_eq (params : String) :
    parse params = ((Text.words params).mapM ofWord).map (List.foldl merge {}) := by
  rw [parse, List.mapM_subtype (g := ofWord), List.unattach_attach]
  · cases (Text.words params).mapM ofWord <;> rfl
  · intro word _
    rw [ofWord]
    dsimp only
    cases flag? word with
    | some flags => rfl
    | none =>
      cases Text.between? "prefix(" ")" word with
      | some inner => rfl
      | none =>
        dsimp only
        split
        next inner h => rw [h]
        next h =>
          rw [h]
          rfl

private theorem merge_assoc (a b c : ThemeParams) : (a.merge b).merge c = a.merge (b.merge c) := by
  simp only [merge, ThemeFlags.union, Bool.or_assoc, Option.or_assoc]

theorem empty_merge (a : ThemeParams) : merge {} a = a := by
  simp [merge, ThemeFlags.union]

private theorem merge_empty (a : ThemeParams) : a.merge {} = a := by
  simp [merge, ThemeFlags.union]

private theorem foldl_merge (a : ThemeParams) (parts : List ThemeParams) :
    parts.foldl merge a = a.merge (parts.foldl merge {}) := by
  induction parts generalizing a with
  | nil => exact (merge_empty a).symm
  | cons p parts ih =>
    rw [List.foldl_cons, List.foldl_cons, ih, ih (merge {} p), empty_merge, merge_assoc]

private theorem parse_append {s : String} (h : Text.IsSettled s) (t : String) :
    parse (s ++ " " ++ t) = (do
      let p ← parse s
      let q ← parse t
      return p.merge q) := by
  simp only [parse_eq, Text.words_append h, List.mapM_append]
  cases (Text.words s).mapM ofWord with
  | error e => rfl
  | ok ps =>
    cases (Text.words t).mapM ofWord with
    | error e => rfl
    | ok qs =>
      change Except.ok _ = Except.ok _
      rw [List.foldl_append, foldl_merge]

private theorem parse_empty : parse "" = .ok {} := by
  rw [parse_eq]
  rfl

private theorem parse_appendParams {s : String} (h : Text.IsSettled s) (t : String) :
    parse (appendParams s t) = (do
      let p ← parse s
      let q ← parse t
      return p.merge q) := by
  rw [appendParams]
  split
  next hempty =>
    rw [String.isEmpty_iff.1 hempty, parse_empty]
    change _ = (parse t).map (merge {})
    cases parse t with
    | error e => rfl
    | ok q => exact congrArg Except.ok (empty_merge q).symm
  next => exact parse_append h t

end ThemeParams

namespace Text

theorem IsSettled.appendParams {s t : String} (hs : IsSettled s) (ht : IsSettled t) :
    IsSettled (appendParams s t) := by
  rw [UtilityCss.appendParams]
  split
  · exact ht
  · have htext : (s ++ " " ++ t).toList = s.toList ++ ' ' :: t.toList := by simp
    simp only [IsSettled, WordScan.run] at hs ht
    rw [IsSettled, htext, WordScan.run, List.foldl_append, List.foldl_cons, hs]
    exact ht

end Text

namespace ThemeParams

/-- Options that are put behind each other say together what each of them says, if nothing is left
open before the last. -/
theorem parse_foldl_appendParams {own : String} {texts : List String}
    (h : ∀ text ∈ (own :: texts).dropLast, Text.IsSettled text) :
    parse (texts.foldl appendParams own) = (do
      let own ← parse own
      let others ← texts.mapM parse
      return others.foldl merge own) := by
  induction texts generalizing own with
  | nil =>
    rw [List.foldl_nil]
    cases parse own <;> rfl
  | cons text texts ih =>
    rw [List.dropLast_cons_cons, List.forall_mem_cons] at h
    have hrest : ∀ t ∈ (appendParams own text :: texts).dropLast, Text.IsSettled t := by
      cases texts with
      | nil => simp
      | cons next texts =>
        rw [List.dropLast_cons_cons, List.forall_mem_cons] at h ⊢
        exact ⟨h.1.appendParams h.2.1, h.2.2⟩
    rw [List.foldl_cons, ih hrest, parse_appendParams h.1, List.mapM_cons]
    cases parse own with
    | error e => rfl
    | ok p =>
      cases parse text with
      | error e => rfl
      | ok q => cases texts.mapM parse <;> rfl

end ThemeParams

structure AtHead where
  name : String
  params : String

namespace AtHead

def directive (h : AtHead) : Directive :=
  .ofName h.name

def options (h : AtHead) : MediaOptions :=
  .ofParams h.params

def isOptionsOnly (h : AtHead) : Bool :=
  h.directive == .media && h.options.isPresent && h.options.query.isEmpty

def handedOn (h : AtHead) : List String :=
  if h.directive = .media ∧ h.options.theme ≠ [] then [String.intercalate " " h.options.theme]
  else []

/-- The options that reach a place from the queries around it, the outermost first; `outer` names
the nearest at-rule first. A query that is taken away is the last to be read, and what is around a
theme block goes no further. -/
def inherited : List AtHead → List String
  | [] => []
  | h :: outer =>
    if h.directive = .theme then []
    else inherited outer ++ if outer.any isOptionsOnly then [] else h.handedOn

end AtHead

namespace Forwarding

variable {f : Forwarding} {h : AtHead}

def within (f : Forwarding) (h : AtHead) : Forwarding :=
  match h.directive with
  | .theme => { f with inherited := [] }
  | .media => if f.reading then ⟨!h.isOptionsOnly, f.inherited ++ h.handedOn⟩ else f
  | _ => f

def paramsOf (f : Forwarding) (h : AtHead) : String :=
  match h.directive with
  | .theme => f.inherited.foldl appendParams h.params
  | .media =>
    if f.reading && h.options.isPresent then String.intercalate " " h.options.query else h.params
  | _ => h.params

def takesAway (f : Forwarding) (h : AtHead) : Bool :=
  f.reading && h.isOptionsOnly

def isRaisedBy (f : Forwarding) (h : AtHead) : Bool :=
  f.reading && h.directive == .media && h.options.important

def rebuild (f : Forwarding) (h : AtHead) (inner : Forwarded) : Forwarded where
  nodes := if f.takesAway h then inner.nodes else [.atRule h.name (f.paramsOf h) inner.nodes]
  important := f.isRaisedBy h || inner.important

theorem within_of_theme (hdir : h.directive = .theme) :
    f.within h = { f with inherited := [] } := by
  rw [within, hdir]

private theorem rebuild_of_theme (hdir : h.directive = .theme) :
    f.rebuild h = (·.wrap (.atRule h.name (f.inherited.foldl appendParams h.params))) := by
  funext inner
  simp [rebuild, takesAway, AtHead.isOptionsOnly, isRaisedBy, paramsOf, hdir, Forwarded.wrap]

theorem within_of_other (htheme : h.directive ≠ .theme) (hmedia : h.directive ≠ .media) :
    f.within h = f := by
  rw [within]
  split
  · contradiction
  · contradiction
  · rfl

theorem rebuild_of_other (htheme : h.directive ≠ .theme) (hmedia : h.directive ≠ .media) :
    f.rebuild h = (·.wrap (.atRule h.name h.params)) := by
  have hparams : f.paramsOf h = h.params := by
    rw [paramsOf]
    split
    · contradiction
    · contradiction
    · rfl
  have hquery : (h.directive == .media) = false := beq_eq_false_iff_ne.2 hmedia
  funext inner
  simp [rebuild, takesAway, AtHead.isOptionsOnly, isRaisedBy, hparams, hquery, Forwarded.wrap]

private theorem within_of_unread (hdir : h.directive = .media)
    (hno : f.reading = false ∨ h.options.isPresent = false) : f.within h = f := by
  rw [within, hdir]
  dsimp only
  split
  next hreading =>
    have hpresent : h.options.isPresent = false := hno.resolve_left (by simp [hreading])
    have htheme : h.options.theme = [] := by
      simpa using (Bool.or_eq_false_iff.1 hpresent).2
    cases f
    simp only [AtHead.isOptionsOnly, AtHead.handedOn, hpresent, htheme] at hreading ⊢
    simp [hreading]
  next => rfl

private theorem rebuild_of_unread (hdir : h.directive = .media)
    (hno : f.reading = false ∨ h.options.isPresent = false) :
    f.rebuild h = (·.wrap (.atRule h.name h.params)) := by
  funext inner
  rcases hno with hreading | hpresent
  · simp [rebuild, takesAway, isRaisedBy, paramsOf, hdir, hreading, Forwarded.wrap]
  · have himportant : h.options.important = false := (Bool.or_eq_false_iff.1 hpresent).1
    simp [rebuild, takesAway, AtHead.isOptionsOnly, isRaisedBy, paramsOf, hdir, hpresent,
      himportant, Forwarded.wrap]

end Forwarding

theorem Node.forwardOptions_atRule (f : Forwarding) (h : AtHead) (nodes : List Node) :
    (Node.atRule h.name h.params nodes).forwardOptions f =
      (forwardAllOptions (f.within h) nodes).map (f.rebuild h) := by
  rw [Node.forwardOptions]
  split
  next hdir => rw [Forwarding.within_of_theme hdir, Forwarding.rebuild_of_theme hdir]
  next hdir =>
    replace hdir : h.directive = .media := hdir
    dsimp only
    split
    next hno =>
      rw [Bool.or_eq_true, Bool.not_eq_true', Bool.not_eq_true'] at hno
      rw [Forwarding.within_of_unread hdir hno, Forwarding.rebuild_of_unread hdir hno]
    next hyes =>
      rw [Bool.not_eq_true, Bool.or_eq_false_iff, Bool.not_eq_false', Bool.not_eq_false'] at hyes
      obtain ⟨hreading, hpresent⟩ := hyes
      have hhanded : f.inherited ++ h.handedOn =
          if (MediaOptions.ofParams h.params).theme.isEmpty then f.inherited
          else f.inherited ++ [String.intercalate " " (MediaOptions.ofParams h.params).theme] := by
        rw [AtHead.handedOn, AtHead.options]
        cases (MediaOptions.ofParams h.params).theme <;> simp [hdir]
      rw [← hhanded]
      change h.options.isPresent = true at hpresent
      change (if h.options.query.isEmpty = true then _ else _) = _
      split
      next hquery =>
        have honly : h.isOptionsOnly = true := by
          simp [AtHead.isOptionsOnly, hdir, hpresent, hquery]
        rw [Forwarding.within, hdir]
        simp only [hreading, honly]
        congr 1
        funext inner
        simp [Forwarding.rebuild, Forwarding.takesAway, Forwarding.isRaisedBy,
          hreading, honly, hdir]
        rfl
      next hquery =>
        have honly : h.isOptionsOnly = false := by
          simpa [AtHead.isOptionsOnly, hdir, hpresent] using hquery
        rw [Forwarding.within, hdir]
        simp only [hreading, honly]
        congr 1
        funext inner
        simp [Forwarding.rebuild, Forwarding.takesAway, Forwarding.isRaisedBy, Forwarding.paramsOf,
          hreading, honly, hdir, hpresent]
        exact ⟨rfl, rfl⟩
  next htheme hmedia =>
    rw [Forwarding.within_of_other htheme hmedia, Forwarding.rebuild_of_other htheme hmedia]

structure AtSpot where
  head : AtHead
  outer : List AtHead

mutual

def Node.spots (outer : List AtHead) : Node → List AtSpot
  | .atRule name params nodes =>
    ⟨⟨name, params⟩, outer⟩ :: allSpots (⟨name, params⟩ :: outer) nodes
  | .rule _ nodes => allSpots outer nodes
  | .context _ nodes => allSpots outer nodes
  | .atRoot nodes => allSpots outer nodes
  | .declaration .. => []
  | .comment _ => []

def allSpots (outer : List AtHead) : List Node → List AtSpot
  | [] => []
  | n :: ns => n.spots outer ++ allSpots outer ns

end

theorem allSpots_append (outer : List AtHead) (ns ms : List Node) :
    allSpots outer (ns ++ ms) = allSpots outer ns ++ allSpots outer ms := by
  induction ns with
  | nil => rfl
  | cons n ns ih => rw [List.cons_append, allSpots, allSpots, ih, List.append_assoc]

theorem allSpots_singleton (outer : List AtHead) (n : Node) :
    allSpots outer [n] = n.spots outer := by
  rw [allSpots, allSpots, List.append_nil]

def Forwarding.inside (outer : List AtHead) : Forwarding :=
  ⟨!outer.any AtHead.isOptionsOnly, AtHead.inherited outer⟩

theorem Forwarding.within_inside (h : AtHead) (outer : List AtHead) :
    (Forwarding.inside outer).within h = .inside (h :: outer) := by
  by_cases htheme : h.directive = .theme
  · rw [within_of_theme htheme]
    simp [inside, AtHead.inherited, AtHead.isOptionsOnly, htheme]
  by_cases hmedia : h.directive = .media
  · rw [within, hmedia]
    by_cases hreading : outer.any AtHead.isOptionsOnly = true
    · simp [inside, AtHead.inherited, htheme, hreading]
    · rw [Bool.not_eq_true] at hreading
      simp [inside, AtHead.inherited, htheme, hreading]
  · rw [within_of_other htheme hmedia]
    simp [inside, AtHead.inherited, AtHead.isOptionsOnly, AtHead.handedOn, htheme, hmedia]

namespace AtSpot

/-- No query around takes its children's options out of sight. -/
def isRead (s : AtSpot) : Bool :=
  !s.outer.any AtHead.isOptionsOnly

def isDissolved (s : AtSpot) : Bool :=
  s.isRead && s.head.isOptionsOnly

def headAfter (s : AtSpot) : AtHead :=
  ⟨s.head.name, (Forwarding.inside s.outer).paramsOf s.head⟩

def outerAfter : List AtHead → List AtHead
  | [] => []
  | h :: outer =>
    if isDissolved ⟨h, outer⟩ then outerAfter outer else headAfter ⟨h, outer⟩ :: outerAfter outer

def after (s : AtSpot) : AtSpot :=
  ⟨s.headAfter, outerAfter s.outer⟩

end AtSpot

structure Forwarded.Tells (out : Forwarded) (outer : List AtHead)
    (before : List AtSpot) : Prop where
  spots : allSpots (AtSpot.outerAfter outer) out.nodes =
    (before.filter fun s => !s.isDissolved).map AtSpot.after
  important : out.important = before.any fun s => (Forwarding.inside s.outer).isRaisedBy s.head

namespace Forwarded.Tells

variable {outer : List AtHead} {out rest : Forwarded} {ss ts : List AtSpot}

theorem wrap {f : List Node → Node} (h : out.Tells outer ss)
    (hf : ∀ outer nodes, (f nodes).spots outer = allSpots outer nodes) :
    (out.wrap f).Tells outer ss where
  spots := by rw [Forwarded.wrap, allSpots_singleton, hf, h.spots]
  important := h.important

theorem append (h : out.Tells outer ss) (hrest : rest.Tells outer ts) :
    Forwarded.Tells ⟨out.nodes ++ rest.nodes, out.important || rest.important⟩ outer
      (ss ++ ts) where
  spots := by rw [allSpots_append, h.spots, hrest.spots, List.filter_append, List.map_append]
  important := by rw [h.important, hrest.important, List.any_append]

theorem rebuild {h : AtHead} (hin : out.Tells (h :: outer) ss) :
    ((Forwarding.inside outer).rebuild h out).Tells outer (⟨h, outer⟩ :: ss) where
  spots := by
    have hspots := hin.spots
    rw [AtSpot.outerAfter] at hspots
    rw [Forwarding.rebuild]
    -- the condition of the step is that of the place
    change allSpots _ (if AtSpot.isDissolved ⟨h, outer⟩ = true then _ else _) = _
    rw [List.filter_cons]
    cases hdis : AtSpot.isDissolved ⟨h, outer⟩ with
    | true =>
      rw [hdis] at hspots
      exact hspots
    | false =>
      rw [hdis] at hspots
      simp only [Bool.false_eq_true, if_false, Bool.not_false, if_true] at hspots ⊢
      rw [allSpots_singleton, Node.spots, List.map_cons, ← hspots]
      rfl
  important := by
    rw [List.any_cons, ← hin.important]
    rfl

end Forwarded.Tells

mutual

theorem Node.forwardOptions_tells :
    ∀ {node : Node} {outer : List AtHead} {out : Forwarded},
      node.forwardOptions (.inside outer) = .ok out → out.Tells outer (node.spots outer)
  | .comment text, outer, out, h => by
    rw [Node.forwardOptions] at h
    cases h
    exact ⟨rfl, rfl⟩
  | .declaration property value important, outer, out, h => by
    rw [Node.forwardOptions] at h
    split at h <;> cases h
    exact ⟨rfl, rfl⟩
  | .context entries nodes, outer, out, h => by
    rw [Node.forwardOptions] at h
    obtain ⟨inner, hinner, rfl⟩ := Except.exists_of_map h
    exact (forwardAllOptions_tells hinner).wrap fun _ _ => rfl
  | .rule selector nodes, outer, out, h => by
    rw [Node.forwardOptions] at h
    split at h
    · cases h
    · obtain ⟨inner, hinner, rfl⟩ := Except.exists_of_map h
      exact (forwardAllOptions_tells hinner).wrap fun _ _ => rfl
  | .atRoot nodes, outer, out, h => by
    rw [Node.forwardOptions] at h
    split at h
    · cases h
    · obtain ⟨inner, hinner, rfl⟩ := Except.exists_of_map h
      exact (forwardAllOptions_tells hinner).wrap fun _ _ => rfl
  | .atRule name params nodes, outer, out, h => by
    rw [Node.forwardOptions_atRule _ ⟨name, params⟩, Forwarding.within_inside] at h
    obtain ⟨inner, hinner, rfl⟩ := Except.exists_of_map h
    exact (forwardAllOptions_tells hinner).rebuild

theorem forwardAllOptions_tells :
    ∀ {nodes : List Node} {outer : List AtHead} {out : Forwarded},
      forwardAllOptions (.inside outer) nodes = .ok out → out.Tells outer (allSpots outer nodes)
  | [], outer, out, h => by
    rw [forwardAllOptions] at h
    cases h
    exact ⟨rfl, rfl⟩
  | n :: ns, outer, out, h => by
    rw [forwardAllOptions] at h
    obtain ⟨first, hfirst, h⟩ := Except.exists_of_bind h
    obtain ⟨rest, hrest, h⟩ := Except.exists_of_bind h
    cases h
    exact (Node.forwardOptions_tells hfirst).append (forwardAllOptions_tells hrest)

end

theorem MediaOptions.ofParams_query (params : String) :
    ofParams (String.intercalate " " (ofParams params).query) =
      ⟨[], false, (ofParams params).query⟩ := by
  have hwords : Text.words (String.intercalate " " (ofParams params).query) =
      (ofParams params).query := Text.words_join_of_sublist List.filter_sublist
  rw [ofParams, hwords]
  congr 1
  · rw [List.filter_eq_nil_iff]
    intro word hword
    have hquery := (List.mem_filter.1 hword).2
    simp_all
  · simp [ofParams]
  · simp [ofParams, List.filter_filter]

theorem MediaOptions.eq_of_not_isPresent {o : MediaOptions} (h : o.isPresent = false) :
    o = ⟨[], false, o.query⟩ := by
  obtain ⟨himportant, htheme⟩ := Bool.or_eq_false_iff.1 h
  cases o
  simp_all

namespace AtSpot

/-- What handing on options makes of an at-rule. -/
structure Becomes (s t : AtSpot) : Prop where
  name : t.head.name = s.head.name
  /-- the at-rules around it are those that are left -/
  outer : t.outer = outerAfter s.outer
  /-- a query that is read keeps all its words but the options -/
  query : s.head.directive = .media → s.isRead = true →
    t.head.options = { theme := [], important := false, query := s.head.options.query }
  /-- a theme block has the options of the queries around it behind its own -/
  params : s.head.directive = .theme →
    t.head.params = (AtHead.inherited s.outer).foldl appendParams s.head.params
  /-- and they are read as its own and theirs together -/
  theme : s.head.directive = .theme →
    (∀ text ∈ (s.head.params :: AtHead.inherited s.outer).dropLast, Text.IsSettled text) →
    ThemeParams.parse t.head.params = (do
      let own ← ThemeParams.parse s.head.params
      let others ← (AtHead.inherited s.outer).mapM ThemeParams.parse
      return others.foldl ThemeParams.merge own)
  other : s.head.directive ≠ .theme → (s.head.directive = .media → s.isRead = false) →
    t.head.params = s.head.params

private theorem becomes_after (s : AtSpot) : s.Becomes s.after := by
  have hparams : s.head.directive = .theme →
      s.after.head.params = (AtHead.inherited s.outer).foldl appendParams s.head.params := by
    intro hdir
    simp [after, headAfter, Forwarding.paramsOf, hdir, Forwarding.inside]
  refine ⟨rfl, rfl, ?_, hparams, ?_, ?_⟩
  · intro hdir hread
    have hreading : (Forwarding.inside s.outer).reading = true := hread
    simp only [after, headAfter, Forwarding.paramsOf, hdir, hreading, Bool.true_and, AtHead.options]
    split
    next => exact MediaOptions.ofParams_query _
    next hpresent => exact MediaOptions.eq_of_not_isPresent (Bool.not_eq_true _ ▸ hpresent)
  · intro hdir hsettled
    rw [hparams hdir]
    exact ThemeParams.parse_foldl_appendParams hsettled
  · intro htheme hmedia
    by_cases hdir : s.head.directive = .media
    · have hreading : (Forwarding.inside s.outer).reading = false := hmedia hdir
      simp [after, headAfter, Forwarding.paramsOf, hdir, hreading]
    · simp only [after, headAfter, Forwarding.paramsOf]

end AtSpot

/-- The options of media queries reach the theme blocks that they are read for. -/
theorem forwardMediaOptions_reach {nodes : List Node} {out : Forwarded}
    (h : forwardMediaOptions nodes = .ok out) :
    List.Forall₂ AtSpot.Becomes ((allSpots [] nodes).filter fun s => !s.isDissolved)
        (allSpots [] out.nodes) ∧
      (out.important = true ↔ ∃ s ∈ allSpots [] nodes, s.head.directive = .media ∧
        s.isRead = true ∧ "important" ∈ Text.words s.head.params) := by
  have htells : out.Tells [] (allSpots [] nodes) := forwardAllOptions_tells h
  obtain ⟨hspots, himportant⟩ := htells
  constructor
  · change allSpots [] out.nodes = _ at hspots
    rw [hspots, List.forall₂_map_right_iff, List.forall₂_same]
    exact fun s _ => s.becomes_after
  · rw [himportant, List.any_eq_true]
    refine exists_congr fun s => and_congr_right fun _ => ?_
    simp [Forwarding.isRaisedBy, Forwarding.inside, AtSpot.isRead, AtHead.options,
      MediaOptions.ofParams]
    grind

def optionNodes : List Node :=
  [.atRule "media" "theme(reference) screen important" [
    .atRule "media" "prefix(tw)" [.atRule "theme" "inline" [.decl "--a" "1px"]]]]

def optionsHandedOn : List Node :=
  [.atRule "media" "screen" [
    .atRule "theme" "inline theme(reference) prefix(tw)" [.decl "--a" "1px"]]]

theorem forwardMediaOptions_reach_two :
    forwardMediaOptions optionNodes = .ok ⟨optionsHandedOn, true⟩ ∧
      List.Forall₂ AtSpot.Becomes ((allSpots [] optionNodes).filter fun s => !s.isDissolved)
        (allSpots [] optionsHandedOn) ∧
      (true = true ↔ ∃ s ∈ allSpots [] optionNodes, s.head.directive = .media ∧
        s.isRead = true ∧ "important" ∈ Text.words s.head.params) := by
  have h : forwardMediaOptions optionNodes = .ok ⟨optionsHandedOn, true⟩ := rfl
  exact ⟨h, forwardMediaOptions_reach h⟩

/-- A query inside one of options alone keeps its options, its word `important` is not met, and they
do not reach the theme block inside. -/
theorem forwardMediaOptions_unread :
    forwardMediaOptions [.atRule "media" "prefix(tw)" [
        .atRule "media" "theme(inline) important" [.atRule "theme" "" []]]] =
      .ok ⟨[.atRule "media" "theme(inline) important" [.atRule "theme" "prefix(tw)" []]], false⟩ ∧
      (MediaOptions.ofParams "theme(inline) important").important = true ∧
      (MediaOptions.ofParams "theme(inline) important").theme = ["theme(inline)"] ∧
      ThemeParams.parse "prefix(tw)" = .ok { keyPrefix := some "tw" } ∧
      ThemeParams.parse "theme(inline)" = .ok { flags := { inlined := true } } := by
  refine ⟨rfl, rfl, rfl, by cbv, ?_⟩
  have hwords : Text.words "theme(inline)" = ["theme(inline)"] := rfl
  have hword : ThemeParams.ofWord "theme(inline)" = ThemeParams.parse "inline" := rfl
  have hinner : ThemeParams.parse "inline" = .ok { flags := { inlined := true } } := by cbv
  rw [ThemeParams.parse_eq, hwords, List.mapM_cons, hword, hinner]
  rfl

end UtilityCss
