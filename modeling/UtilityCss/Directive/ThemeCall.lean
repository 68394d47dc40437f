import UtilityCss.Error
import UtilityCss.Node.Basic
import UtilityCss.Remaining
import UtilityCss.Utility.Color

/-!
Calls of the form `theme(path / opacity, fallback)` in values and in the params of conditional
at-rules. A theme value may hold such calls itself, and one that leads back to itself has no
expansion: the compiler recurses until its stack is full. A function cannot say that, so the keys
that are being expanded are kept, and one of them met again is answered with
`Error.circularThemeCall`. That error stands for the recursion without an end and for nothing else;
`Theme.circular_iff_not_acc` proves so for every theme.
-/
namespace UtilityCss

def pathSpaces : List (String × String) :=
  [("colors", "--color"), ("screens", "--breakpoint"), ("spacing", "--spacing"),
    ("fontSize", "--text"), ("fontFamily", "--font"), ("fontWeight", "--font-weight"),
    ("lineHeight", "--leading"), ("letterSpacing", "--tracking"), ("borderRadius", "--radius"),
    ("boxShadow", "--shadow"), ("animation", "--animate"), ("opacity", "--opacity")]

/-- The key that a path names: a variable, or a dotted path such as `colors.red.500`. -/
def Theme.pathKey? (t : Theme) (path : String) : Option String :=
  if Text.startsWith "--" path then (if t.contains path then some path else none)
  else
    let (head, tail) : String × Option String :=
      match Text.splitOnce? '.' path with
      | some (head, tail) => (head, some tail)
      | none => (path, none)
    let space := (pathSpaces.lookup head).getD ("--" ++ head)
    t.keyFor? (tail.map (Text.replaceChar '.' "-")) [space]

def Theme.path? (t : Theme) (path : String) : Option String :=
  (t.pathKey? path).bind t.get?

namespace ThemeCall

def isNamePart (c : Char) : Bool :=
  c.isAlphanum || c == '-' || c == '_'

def opening : List Char := ['t', 'h', 'e', 'm', 'e', '(']

/-- The text before the first call and the text behind its opening. `inName` says whether the
character before the text is part of a name. -/
def find? (inName : Bool) : List Char → Option (List Char × List Char)
  | [] => none
  | c :: cs =>
    if !inName && opening.isPrefixOf (c :: cs) then some ([], cs.drop (opening.length - 1))
    else (find? (isNamePart c) cs).map fun (before, behind) => (c :: before, behind)

/-- Split at the parenthesis that closes the call; parentheses inside quotes do not count. -/
def close? (depth : Nat) (quote : Option Char) : List Char → Option (List Char × List Char)
  | [] => none
  | c :: cs =>
    if quote.isNone && c == ')' && depth == 0 then some ([], cs)
    else
      let depth := if quote.isSome then depth
        else if c = '(' then depth + 1
        else if c = ')' then depth - 1
        else depth
      let quote := match quote with
        | some q => if c = q then none else some q
        | none => if c = '"' ∨ c = '\'' then some c else none
      (close? depth quote cs).map fun (inside, behind) => (c :: inside, behind)

end ThemeCall

structure ThemeCall where
  before : List Char
  /-- what stands between the parentheses -/
  arguments : List Char
  path : String
  alpha : Option String
  fallback : Option String
  rest : List Char

namespace ThemeCall

/-- Read the arguments of a call. What follows the first comma is the fallback; one slash in the
path sets off an opacity. -/
def ofArguments (before arguments rest : List Char) : ThemeCall :=
  let parts := Text.segments ',' arguments
  let first := parts.headD []
  let (path, fallback) : String × Option String :=
    if parts.length ≤ 1 then (Text.trim (String.ofList arguments), none)
    else
      (Text.trim (String.ofList first),
        some (Text.trim (String.ofList (arguments.drop (first.length + 1)))))
  let (path, alpha) : String × Option String :=
    match Text.segment '/' path with
    | [path, alpha] => (Text.trim path, some (Text.trim alpha))
    | _ => (path, none)
  { before, arguments, path := (Text.unquote? path).getD path, alpha, fallback, rest }

inductive Next where
  | plain
  /-- a call that is not closed, and the text before it -/
  | unclosed (before : List Char)
  | call (c : ThemeCall)

def next (cs : List Char) : Next :=
  match find? false cs with
  | none => .plain
  | some (before, behind) =>
    match close? 0 none behind with
    | none => .unclosed before
    | some (arguments, rest) => .call (ofArguments before arguments rest)

def withOpacity (call : ThemeCall) (value : List Char) : List Char :=
  match call.alpha with
  | some alpha => (withAlpha (String.ofList value) alpha).toList
  | none => value

theorem length_of_find? {inName : Bool} {cs before behind : List Char}
    (h : find? inName cs = some (before, behind)) : behind.length < cs.length := by
  induction cs generalizing inName before behind with
  | nil => simp [find?] at h
  | cons c cs ih =>
    unfold find? at h
    split at h
    · simp only [Option.some.injEq, Prod.mk.injEq] at h
      simp only [← h.2, List.length_drop, List.length_cons]
      omega
    · obtain ⟨⟨b, r⟩, hfind, heq⟩ := Option.map_eq_some_iff.1 h
      simp only [Prod.mk.injEq] at heq
      rw [← heq.2]
      exact Nat.lt_succ_of_lt (ih hfind)

theorem length_of_close? {depth : Nat} {quote : Option Char} {cs inside behind : List Char}
    (h : close? depth quote cs = some (inside, behind)) :
    inside.length + behind.length < cs.length := by
  induction cs generalizing depth quote inside behind with
  | nil => simp [close?] at h
  | cons c cs ih =>
    unfold close? at h
    split at h
    · simp only [Option.some.injEq, Prod.mk.injEq] at h
      simp [← h.1, ← h.2]
    · obtain ⟨⟨i, b⟩, hclose, heq⟩ := Option.map_eq_some_iff.1 h
      simp only [Prod.mk.injEq] at heq
      have hlt := ih hclose
      simp only [← heq.1, ← heq.2, List.length_cons]
      omega

theorem length_of_fallback {before arguments rest : List Char} {fallback : String}
    (h : (ofArguments before arguments rest).fallback = some fallback) :
    fallback.toList.length ≤ arguments.length := by
  unfold ofArguments at h
  dsimp only at h
  split at h
  · simp at h
  · obtain rfl := Option.some.inj h
    refine Nat.le_trans (Text.length_trim_le _) ?_
    simp

theorem length_of_next {cs : List Char} {c : ThemeCall} (h : next cs = .call c) :
    c.rest.length < cs.length ∧
      ∀ fallback, c.fallback = some fallback → fallback.toList.length < cs.length := by
  unfold next at h
  split at h
  · simp at h
  · next before behind hfind =>
    split at h
    · simp at h
    · next arguments rest hclose =>
      obtain rfl := Next.call.inj h
      have h₁ := length_of_find? hfind
      have h₂ := length_of_close? hclose
      refine ⟨show rest.length < cs.length by omega, fun fallback hf => ?_⟩
      have h₃ := length_of_fallback hf
      omega

end ThemeCall

def Theme.unexpanded (t : Theme) (chain : List String) : Nat :=
  (t.entries.filter fun entry => !chain.contains entry.1).length

theorem Theme.exists_mem_of_pathKey? {t : Theme} {path key : String}
    (h : t.pathKey? path = some key) : ∃ entry, (key, entry) ∈ t.entries := by
  have hcontains : t.contains key = true := by
    unfold Theme.pathKey? at h
    split at h
    · split at h
      · obtain rfl := Option.some.inj h
        assumption
      · simp at h
    · exact List.find?_some h
  obtain ⟨entry, hentry⟩ := Option.isSome_iff_exists.1 hcontains
  obtain ⟨l₁, l₂, heq, _⟩ := List.lookup_eq_some_iff.1 hentry
  exact ⟨entry, heq ▸ by simp⟩

theorem Theme.unexpanded_lt {t : Theme} {chain : List String} {path key : String}
    (h : t.pathKey? path = some key) (hnew : chain.contains key = false) :
    t.unexpanded (key :: chain) < t.unexpanded chain := by
  obtain ⟨entry, hmem⟩ := t.exists_mem_of_pathKey? h
  refine length_filter_lt (fun x _ hx => ?_) hmem ?_ ?_
  · simp only [List.contains_cons, Bool.not_or, Bool.and_eq_true] at hx
    exact hx.2
  · simpa using hnew
  · simp

/-- Expand all calls in a text. `chain` holds the keys whose values are being expanded; it changes
no result (`Theme.expands_iff`). Behind a call that is not closed nothing is expanded, and the text
before it is written twice. -/
def Theme.expandCalls (t : Theme) (chain : List String) (cs : List Char) :
    Except Error (List Char) :=
  match _ : ThemeCall.next cs with
  | .plain => .ok cs
  | .unclosed before => .ok (before ++ cs)
  | .call c => do
    let value ← show Except Error (List Char) from
      match _ : t.pathKey? c.path with
      | some key =>
        if _ : chain.contains key then .error (.circularThemeCall key)
        else (t.expandCalls (key :: chain) ((t.get? key).getD "").toList).map c.withOpacity
      | none =>
        match _ : c.fallback with
        | some fallback => t.expandCalls chain fallback.toList
        | none => .error (.unresolvedThemeCall (Text.trim (String.ofList c.arguments)))
    let others ← t.expandCalls chain c.rest
    return c.before ++ value ++ others
termination_by (t.unexpanded chain, cs.length)
decreasing_by
  · exact Prod.Lex.left _ _
      (Theme.unexpanded_lt ‹t.pathKey? c.path = some key›
        (by simpa using ‹¬chain.contains key = true›))
  · exact Prod.Lex.right _
      ((ThemeCall.length_of_next ‹ThemeCall.next cs = .call c›).2 fallback
        ‹c.fallback = some fallback›)
  · exact Prod.Lex.right _ (ThemeCall.length_of_next ‹ThemeCall.next cs = .call c›).1

def Theme.expandText (t : Theme) (s : String) : Except Error String :=
  (t.expandCalls [] s.toList).map String.ofList

theorem Theme.expandText_of_plain {t : Theme} {s : String}
    (h : ThemeCall.find? false s.toList = none) : t.expandText s = .ok s := by
  have hnext : ThemeCall.next s.toList = .plain := by rw [ThemeCall.next, h]
  rw [Theme.expandText, Theme.expandCalls, hnext]
  simp [Except.map]

def callAtRules : List String :=
  ["media", "custom-media", "container", "supports"]

mutual

def Node.expandCalls (t : Theme) : Node → Except Error Node
  | .declaration property none important => .ok (.declaration property none important)
  | .declaration property (some value) important => do
    let value ← t.expandText value
    return .declaration property (some value) important
  | .atRule name params nodes => do
    let params ← if callAtRules.contains name then t.expandText params else .ok params
    let nodes ← expandAllCalls t nodes
    return .atRule name params nodes
  | .rule selector nodes => (expandAllCalls t nodes).map (.rule selector)
  | .context entries nodes => (expandAllCalls t nodes).map (.context entries)
  | .atRoot nodes => (expandAllCalls t nodes).map .atRoot
  | .comment text => .ok (.comment text)

def expandAllCalls (t : Theme) : List Node → Except Error (List Node)
  | [] => .ok []
  | n :: ns => do
    let n ← n.expandCalls t
    let ns ← expandAllCalls t ns
    return n :: ns

end

end UtilityCss
