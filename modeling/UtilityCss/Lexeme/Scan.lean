import UtilityCss.Text.Ident

/-!
How far a lexeme reaches. Each automaton takes its state, a character and the character after it,
and answers with the next state, or with `none` if the character is not part of the lexeme.

The scanner stands for the tokenizer of the `cssparser` library, which the compiler reads
stylesheets with, and follows it where it departs from the standard: behind a hyphen, a backslash
begins a name even if a line ends behind the backslash.
-/
namespace UtilityCss.Lexeme

open Text

def reach {σ : Type} (step : σ → Char → Option Char → Option σ) : σ → List Char → Nat
  | _, [] => 0
  | s, c :: cs =>
    match step s c cs.head? with
    | none => 0
    | some s' => reach step s' cs + 1

theorem reach_le_length {σ : Type} (step : σ → Char → Option Char → Option σ) (s : σ)
    (cs : List Char) : reach step s cs ≤ cs.length := by
  induction cs generalizing s with
  | nil => simp [reach]
  | cons c cs ih =>
    unfold reach
    split
    · simp
    · simp [ih]

def isNameStart (c : Char) : Bool :=
  c.isAlpha || c == '_' || c.toNat == 0 || 0x80 ≤ c.toNat

def isNameChar (c : Char) : Bool :=
  isNameStart c || c.isDigit || c == '-'

/-- Whether a name begins here. A backslash begins one unless a line ends behind it; behind a hyphen
any backslash does, as in `cssparser`. -/
def startsName : List Char → Bool
  | [] => false
  | '-' :: [] => false
  | '-' :: d :: _ => isNameStart d || d == '-' || d == '\\'
  | '\\' :: rest => !rest.head?.any isNewline
  | c :: _ => isNameStart c

inductive Escape where
  /-- outside of an escape -/
  | plain
  /-- behind the backslash -/
  | slash
  /-- behind a hexadecimal digit, with this many more to come at most -/
  | hex (left : Nat)
  /-- inside a line end of two characters -/
  | feed
  deriving DecidableEq, Repr

def Escape.afterNewline (c : Char) (next : Option Char) : Escape :=
  if c = '\r' ∧ next = some '\n' then .feed else .plain

def Escape.afterEscaped (c : Char) : Escape :=
  if isHexDigit c then .hex 5 else .plain

/-- One step of an escape, or `other` for a character that does not belong to it. One white space
behind hexadecimal digits still does. -/
def Escape.step {σ : Type} (inside : Escape → σ) (e : Escape) (c : Char) (next : Option Char)
    (other : Option σ) : Option σ :=
  match e with
  | .plain => other
  | .slash => some (inside (.afterEscaped c))
  | .feed => some (inside .plain)
  | .hex left =>
    if isHexDigit c && 0 < left then some (inside (.hex (left - 1)))
    else if c = ' ' ∨ c = '\t' then some (inside .plain)
    else if isNewline c then some (inside (.afterNewline c next))
    else other

def nameStep (e : Escape) (c : Char) (next : Option Char) : Option Escape :=
  e.step id c next
    (if isNameChar c then some .plain
    else if c = '\\' ∧ !next.any isNewline then some .slash
    else none)

def nameLength (cs : List Char) : Nat :=
  reach nameStep .plain cs

inductive Decoding where
  | plain
  /-- behind a backslash and these hexadecimal digits -/
  | escape (digits : List Char)
  /-- behind a carriage return that ended an escape -/
  | feed

def escapedChar (digits : List Char) : Char :=
  if hexNumber digits = 0 then replacement else charOfCode (hexNumber digits)

/-- What one character outside of an escape adds. The null character cannot stand in a name. -/
def decodePlain (c : Char) : List Char × Decoding :=
  if c = '\\' then ([], .escape [])
  else ([if c.toNat = 0 then replacement else c], .plain)

def decodeStep (s : Decoding) (c : Char) : List Char × Decoding :=
  match s with
  | .plain => decodePlain c
  | .feed => if c = '\n' then ([], .plain) else decodePlain c
  | .escape digits =>
    if isHexDigit c && digits.length < 6 then ([], .escape (digits ++ [c]))
    else if digits.isEmpty then ([if c.toNat = 0 then replacement else c], .plain)
    else if c = '\r' then ([escapedChar digits], .feed)
    else if isSpace c then ([escapedChar digits], .plain)
    else (escapedChar digits :: (decodePlain c).1, (decodePlain c).2)

def decodeName : Decoding → List Char → List Char
  | .escape digits, [] => [escapedChar digits]
  | _, [] => []
  | s, c :: cs => (decodeStep s c).1 ++ decodeName (decodeStep s c).2 cs

/-- Inside a string, or behind its closing quote (`none`). A line end ends it unless it is escaped.
-/
def stringStep (quote : Char) (state : Option Escape) (c : Char) (next : Option Char) :
    Option (Option Escape) :=
  state.bind fun e =>
    if e = .slash ∧ isNewline c then some (some (.afterNewline c next))
    else
      e.step some c next
        (if c = quote then some none
        else if isNewline c then none
        else if c = '\\' then some (some .slash)
        else some (some .plain))

inductive CommentState where
  | body
  | star
  | closed

def commentStep : CommentState → Char → Option Char → Option CommentState
  | .closed, _, _ => none
  | .star, '/', _ => some .closed
  | _, c, _ => some (if c = '*' then .star else .body)

inductive UrlState where
  | lead
  | body (e : Escape)
  | trail
  | bad
  | badSlash
  | closed

def isUnprintable (c : Char) : Bool :=
  let n := c.toNat
  (1 ≤ n && n ≤ 8) || n == 0x0B || (0x0E ≤ n && n ≤ 0x1F) || n == 0x7F

def urlBodyStep (c : Char) (next : Option Char) : UrlState :=
  if isSpace c then .trail
  else if c = ')' then .closed
  else if isUnprintable c || isQuote c || c == '(' then .bad
  else if c = '\\' then (if next.any isNewline then .bad else .body .slash)
  else .body .plain
where
  isQuote (c : Char) : Bool := c == '"' || c == '\''

/-- An address that breaks the rules is still read up to its closing parenthesis. -/
def urlStep (state : UrlState) (c : Char) (next : Option Char) : Option UrlState :=
  match state with
  | .closed => none
  | .lead => if isSpace c then some .lead else some (urlBodyStep c next)
  | .body e => e.step .body c next (some (urlBodyStep c next))
  | .trail => some (if c = ')' then .closed else if isSpace c then .trail else .bad)
  | .bad => some (if c = ')' then .closed else if c = '\\' then .badSlash else .bad)
  | .badSlash => some .bad

def numberLength (cs : List Char) : Nat :=
  let digits (cs : List Char) : Nat := (cs.takeWhile Char.isDigit).length
  let signed (cs : List Char) : Nat := if cs.head?.any (fun c => c == '+' || c == '-') then 1 else 0
  let whole := signed cs + digits (cs.drop (signed cs))
  let afterWhole := cs.drop whole
  let fraction :=
    if afterWhole.head? = some '.' ∧ 0 < digits (afterWhole.drop 1) then
      digits (afterWhole.drop 1) + 1 else 0
  let afterFraction := afterWhole.drop fraction
  let marked := afterFraction.head?.any fun c => c == 'e' || c == 'E'
  let power := signed (afterFraction.drop 1)
  let powerDigits := digits (afterFraction.drop (power + 1))
  let exponent := if marked ∧ 0 < powerDigits then powerDigits + power + 1 else 0
  let afterExponent := afterFraction.drop exponent
  let unit :=
    if afterExponent.head? = some '%' then 1
    else if startsName afterExponent then nameLength afterExponent
    else 0
  whole + fraction + exponent + unit

def startsNumber (cs : List Char) : Bool :=
  let unsigned := match cs with
    | '+' :: rest => rest
    | '-' :: rest => rest
    | _ => cs
  match unsigned with
  | '.' :: d :: _ => d.isDigit
  | d :: _ => d.isDigit
  | [] => false

end UtilityCss.Lexeme
