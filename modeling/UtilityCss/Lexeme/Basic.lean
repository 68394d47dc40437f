import UtilityCss.Lexeme.Scan

/-!
Lexemes of stylesheet text. A lexeme keeps the text it was read from, so the texts of all lexemes
put together are the input. They stand for the tokens of the `cssparser` library; of its kinds of
tokens, only the distinctions that the reader of rules makes are kept.
-/
namespace UtilityCss

inductive Bracket where
  | round
  | square
  | curly
  deriving DecidableEq, Repr

namespace Lexeme

inductive Kind where
  | space
  | comment (body : String)
  | colon
  | semicolon
  | atKeyword (name : String)
  /-- an opening bracket, or a function's name with its parenthesis -/
  | opening (bracket : Bracket)
  | closing (bracket : Bracket)
  | other
  deriving DecidableEq, Repr

end Lexeme

structure Lexeme where
  kind : Lexeme.Kind
  text : String
  deriving DecidableEq, Repr

/-- A place in the text. Columns count 16-bit units. -/
structure Location where
  line : Nat := 1
  column : Nat := 1
  deriving DecidableEq, Repr

/-- The place behind some text. A carriage return and a line feed together end one line. -/
def Location.advance (place : Location) : List Char → Location
  | [] => place
  | c :: cs =>
    if c = '\r' ∧ cs.head? = some '\n' then place.advance cs
    else if Text.isNewline c then Location.advance ⟨place.line + 1, 1⟩ cs
    else Location.advance ⟨place.line, place.column + (if 0x10000 ≤ c.toNat then 2 else 1)⟩ cs

namespace Lexeme

open Text

def scanName (cs : List Char) : Kind × Nat :=
  let n := nameLength cs
  match cs.drop n with
  | '(' :: rest =>
    if lower (String.ofList (decodeName .plain (cs.take n))) = "url" then
      if (rest.dropWhile isSpace).head?.any fun c => c == '"' || c == '\'' then
        (.opening .round, n + 1)
      else (.other, n + 1 + reach urlStep .lead rest)
    else (.opening .round, n + 1)
  | _ => (.other, n)

/-- The text of a comment between its marks; the closing one may be missing. -/
def commentBody (cs : List Char) : String :=
  let inner := String.ofList (cs.drop 2)
  (stripEnd? "*/" inner).getD inner

def scan (c : Char) (cs : List Char) : Kind × Nat :=
  let all := c :: cs
  match c with
  | '"' => (.other, 1 + reach (stringStep '"') (some .plain) cs)
  | '\'' => (.other, 1 + reach (stringStep '\'') (some .plain) cs)
  | '(' => (.opening .round, 1)
  | ')' => (.closing .round, 1)
  | '[' => (.opening .square, 1)
  | ']' => (.closing .square, 1)
  | '\x7b' => (.opening .curly, 1)
  | '\x7d' => (.closing .curly, 1)
  | ':' => (.colon, 1)
  | ';' => (.semicolon, 1)
  | '#' =>
    if startsName cs || cs.head?.any (fun d => d.isDigit || d == '-') then
      (.other, 1 + nameLength cs)
    else (.other, 1)
  | '@' =>
    if startsName cs then
      let n := nameLength cs
      (.atKeyword (String.ofList (decodeName .plain (cs.take n))), 1 + n)
    else (.other, 1)
  | '/' =>
    match cs with
    | '*' :: rest =>
      let n := 2 + reach commentStep .body rest
      (.comment (commentBody (all.take n)), n)
    | _ => (.other, 1)
  | '<' => (.other, if ['!', '-', '-'].isPrefixOf cs then 4 else 1)
  | _ =>
    if isSpace c then (.space, (all.takeWhile isSpace).length)
    else if startsNumber all then (.other, numberLength all)
    else if c = '-' ∧ ['-', '>'].isPrefixOf cs then (.other, 3)
    else if startsName all then scanName all
    else if ['$', '*', '^', '|', '~'].contains c && cs.head? == some '=' then (.other, 2)
    else (.other, 1)

end Lexeme

def lex : List Char → List Lexeme
  | [] => []
  | c :: cs =>
    let scanned := Lexeme.scan c cs
    ⟨scanned.1, String.ofList (c :: cs.take (scanned.2 - 1))⟩ :: lex (cs.drop (scanned.2 - 1))
termination_by cs => cs.length

end UtilityCss
