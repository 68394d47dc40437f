import UtilityCss.Text.Basic

/-!
Identifiers in stylesheets: `escape` writes any text as an identifier, `unescape` reads backslash
escapes back.
-/
namespace UtilityCss.Text

def replacement : Char := '\ufffd'

def isHexDigit (c : Char) : Bool :=
  ('0' ≤ c && c ≤ '9') || ('a' ≤ c && c ≤ 'f') || ('A' ≤ c && c ≤ 'F')

def hexValue (c : Char) : Nat :=
  if c.isDigit then c.toNat - '0'.toNat
  else if 'a' ≤ c then c.toNat - 'a'.toNat + 10
  else c.toNat - 'A'.toNat + 10

def hexNumber (ds : List Char) : Nat :=
  ds.foldl (fun n d => 16 * n + hexValue d) 0

def charOfCode (n : Nat) : Char :=
  if n.isValidChar then Char.ofNat n else replacement

/-- A character written by its code, with the space that ends the digits. -/
def escapeCode (c : Char) : List Char :=
  '\\' :: (Nat.toDigits 16 c.toNat ++ [' '])

def isControl (c : Char) : Bool :=
  (1 ≤ c.toNat && c.toNat ≤ 0x1F) || c.toNat == 0x7F

def isIdentChar (c : Char) : Bool :=
  0x80 ≤ c.toNat || c == '-' || c == '_' || c.isAlphanum

def escapeChar (c : Char) : List Char :=
  if c.toNat = 0 then [replacement]
  else if isControl c then escapeCode c
  else if isIdentChar c then [c]
  else ['\\', c]

/-- At the head of an identifier a digit is written by its code. -/
def escapeHead (c : Char) : List Char :=
  if c.isDigit then escapeCode c else escapeChar c

def escapeChars : List Char → List Char
  | [] => []
  | ['-'] => ['\\', '-']
  | '-' :: c :: cs => '-' :: (escapeHead c ++ cs.flatMap escapeChar)
  | c :: cs => escapeHead c ++ cs.flatMap escapeChar

def escape (s : String) : String :=
  String.ofList (escapeChars s.toList)

/-- Read escapes. `pending` holds the hexadecimal digits since an unfinished backslash; at most six
belong to it, and one space after them is dropped. A backslash before any other character stands for
that character. -/
def unescapeFrom : Option (List Char) → List Char → List Char
  | none, [] => []
  | some [], [] => []
  | some ds, [] => [charOfCode (hexNumber ds)]
  | none, c :: cs => if c = '\\' then unescapeFrom (some []) cs else c :: unescapeFrom none cs
  | some ds, c :: cs =>
    if isHexDigit c && ds.length < 6 then unescapeFrom (some (ds ++ [c])) cs
    else if ds.isEmpty then c :: unescapeFrom none cs
    else
      charOfCode (hexNumber ds) ::
        (if c = ' ' then unescapeFrom none cs
        else if c = '\\' then unescapeFrom (some []) cs
        else c :: unescapeFrom none cs)

def unescape (s : String) : String :=
  String.ofList (unescapeFrom none s.toList)

end UtilityCss.Text
