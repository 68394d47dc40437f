import UtilityCss.Text.Basic

/-!
The text inside square brackets of a class name. A class name holds no spaces, so an underscore
stands for one; operators inside math functions get the spaces that the stylesheet language asks
for.

Both passes are scans whose state holds the text written so far, last character first.
-/
namespace UtilityCss.Value

open Text

def mathFunctions : List String :=
  ["calc", "min", "max", "clamp", "mod", "rem", "sin", "cos", "tan", "asin", "acos",
    "atan", "atan2", "pow", "sqrt", "hypot", "log", "exp", "round"]

def scanAhead {σ : Type} (step : σ → Char → Option Char → σ) : σ → List Char → σ
  | s, [] => s
  | s, c :: cs => scanAhead step (step s c cs.head?) cs

def lastName (written : List Char) : String :=
  lower (String.ofList (written.takeWhile fun c => c.isAlphanum || c == '-').reverse)

inductive Underscores where
  /-- kept, in an address -/
  | address
  /-- kept, up to the first comma -/
  | variable
  | spaces
  deriving DecidableEq, Repr

structure UnderscoreScan where
  written : List Char := []
  /-- one for each open parenthesis, innermost first -/
  calls : List Underscores := []
  /-- the next character is written as it is -/
  escaped : Bool := false

namespace UnderscoreScan

def keeps (s : UnderscoreScan) : Bool :=
  match s.calls with
  | .address :: _ => true
  | .variable :: _ => true
  | _ => false

def callKind (written : List Char) : Underscores :=
  match lastName written with
  | "url" => .address
  | "var" => .variable
  | _ => .spaces

/-- A backslash keeps the next character, and goes itself if that is an underscore. -/
def step (s : UnderscoreScan) (c : Char) (next : Option Char) : UnderscoreScan :=
  let put (c : Char) : UnderscoreScan := { s with written := c :: s.written }
  if s.escaped then { put c with escaped := false }
  else match c with
    | '\\' => { (if next = some '_' then s else put c) with escaped := true }
    | '_' => put (if s.keeps then c else ' ')
    | '(' => { put c with calls := callKind s.written :: s.calls }
    | ')' => { put c with calls := s.calls.drop 1 }
    | ',' =>
      match s.calls with
      | .variable :: rest => { put c with calls := .spaces :: rest }
      | _ => put c
    | _ => put c

end UnderscoreScan

structure MathScan where
  written : List Char := []
  /-- for each open parenthesis, innermost first, whether operators are spaced inside -/
  calls : List Bool := []
  /-- blanks are passed over, behind an operator -/
  skipping : Bool := false

namespace MathScan

def inMath (s : MathScan) : Bool :=
  s.calls.headD false

/-- A parenthesis without a name is math if the one around it is. -/
def opensMath (s : MathScan) : Bool :=
  let name := lastName s.written
  mathFunctions.contains name || (name.isEmpty && s.inMath)

def isOperator (c : Char) : Bool :=
  c == '+' || c == '-' || c == '*' || c == '/'

/-- Whether an operator here joins two operands, by what has been written and what comes next. -/
def joins (s : MathScan) (next : Option Char) : Bool :=
  ((s.written.dropWhile isBlank).head?.any fun c =>
      c.isAlphanum || c == ')' || c == '%' || c == '.') &&
    next.any fun c => c != ')' && c != ','

def step (s : MathScan) (c : Char) (next : Option Char) : MathScan :=
  if s.skipping && isBlank c then s
  else if c = '(' then ⟨c :: s.written, s.opensMath :: s.calls, false⟩
  else if c = ')' then ⟨c :: s.written, s.calls.drop 1, false⟩
  else if isOperator c && s.inMath && s.joins next then
    ⟨' ' :: c :: ' ' :: s.written.dropWhile isBlank, s.calls, true⟩
  else ⟨c :: s.written, s.calls, false⟩

end MathScan

def spaceOperators (s : String) : String :=
  String.ofList (scanAhead MathScan.step {} s.toList).written.reverse

/-- Read underscores as spaces, where they are not part of an address or of a variable's name. -/
def readUnderscores (s : String) : String :=
  String.ofList (scanAhead UnderscoreScan.step {} s.toList).written.reverse

def isBareVariable (s : String) : Bool :=
  startsWith "--" s && !s.toList.any fun c => c == '(' || c == ' ' || c == ','

/-- The value that the text inside square brackets stands for. The bare name of a custom property
stands for a reference to it. -/
def decode (s : String) : String :=
  if isBareVariable s then "var(" ++ s ++ ")"
  else
    let read := readUnderscores s
    if hasChar '(' read then spaceOperators read else read

end UtilityCss.Value
