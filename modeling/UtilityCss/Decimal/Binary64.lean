import UtilityCss.Text.Basic

/-!
Double-precision numbers in exact arithmetic. A finite number is `m * 2^q` with a sign, where
`m < 2^53`, `-1074 ≤ q ≤ 971`, and `2^52 ≤ m` unless `q = -1074`.
-/
namespace UtilityCss.Decimal

inductive Binary64 where
  | finite (negative : Bool) (m : Nat) (q : Int)
  | infinite (negative : Bool)
  | nan
  deriving DecidableEq, Repr

def pow2 (n : Nat) : Nat :=
  Nat.pow 2 n

def pow10 (n : Nat) : Nat :=
  Nat.pow 10 n

/-- A quotient rounded to the nearest whole number, an exact half to the even neighbour. -/
def roundDiv (num den : Nat) : Nat :=
  let n := num / den
  let r := num % den
  if 2 * r < den then n
  else if den < 2 * r then n + 1
  else if n % 2 = 0 then n else n + 1

def scaled (num den : Nat) (q : Int) : Nat × Nat :=
  (num * pow2 (-q).toNat, den * pow2 q.toNat)

namespace Binary64

/-- The number nearest to `num / den`. The quotient has 52 or 53 bits at the first exponent tried.
-/
def ofRatio (negative : Bool) (num den : Nat) : Binary64 :=
  if num = 0 then .finite negative 0 (-1074)
  else
    let guess : Int := (num.log2 : Int) - (den.log2 : Int) - 52
    let rough := scaled num den guess
    let q := max (if rough.1 / rough.2 < pow2 52 then guess - 1 else guess) (-1074)
    let fine := scaled num den q
    let m := roundDiv fine.1 fine.2
    let carried := m == pow2 53
    let q := if carried then q + 1 else q
    if 971 < q then .infinite negative
    else .finite negative (if carried then pow2 52 else m) q

/-- The number nearest to `digits * 10^exp`. Far outside the range the power is not computed. -/
def ofDecimal (negative : Bool) (digits : Nat) (exp : Int) : Binary64 :=
  let top : Int := (Nat.toDigits 10 digits).length + exp
  if digits = 0 ∨ top < -400 then .finite negative 0 (-1074)
  else if 400 < top then .infinite negative
  else ofRatio negative (digits * pow10 exp.toNat) (pow10 (-exp).toNat)

def ofBits (bits : UInt64) : Binary64 :=
  let n : Nat := bits.toNat
  let negative := n / pow2 63 == 1
  let e : Nat := n / pow2 52 % pow2 11
  let f : Nat := n % pow2 52
  if e = 2047 then (if f = 0 then .infinite negative else .nan)
  else if e = 0 then .finite negative f (-1074)
  else .finite negative (pow2 52 + f) ((e : Int) - 1075)

def timesNat (x : Binary64) (k : Nat) : Binary64 :=
  match x with
  | .finite negative m q =>
    let parts := scaled (m * k) 1 (-q)
    ofRatio negative parts.1 parts.2
  | .infinite negative => if k = 0 then .nan else .infinite negative
  | .nan => .nan

def isWhole : Binary64 → Bool
  | .finite _ m q => m % pow2 (-q).toNat == 0
  | _ => false

/-- Whether `0 ≤ x ≤ k`; a negative zero is zero. -/
def isBetweenZeroAnd (k : Nat) : Binary64 → Bool
  | .finite negative m q =>
    (!negative || m == 0) && decide (m * pow2 q.toNat ≤ k * pow2 (-q).toNat)
  | _ => false

end Binary64

def digitsValue (ds : List Char) : Nat :=
  ds.foldl (fun n d => 10 * n + (d.toNat - '0'.toNat)) 0

def readExponent? (cs : List Char) : Option Int :=
  let (negative, ds) : Bool × List Char := match cs with
    | '-' :: r => (true, r)
    | '+' :: r => (false, r)
    | _ => (false, cs)
  if ds.isEmpty || !ds.all Char.isDigit then none
  else some (if negative then -(digitsValue ds : Int) else digitsValue ds)

def readDecimal? (cs : List Char) : Option (Nat × Int) :=
  let whole := cs.takeWhile Char.isDigit
  let (fraction, rest) : List Char × List Char := match cs.dropWhile Char.isDigit with
    | '.' :: r => (r.takeWhile Char.isDigit, r.dropWhile Char.isDigit)
    | r => ([], r)
  let digits := digitsValue (whole ++ fraction)
  if whole.isEmpty && fraction.isEmpty then none
  else match rest with
    | [] => some (digits, -(fraction.length : Int))
    | e :: r =>
      if e = 'e' ∨ e = 'E' then (readExponent? r).map fun n => (digits, n - fraction.length)
      else none

/-- Read a number: an optional sign, then a decimal or one of the words `inf`, `infinity` and `nan`
in any case. -/
def Binary64.ofText? (s : String) : Option Binary64 :=
  let (negative, cs) : Bool × List Char := match s.toList with
    | '-' :: r => (true, r)
    | '+' :: r => (false, r)
    | cs => (false, cs)
  match readDecimal? cs with
  | some (digits, exp) => some (.ofDecimal negative digits exp)
  | none =>
    let word := Text.lower (String.ofList cs)
    if word = "inf" ∨ word = "infinity" then some (.infinite negative)
    else if word = "nan" then some .nan
    else none

end UtilityCss.Decimal
