import UtilityCss.Decimal.Binary64

/-!
The fewest decimal digits that read back to a number, and among those the nearest.
-/
namespace UtilityCss.Decimal

structure Digits where
  digits : Nat
  exp : Int
  deriving DecidableEq, Repr

/-- What to take when two decimals of the same length are equally near. -/
inductive Tie where
  | toEven
  | up
  deriving DecidableEq, Repr

def compareScaled (a : Nat) (i : Int) (n : Nat) (j : Int) : Ordering :=
  compare (a * pow10 i.toNat * pow2 (-j).toNat) (n * pow2 j.toNat * pow10 (-i).toNat)

/-- Whether `d` lies among the reals that round to `m * 2^q`: from half way to the number below to
half way to the number above, the ends included when `m` is even. -/
def readsBack (m : Nat) (q : Int) (d : Digits) : Bool :=
  let narrowBelow := m == pow2 52 && decide (-1074 < q)
  let low := if narrowBelow then 4 * m - 1 else 4 * m - 2
  let fromLow := compareScaled d.digits d.exp low (q - 2)
  let fromHigh := compareScaled d.digits d.exp (4 * m + 2) (q - 2)
  let ends := m % 2 == 0
  (fromLow == .gt || (ends && fromLow == .eq)) && (fromHigh == .lt || (ends && fromHigh == .eq))

def magnitudeFrom (m : Nat) (q : Int) : Nat → Int → Int
  | 0, k => k
  | steps + 1, k => if compareScaled 1 k m q == .gt then k else magnitudeFrom m q steps (k + 1)

/-- The least `k` with `m * 2^q < 10^k`. The start is below it by at most three. -/
def magnitude (m : Nat) (q : Int) : Int :=
  magnitudeFrom m q 5 (((m.log2 : Int) + q) * 30103 / 100000 - 1)

def nearestOnGrid? (tie : Tie) (m : Nat) (q exp : Int) : Option Digits :=
  let num := m * pow2 q.toNat * pow10 (-exp).toNat
  let den := pow2 (-q).toNat * pow10 exp.toNat
  let below : Digits := ⟨num / den, exp⟩
  let above : Digits := ⟨num / den + 1, exp⟩
  match readsBack m q below, readsBack m q above with
  | true, false => some below
  | false, true => some above
  | false, false => none
  | true, true =>
    match compare (2 * num) ((2 * (num / den) + 1) * den), tie with
    | .lt, _ => some below
    | .gt, _ => some above
    | .eq, .up => some above
    | .eq, .toEven => some (if num / den % 2 = 0 then below else above)

def Digits.stripZeros (d : Digits) : Digits :=
  if 0 < d.digits ∧ d.digits % 10 = 0 then Digits.stripZeros ⟨d.digits / 10, d.exp + 1⟩ else d
termination_by d.digits

def exactDigits (m : Nat) (q : Int) : Digits :=
  ⟨m * pow2 q.toNat * Nat.pow 5 (-q).toNat, min q 0⟩

/-- Digits of `m * 2^q` for `0 < m`: one digit is tried first, then two, and so on. -/
def shortest (tie : Tie) (m : Nat) (q : Int) : Digits :=
  let k := magnitude m q
  let found := (List.range 17).findSome? fun n => nearestOnGrid? tie m q (k - (n + 1 : Nat))
  (found.getD (exactDigits m q)).stripZeros

end UtilityCss.Decimal
