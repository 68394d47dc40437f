import UtilityCss.Decimal.Shortest

/-!
How a number's digits are laid out. A `Layout` holds the decisions of one output format.
-/
namespace UtilityCss.Decimal

structure Layout where
  /-- whether a number whose first digit counts `10^e` is written without an exponent -/
  positional : Int → Bool
  /-- whether a whole number is written with `.0` -/
  keepPoint : Bool
  tie : Tie

def zeros (n : Nat) : List Char :=
  List.replicate n '0'

def positionalText (layout : Layout) (d : Digits) : List Char :=
  let ds := Nat.toDigits 10 d.digits
  let first : Int := d.exp + ds.length - 1
  if 0 ≤ d.exp then ds ++ zeros d.exp.toNat ++ (if layout.keepPoint then ['.', '0'] else [])
  else if 0 ≤ first then ds.take (first.toNat + 1) ++ '.' :: ds.drop (first.toNat + 1)
  else '0' :: '.' :: (zeros (-first - 1).toNat ++ ds)

def exponentText (d : Digits) : List Char :=
  let ds := Nat.toDigits 10 d.digits
  let first : Int := d.exp + ds.length - 1
  let fraction := if ds.length ≤ 1 then [] else '.' :: ds.drop 1
  ds.take 1 ++ fraction ++ 'e' :: (if first < 0 then '-' else '+') :: Nat.toDigits 10 first.natAbs

def Binary64.render (layout : Layout) (x : Binary64) : String :=
  let signed (negative : Bool) (cs : List Char) : String :=
    String.ofList (if negative then '-' :: cs else cs)
  match x with
  | .nan => "NaN"
  | .infinite negative => signed negative "inf".toList
  | .finite negative m q =>
    if m = 0 then signed negative (positionalText layout ⟨0, 0⟩)
    else
      let d := shortest layout.tie m q
      let first : Int := d.exp + (Nat.toDigits 10 d.digits).length - 1
      signed negative (if layout.positional first then positionalText layout d else exponentText d)

end UtilityCss.Decimal
