import LiveArith.Number.Binary64

/-! # Decimals — whole digits times a power of ten

    The exact form between text and binary64: text is read into a `Decimal` and
    written from one, and only `magnitude` rounds. -/

namespace LiveArith

/-- The number `digits · 10 ^ exponent`. -/
structure Decimal where
  digits : Nat
  exponent : Int
deriving DecidableEq, Repr

namespace Decimal

/-- The binary64 magnitude nearest to the number. -/
def magnitude (d : Decimal) : Nat :=
  Binary64.nearest (d.digits * Nat.pow 10 d.exponent.toNat * Binary64.one)
    (Nat.pow 10 (-d.exponent).toNat)

/-- The digits without leading zeros, the most significant first; zero has one digit. -/
def figures (d : Decimal) : List Char := Nat.toDigits 10 d.digits

/-- The power of ten of the first figure. -/
def lead (d : Decimal) : Int := d.exponent + (d.figures.length - 1 : Nat)

/-- A count of digits cut `places` from the right, with at least one digit before the cut. -/
def cut (figures : List Char) (places : Nat) : List Char × List Char :=
  let padded := List.replicate (places + 1 - figures.length) '0' ++ figures
  padded.splitAt (padded.length - places)

/-- Positional notation: no exponent, a digit before the point and, if there is a point,
    a digit after it. -/
def positional (d : Decimal) : List Char :=
  if 0 ≤ d.exponent then d.figures ++ List.replicate d.exponent.toNat '0'
  else
    let (whole, fraction) := cut d.figures (-d.exponent).toNat
    whole ++ '.' :: fraction

/-- Exponent notation: one figure before the point, no point if there is no other, and
    the power of ten after an `e`. -/
def scientific (d : Decimal) : List Char :=
  let fraction := match d.figures.tail with
    | [] => []
    | rest => '.' :: rest
  d.figures.take 1 ++ fraction ++ 'e' :: (toString d.lead).toList

/-- The number is whole as written: no figure stands after the point. -/
def isWhole (d : Decimal) : Bool := 0 ≤ d.exponent

end Decimal

end LiveArith
