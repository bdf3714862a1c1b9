import LiveArith.Number.Rounding

/-! # Binary64 magnitudes — bit patterns and the numbers they stand for

    The magnitude of a binary64 value is its bit pattern without the sign bit, a
    natural number.  The patterns below `infinity` stand for the finite
    magnitudes in increasing order, each a whole number of units of 2⁻¹⁰⁷⁴.
    Everything here is exact arithmetic on natural numbers. -/

namespace LiveArith.Binary64

/-- The pattern of infinity; a greater pattern is a NaN. -/
def infinity : Nat := 0x7FF0000000000000

/-- The patterns of one binade: 2⁵². -/
def binade : Nat := 0x10000000000000

/-- The pattern of the sign bit alone: 2⁶³. -/
def signBit : Nat := 0x8000000000000000

/-- The magnitude of a pattern, in units of 2⁻¹⁰⁷⁴. -/
def units (b : Nat) : Nat :=
  if b / binade = 0 then b else (binade + b % binade) * Nat.pow 2 (b / binade - 1)

/-- The number of units in a whole one. -/
def one : Nat := Nat.pow 2 1074

/-- The pattern nearest to `num / den` units, a half going to the even pattern, and
    `infinity` for what lies beyond the finite magnitudes.

    From 2⁵³ units on, the patterns of one binade stand 2ᵏ units apart; the quotient
    counts those steps, and a count that reaches 2⁵³ is the first pattern of the next
    binade. -/
def nearest (num den : Nat) : Nat :=
  let k := (num / den).log2 - 52
  min (k * binade + Rounding.halfEven num (den * Nat.pow 2 k)) infinity

/-- The value of a pattern with a clear sign bit. -/
def toFloat (b : Nat) : Float := Float.ofBits (UInt64.ofNat b)

/-- The pattern of a value without its sign bit. -/
def magnitude (x : Float) : Nat := x.toBits.toNat % signBit

/-- The sign bit of a value is set. -/
def isNegative (x : Float) : Bool := signBit ≤ x.toBits.toNat

end LiveArith.Binary64
