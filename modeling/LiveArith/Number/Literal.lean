import LiveArith.Number.Decimal

/-! # Literals — runs of digits and dots as numbers

    A number in a formula is a maximal run of the digits 0–9 and the dot.  It has
    no sign and no exponent, so its value is never negative and never a NaN; a
    value beyond the finite ones reads as infinity. -/

namespace LiveArith.Literal

/-- The character belongs to a run. -/
def isFigure (c : Char) : Bool := c.isDigit || c == '.'

/-- A run is a number if it has at least one digit and at most one dot. -/
def isValid (run : List Char) : Bool := run.any Char.isDigit && run.count '.' ≤ 1

/-- The decimal that a valid run writes. -/
def decimal (run : List Char) : Decimal :=
  ⟨Nat.ofDigitChars 10 (run.filter Char.isDigit) 0,
    -(((run.dropWhile (· != '.')).length - 1 : Nat) : Int)⟩

/-- The value of a run, if it is a number: the binary64 value nearest to its decimal. -/
def read? (run : List Char) : Option Float :=
  if isValid run then some (Binary64.toFloat (decimal run).magnitude) else none

end LiveArith.Literal
