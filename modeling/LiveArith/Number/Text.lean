import LiveArith.Number.Shortest

/-! # Number text — how values are written

    Two styles write the shortest digits that read back: `plain` for messages and
    display, `described` for structural descriptions.  A `Layout` adds what a
    display may ask for: a width, a number of places, a plus sign, an alignment. -/

namespace LiveArith.NumberText

/-- How the shortest digits of a finite value are set. -/
structure Style where
  /-- What follows the digits of a whole number in positional notation. -/
  wholeTail : String
  /-- The powers of ten of the first figure for which notation is positional, least and
      greatest; `none` if it always is. -/
  positional : Option (Int × Int)

/-- Never an exponent, and no point in a whole number. -/
def plain : Style := ⟨"", none⟩

/-- A whole number ends in `.0`; exponents below 10⁻⁴ and from 10¹⁶ on. -/
def described : Style := ⟨".0", some (-4, 15)⟩

namespace Style

/-- The style writes this decimal without an exponent. -/
def isPositional (s : Style) (d : Decimal) : Bool :=
  match s.positional with
  | none => true
  | some (least, greatest) => least ≤ d.lead && d.lead ≤ greatest

/-- The text of a decimal. -/
def write (s : Style) (d : Decimal) : String :=
  if s.isPositional d then
    String.ofList d.positional ++ (if d.isWhole then s.wholeTail else "")
  else String.ofList d.scientific

end Style

/-- The text of an unsigned value: `finite` writes the finite patterns. -/
def unsigned (finite : Nat → String) (x : Float) : String :=
  let b := Binary64.magnitude x
  if b < Binary64.infinity then finite b
  else if b = Binary64.infinity then "inf"
  else "NaN"

/-- The sign of a value: a minus where the sign bit is set, also on zero, else `positive`;
    a NaN has no sign. -/
def sign (positive : String) (x : Float) : String :=
  if Binary64.infinity < Binary64.magnitude x then ""
  else if Binary64.isNegative x then "-"
  else positive

/-- The text of a value in a style. -/
def render (s : Style) (x : Float) : String :=
  sign "" x ++ unsigned (fun b => s.write (Decimal.shortest b)) x

/-- On which side of its field a text stands. -/
inductive Align where
  | left
  | right
  | center
deriving DecidableEq, Repr

/-- What a display may ask for. -/
structure Layout where
  /-- The least number of characters. -/
  width : Nat := 0
  /-- The exact number of digits after the point; the shortest digits if `none`. -/
  places : Option Nat := none
  /-- Values without a minus sign get a plus sign. -/
  plus : Bool := false
  align : Align := .right
deriving DecidableEq, Repr

/-- Spaces about a text up to a width; of an odd number the greater part goes right of a
    centered text. -/
def pad (width : Nat) (align : Align) (text : String) : String :=
  let room := width - text.length
  let before := match align with
    | .left => 0
    | .right => room
    | .center => room / 2
  String.ofList (List.replicate before ' ') ++ text ++
    String.ofList (List.replicate (room - before) ' ')

/-- The text of a value in a layout. -/
def display (l : Layout) (x : Float) : String :=
  let finite (b : Nat) : String :=
    match l.places with
    | none => plain.write (Decimal.shortest b)
    | some n => plain.write (Decimal.fixed b n)
  pad l.width l.align (sign (if l.plus then "+" else "") x ++ unsigned finite x)

end LiveArith.NumberText
