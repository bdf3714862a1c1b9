import LiveArith.Number.Decimal

/-! # Shortest decimals — digits on the coarsest grid that reads back

    A finite magnitude is an exact decimal with at most 1074 places.  Its grid at
    place `p` are the multiples of 10ᵖ of the last of these places.  The search
    goes from the coarsest grid to the finest, tries the two neighbours of the
    number on each and stops at the first that reads back as the same pattern;
    the finest grid holds the number itself, so the search always ends with a
    decimal that reads back. -/

namespace LiveArith.Decimal

/-- The decimal places that hold every finite magnitude exactly. -/
def exactPlaces : Nat := 1074

/-- A pattern's magnitude in units of 10⁻¹⁰⁷⁴. -/
def exactDigits (b : Nat) : Nat := Binary64.units b * Nat.pow 5 exactPlaces

/-- A multiple of the grid at place `p`. -/
def onGrid (digits p : Nat) : Decimal := ⟨digits, (p : Int) - exactPlaces⟩

/-- The neighbours of `x` on the grid at place `p`, the nearer first; of two equally
    near the greater is first. -/
def neighbours (x p : Nat) : List Nat :=
  let below := x / Nat.pow 10 p
  if 2 * (x % Nat.pow 10 p) < Nat.pow 10 p then [below, below + 1] else [below + 1, below]

/-- The place where the search for `x` begins.  It is counted from the bits of `x`, with 93 bits
    for 28 digits, as 10²⁸ exceeds 2⁹³. -/
def coarsest (x : Nat) : Nat := (x.log2 + 1) * 28 / 93 + 1

/-- The neighbour that reads back as `b` on the first grid from place `p` down that has one. -/
def search (b x : Nat) : Nat → Decimal
  | 0 => onGrid x 0
  | p + 1 =>
    match (neighbours x (p + 1)).find? fun n => (onGrid n (p + 1)).magnitude == b with
    | some n => onGrid n (p + 1)
    | none => search b x p

/-- The decimal to write the finite pattern `b` with: on the coarsest grid searched that has a
    neighbour of the number reading back as `b`, and of two such neighbours the nearer. -/
def shortest (b : Nat) : Decimal :=
  if b = 0 then ⟨0, 0⟩
  else search b (exactDigits b) (coarsest (exactDigits b))

/-- The finite pattern `b` rounded to a fixed number of places, a half going to the
    even last digit. -/
def fixed (b places : Nat) : Decimal :=
  ⟨Rounding.halfEven (Binary64.units b * Nat.pow 10 places) Binary64.one, -(places : Int)⟩

end LiveArith.Decimal
