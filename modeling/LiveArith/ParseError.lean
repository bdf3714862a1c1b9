/-! # Parse errors — why a text is no formula

    Positions count characters from the start of the text. -/

namespace LiveArith

/-- The reason a text does not build. -/
inductive ParseError where
  /-- A character that cannot stand where it does, or the end of the text where more is
      needed. -/
  | unexpectedCharacter (found : Option Char) (position : Nat)
  /-- A name that is neither bound nor a builtin. -/
  | unknownFunction (name : String) (position : Nat)
  /-- A run of digits and dots that is no number. -/
  | invalidNumber (literal : String) (position : Nat)
deriving DecidableEq, Repr

namespace ParseError

/-- Where the problem was found. -/
def position : ParseError → Nat
  | unexpectedCharacter _ p => p
  | unknownFunction _ p => p
  | invalidNumber _ p => p

/-- A character in quotes, or the end of the text. -/
def describe : Option Char → String
  | some c => "'" ++ String.singleton c ++ "'"
  | none => "end of input"

/-- The report of the error. -/
def message : ParseError → String
  | unexpectedCharacter found p => "Unexpected: " ++ describe found ++ place p
  | unknownFunction name p => "Unknown function: " ++ name ++ place p
  | invalidNumber literal p => "Invalid number '" ++ literal ++ "'" ++ place p
where
  /-- The end of every report. -/
  place (p : Nat) : String := " at position " ++ toString p

/-- The report of the error beneath, if there is one. -/
def cause? : ParseError → Option String
  | invalidNumber _ _ => some "invalid float literal"
  | _ => none

end ParseError

end LiveArith
