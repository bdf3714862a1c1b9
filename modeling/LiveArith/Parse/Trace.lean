import LiveArith.Number.Text
import LiveArith.Operator
import LiveArith.Scope

/-! # Traces — what a parse did, in order

    A parse is told as a list of steps: each rule it opened and closed, each fold
    it counted, each leaf it read.  Some of the steps have a line in the log. -/

namespace LiveArith.Parse

/-- A rule of the grammar. -/
inductive Rule where
  | expression
  | term
  | factor
deriving DecidableEq, Repr

/-- The name of a rule. -/
def Rule.name : Rule → String
  | expression => "expression"
  | term => "term"
  | factor => "factor"

/-- One step of a parse.  `room` is the number of levels that may still be opened. -/
inductive Step where
  /-- A rule was opened. -/
  | opened (rule : Rule) (position room : Nat)
  /-- A rule ended; it covers the characters from `start` up to `stop`. -/
  | closed (rule : Rule) (start stop : Nat)
  /-- An operator was read whose right operand makes one more level of a chain; `position`
      is the place after it, and `room` what is left for the operand. -/
  | folding (operator : Operator) (position room : Nat)
  /-- A level was needed and none was left. -/
  | exhausted (position : Nat)
  /-- A number was read. -/
  | number (value : Float)
  /-- A name was found to be a variable. -/
  | variableName (name : String) (cell : Cell)
  /-- A name was found to be a builtin. -/
  | functionName (function : Builtin)
deriving DecidableEq

/-- The line of a step in the log, for the steps that have one. -/
def Step.message? : Step → Option String
  | opened rule position _ => some ("Parsing " ++ rule.name ++ " at " ++ toString position)
  | number v => some ("Parsed number " ++ NumberText.render NumberText.plain v)
  | variableName name _ => some ("Resolved variable '" ++ name ++ "'")
  | functionName f => some ("Resolved function '" ++ f.name ++ "'")
  | closed _ _ _ => none
  | folding _ _ _ => none
  | exhausted _ => none

end LiveArith.Parse
