import LiveArith.Parse.Trace
import LiveArith.Tree.Description

/-! # Logs — what building a formula reports

    Registering names, the steps of the parse and the tree that comes out are
    recorded in the order in which they happen.  Evaluating records nothing. -/

namespace LiveArith

/-- How much detail a record gives. -/
inductive Level where
  | debug
  | trace
deriving DecidableEq, Repr

/-- The level as the log writes it. -/
def Level.name : Level → String
  | debug => "DEBUG"
  | trace => "TRACE"

/-- Something that happened while a formula was built. -/
inductive Record where
  /-- A name was bound to a cell that held a value. -/
  | registering (name : String) (value : Float)
  /-- The parse of a text began. -/
  | building (source : String)
  /-- The parse took a step. -/
  | parsing (step : Parse.Step)
  /-- The parse ended with a tree, while the cells held these values. -/
  | built (root : Tree) (store : Store)
deriving DecidableEq

namespace Record

/-- The level of a record. -/
def level : Record → Level
  | registering _ _ => .trace
  | building _ => .debug
  | parsing _ => .trace
  | built _ _ => .debug

/-- The text of a record; a step without a line of its own has none. -/
def message? : Record → Option String
  | registering name v =>
    some ("Registering variable '" ++ name ++ "' = " ++ NumberText.render NumberText.plain v)
  | building source => some ("Building expression: " ++ source)
  | parsing step => step.message?
  | built root store => some ("Built expression tree: " ++ root.describe store.get)

/-- The line of a record. -/
def line? (r : Record) : Option String :=
  r.message?.map fun m => r.level.name ++ " " ++ m

/-- The lines of a log. -/
def lines (log : List Record) : List String := log.filterMap line?

end Record

end LiveArith
