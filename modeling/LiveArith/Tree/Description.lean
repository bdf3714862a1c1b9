import LiveArith.Number.Text
import LiveArith.Tree

/-! # Descriptions — trees written out in full

    A description names every node and field of a tree; a cell is described by the
    value it holds at the moment. -/

namespace LiveArith

/-- The description of a node with named fields. -/
def describeFields (title : String) (fields : List (String × String)) : String :=
  title ++ " \x7b " ++ String.intercalate ", " (fields.map fun (f, text) => f ++ ": " ++ text)
    ++ " \x7d"

/-- The description of a cell that holds a value. -/
def describeCell (value : Float) : String :=
  "Variable(" ++ NumberText.render NumberText.described value ++ ")"

/-- The description of a tree when cells read as `read` says. -/
def Tree.describe (read : Cell → Float) : Tree → String
  | constant v => "Constant(" ++ NumberText.render NumberText.described v ++ ")"
  | cell c => "Variable(" ++ describeCell (read c) ++ ")"
  | negate t => "Negate(" ++ t.describe read ++ ")"
  | binary l op r =>
    describeFields "BinaryOperation"
      [("left", l.describe read), ("operator", op.name), ("right", r.describe read)]
  | call f t =>
    describeFields "FunctionCall" [("function", f.title), ("argument", t.describe read)]

end LiveArith
