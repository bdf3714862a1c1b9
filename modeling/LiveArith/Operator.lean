/-! # Operators — the five binary operations of a formula

    Each operator has one written symbol, one meaning on binary64 values and one
    name in structural descriptions.  Arithmetic is IEEE throughout: dividing by
    zero gives an infinity or NaN and is never an error. -/

namespace LiveArith

/-- A binary operation. -/
inductive Operator where
  | add
  | subtract
  | multiply
  | divide
  | power
deriving DecidableEq, Repr, Inhabited

namespace Operator

/-- Every operator, from the loosest to the tightest binding. -/
def all : List Operator := [add, subtract, multiply, divide, power]

/-- The operators that join terms. -/
def additive : List Operator := [add, subtract]

/-- The operators that join factors. -/
def multiplicative : List Operator := [multiply, divide]

/-- The character that stands for the operator in a formula. -/
def symbol : Operator → Char
  | add => '+'
  | subtract => '-'
  | multiply => '*'
  | divide => '/'
  | power => '^'

/-- The name of the operator in a structural description. -/
def name : Operator → String
  | add => "Add"
  | subtract => "Subtract"
  | multiply => "Multiply"
  | divide => "Divide"
  | power => "Power"

/-- The value of the operation on two values. -/
def apply : Operator → Float → Float → Float
  | add, x, y => x + y
  | subtract, x, y => x - y
  | multiply, x, y => x * y
  | divide, x, y => x / y
  | power, x, y => x.pow y

/-- The operator written with a symbol, if there is one. -/
def ofSymbol? (c : Char) : Option Operator := all.find? (·.symbol == c)

/-- Every operator is found by its symbol. -/
@[simp] theorem ofSymbol?_symbol (op : Operator) : ofSymbol? op.symbol = some op := by
  cases op <;> rfl

/-- What is found by a symbol has that symbol. -/
theorem symbol_of_ofSymbol? {c : Char} {op : Operator} (h : ofSymbol? c = some op) :
    op.symbol = c := by
  simpa using List.find?_some h

/-- Distinct operators have distinct symbols. -/
theorem symbol_inj {a b : Operator} (h : a.symbol = b.symbol) : a = b := by
  have := congrArg ofSymbol? h
  simpa using this

end Operator

end LiveArith
