import LiveArith.Number.Literal
import LiveArith.Parse.Parser
import LiveArith.Tree

/-! # Descent — formulas read rule by rule

        expression = term { ("+" | "-") term }
        term       = factor { ("*" | "/") factor }
        factor     = ("+" | "-") factor
                   | ( "(" expression ")" | number | variable | function factor ) [ "^" factor ]

    A sign takes the whole power that follows it, so `-x^y` is `-(x^y)`; the right
    operand of `^` is a factor, so `2^3^2` is `2^(3^2)`; chains of the other
    operators fold to the left.

    Every parser here is given the `room` it has: how many levels may still be
    opened.  An expression, a factor and each fold of a chain take one level, and
    each hands on one less than it was given, so the recursion is on the room and
    goes no deeper.  The tree may be higher than the room: a fold puts all that was
    read before it one level down, after the levels of that were given back. -/

namespace LiveArith.Parse

open LiveArith.Parse.Parser

/-- A number. -/
def number : Parser Tree := do
  let start ← position
  let run ← takeRun Literal.isFigure
  match Literal.read? run with
  | some v =>
    note (.number v)
    return .constant v
  | none => fail (.invalidNumber (String.ofList run) start)

/-- A name, with what it means. -/
def name (scope : Scope) : Parser Meaning := do
  let start ← position
  let letters ← takeRun Scope.isLetter
  let word := String.ofList letters
  match scope.meaning? word with
  | some (.cell c) =>
    note (.variableName word c)
    return .cell c
  | some (.builtin f) =>
    note (.functionName f)
    return .builtin f
  | none => fail (.unknownFunction word start)

/-- A variable, or a function and its argument. -/
def named (scope : Scope) (factor : Parser Tree) : Parser Tree := do
  match ← name scope with
  | .cell c => return .cell c
  | .builtin f => return .call f (← factor)

/-- An expression in parentheses, after the opening one. -/
def group (expression : Parser Tree) : Parser Tree := do
  let t ← expression
  if ← take ')' then return t else unexpected

/-- What can stand before a `^`. -/
def base (scope : Scope) (expression factor : Parser Tree) : Parser Tree := do
  if ← take '(' then group expression
  else
    let next ← lookahead
    if next.any Literal.isFigure then number
    else if next.any Scope.isLetter then named scope factor
    else unexpected

/-- A base that is read, with the exponent that may follow it. -/
def powerOf (factor : Parser Tree) (t : Tree) : Parser Tree := do
  if ← take '^' then return .binary t .power (← factor) else return t

/-- A factor: signs first, then a base with its exponent. -/
def signed (scope : Scope) (expression factor : Parser Tree) : Parser Tree := do
  if ← take '+' then factor
  else if ← take '-' then return .negate (← factor)
  else powerOf factor (← base scope expression factor)

/-- A factor with the chain that it begins. -/
def termOf (room : Nat) (factor : Parser Tree) (tail : Tree → Parser Tree) : Parser Tree :=
  within .term room do tail (← factor)

/-- A chain that ends unless one of the operators follows. -/
def chain (ops : List Operator) (left : Tree) (more : Operator → Parser Tree) : Parser Tree := do
  match ← takeOperator ops with
  | none => return left
  | some op => more op

/-- One more operand of a chain, after its operator, and the rest of the chain; `room` is
    what is left for both. -/
def fold (room : Nat) (left : Tree) (operand : Parser Tree) (tail : Tree → Parser Tree)
    (op : Operator) : Parser Tree := do
  note (.folding op (← position) room)
  tail (.binary left op (← operand))

mutual

/-- An expression. -/
def expression (scope : Scope) : Nat → Parser Tree
  | 0 => within .expression 0 exhausted
  | room + 1 => within .expression (room + 1) do
      sumTail scope room (← termOf room (factor scope room) (productTail scope room))

/-- The rest of a chain of terms, after the tree of those read. -/
def sumTail (scope : Scope) : Nat → Tree → Parser Tree
  | 0, left => chain Operator.additive left fun _ => exhausted
  | room + 1, left => chain Operator.additive left <|
      fold room left (termOf room (factor scope room) (productTail scope room))
        (sumTail scope room)

/-- The rest of a chain of factors, after the tree of those read. -/
def productTail (scope : Scope) : Nat → Tree → Parser Tree
  | 0, left => chain Operator.multiplicative left fun _ => exhausted
  | room + 1, left => chain Operator.multiplicative left <|
      fold room left (factor scope room) (productTail scope room)

/-- A factor. -/
def factor (scope : Scope) : Nat → Parser Tree
  | 0 => within .factor 0 exhausted
  | room + 1 => within .factor (room + 1) <|
      signed scope (expression scope room) (factor scope room)

end

/-- A term: a chain of factors. -/
def term (scope : Scope) (room : Nat) : Parser Tree :=
  termOf room (factor scope room) (productTail scope room)

/-- A whole text: an expression, and nothing after it but spaces. -/
def formula (scope : Scope) (room : Nat) : Parser Tree := do
  let t ← expression scope room
  skipSpaces
  match ← lookahead with
  | none => return t
  | some _ => unexpected

end LiveArith.Parse
