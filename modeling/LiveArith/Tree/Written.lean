import LiveArith.Number.Literal
import LiveArith.Scope
import LiveArith.Tree

/-! # Written trees — formulas with no parenthesis to spare

    `Written` says which texts write a tree: each part stands in parentheses only
    where it binds less tightly than its place demands.  A constant may be written
    by any literal of its value and a cell by any name bound to it. -/

namespace LiveArith

/-- How tightly an operator binds its operands. -/
def Operator.level : Operator → Nat
  | .add | .subtract => 0
  | .multiply | .divide => 1
  | .power => 2

/-- The level that the left operand must have to stand without parentheses. -/
def Operator.leftPlace : Operator → Nat
  | .add | .subtract => 0
  | .multiply | .divide => 1
  | .power => 3

/-- The level that the right operand must have to stand without parentheses. -/
def Operator.rightPlace : Operator → Nat
  | .add | .subtract => 1
  | .multiply | .divide => 2
  | .power => 2

namespace Tree

/-- How tightly a tree holds together when it is written. -/
def level : Tree → Nat
  | constant _ => 3
  | cell _ => 3
  | negate _ => 2
  | call _ _ => 2
  | binary _ op _ => op.level

/-- `Written scope place tree text`: the text writes the tree where a part of level
    `place` may stand. -/
inductive Written (scope : Scope) : Nat → Tree → List Char → Prop where
  | constant {place v run} : (∀ c ∈ run, Literal.isFigure c) → Literal.read? run = some v →
      Written scope place (constant v) run
  | cell {place c name} : name ≠ [] → (∀ ch ∈ name, Scope.isLetter ch) →
      scope.find? (String.ofList name) = some c →
      Written scope place (cell c) name
  | negate {place t s} : place ≤ 2 → Written scope 2 t s →
      Written scope place (negate t) ('-' :: s)
  | call {place f t s} : place ≤ 2 → scope.find? f.name = none → Written scope 2 t s →
      Written scope place (call f t) (f.name.toList ++ ' ' :: s)
  | binary {place op l r s u} : place ≤ op.level →
      Written scope op.leftPlace l s → Written scope op.rightPlace r u →
      Written scope place (binary l op r) (s ++ op.symbol :: u)
  | group {place t s} : t.level < place → Written scope 0 t s →
      Written scope place t ('(' :: s ++ [')'])

end Tree

end LiveArith
