import LiveArith.Builtin
import LiveArith.Cell
import LiveArith.Operator

/-! # Trees — what a formula means

    A tree owns its children and mentions cells by identity, so its value is a
    function of what the cells hold at the moment.  Two relations compare trees:
    `=` is structural, constants by their bits; `==` compares constants as
    numbers, so NaN differs from itself and the two zeros agree. -/

namespace LiveArith

/-- The tree of a formula. -/
inductive Tree where
  | constant (value : Float)
  | cell (identity : Cell)
  | negate (operand : Tree)
  | binary (left : Tree) (operator : Operator) (right : Tree)
  | call (function : Builtin) (argument : Tree)
deriving DecidableEq, Inhabited

namespace Tree

/-- The value of the tree when cells read as `read` says. -/
def eval (read : Cell → Float) : Tree → Float
  | constant v => v
  | cell c => read c
  | negate t => -(t.eval read)
  | binary l op r => op.apply (l.eval read) (r.eval read)
  | call f t => f.apply (t.eval read)

/-- Comparison as numbers: constants by value, cells by identity, the rest by structure. -/
def beq : Tree → Tree → Bool
  | constant v, constant w => v == w
  | cell c, cell d => c == d
  | negate t, negate u => beq t u
  | binary l op r, binary l' op' r' => beq l l' && op == op' && beq r r'
  | call f t, call g u => f == g && beq t u
  | _, _ => false

instance : BEq Tree := ⟨beq⟩

/-- The number of levels: a leaf has one. -/
def height : Tree → Nat
  | constant _ => 1
  | cell _ => 1
  | negate t => t.height + 1
  | binary l _ r => max l.height r.height + 1
  | call _ t => t.height + 1

/-- The cells that the tree mentions, from left to right. -/
def cells : Tree → List Cell
  | constant _ => []
  | cell c => [c]
  | negate t => t.cells
  | binary l _ r => l.cells ++ r.cells
  | call _ t => t.cells

/-- The constants of the tree, from left to right. -/
def constants : Tree → List Float
  | constant v => [v]
  | cell _ => []
  | negate t => t.constants
  | binary l _ r => l.constants ++ r.constants
  | call _ t => t.constants

/-- The functions that the tree calls, outermost first, from left to right. -/
def calls : Tree → List Builtin
  | constant _ => []
  | cell _ => []
  | negate t => t.calls
  | binary l _ r => l.calls ++ r.calls
  | call f t => f :: t.calls

/-- Every cell replaced by a tree of its own. -/
def substitute (replacement : Cell → Tree) : Tree → Tree
  | constant v => constant v
  | cell c => replacement c
  | negate t => negate (t.substitute replacement)
  | binary l op r => binary (l.substitute replacement) op (r.substitute replacement)
  | call f t => call f (t.substitute replacement)

/-- One cell replaced by a tree, the others kept. -/
def replace (t : Tree) (c : Cell) (u : Tree) : Tree :=
  t.substitute fun d => if d = c then u else cell d

/-- The value depends on the cells that are mentioned and on no others. -/
theorem eval_congr {read read' : Cell → Float} :
    ∀ {t : Tree}, (∀ c ∈ t.cells, read c = read' c) → t.eval read = t.eval read'
  | constant _, _ => rfl
  | cell c, h => h c (by simp [cells])
  | negate t, h => by
      have ht : t.eval read = t.eval read' := eval_congr fun c hc => h c (by simpa [cells] using hc)
      simp [eval, ht]
  | binary l op r, h => by
      have hl : l.eval read = l.eval read' := eval_congr fun c hc => h c (by simp [cells, hc])
      have hr : r.eval read = r.eval read' := eval_congr fun c hc => h c (by simp [cells, hc])
      simp [eval, hl, hr]
  | call f t, h => by
      have ht : t.eval read = t.eval read' := eval_congr fun c hc => h c (by simpa [cells] using hc)
      simp [eval, ht]

/-- Replacing cells by trees and then evaluating is evaluating with the cells reading
    as the values of those trees. -/
theorem eval_substitute (read : Cell → Float) (replacement : Cell → Tree) (t : Tree) :
    (t.substitute replacement).eval read = t.eval fun c => (replacement c).eval read := by
  induction t with
  | constant v => rfl
  | cell c => rfl
  | negate t ih => simp [substitute, eval, ih]
  | binary l op r ihl ihr => simp [substitute, eval, ihl, ihr]
  | call f t ih => simp [substitute, eval, ih]

end Tree

end LiveArith
