import LiveArith.Token
import LiveArith.Tree

/-! # The grammar — which tokens make which tree

    `Derives` states the language of formulas without saying how it is read: a
    phrase, the levels it may nest, its tokens and its tree.  An expression, a
    factor and each further operand of a chain take one level. -/

namespace LiveArith.Grammar

/-- A part of a formula. -/
inductive Phrase where
  | expression
  | term
  | factor
  /-- What can stand before a `^`. -/
  | base
  /-- The operators and terms after the tree of those before them. -/
  | moreTerms (left : Tree)
  /-- The operators and factors after the tree of those before them. -/
  | moreFactors (left : Tree)

open Token Operator

/-- `Derives scope phrase room tokens tree`: the tokens are a phrase with that tree, which
    nests no more than `room` levels. -/
inductive Derives (scope : Scope) : Phrase → Nat → List Token → Tree → Prop where
  | expression {n ts us l t} :
      Derives scope .term n ts l → Derives scope (.moreTerms l) n us t →
      Derives scope .expression (n + 1) (ts ++ us) t
  | term {n ts us l t} :
      Derives scope .factor n ts l → Derives scope (.moreFactors l) n us t →
      Derives scope .term n (ts ++ us) t
  | lastTerm {n t} : Derives scope (.moreTerms t) n [] t
  | nextTerm {n op ts us l r t} : op ∈ additive →
      Derives scope .term n ts r → Derives scope (.moreTerms (.binary l op r)) n us t →
      Derives scope (.moreTerms l) (n + 1) (mark op.symbol :: ts ++ us) t
  | lastFactor {n t} : Derives scope (.moreFactors t) n [] t
  | nextFactor {n op ts us l r t} : op ∈ multiplicative →
      Derives scope .factor n ts r → Derives scope (.moreFactors (.binary l op r)) n us t →
      Derives scope (.moreFactors l) (n + 1) (mark op.symbol :: ts ++ us) t
  | plus {n ts t} :
      Derives scope .factor n ts t → Derives scope .factor (n + 1) (mark '+' :: ts) t
  | minus {n ts t} :
      Derives scope .factor n ts t → Derives scope .factor (n + 1) (mark '-' :: ts) (.negate t)
  | call {n letters f ts t} : scope.meaning? (String.ofList letters) = some (.builtin f) →
      Derives scope .factor n ts t →
      Derives scope .factor (n + 1) (word letters :: ts) (.call f t)
  | bare {n ts t} : Derives scope .base n ts t → Derives scope .factor (n + 1) ts t
  | power {n ts us l r} :
      Derives scope .base n ts l → Derives scope .factor n us r →
      Derives scope .factor (n + 1) (ts ++ mark '^' :: us) (.binary l .power r)
  | group {n ts t} :
      Derives scope .expression n ts t →
      Derives scope .base n (mark '(' :: ts ++ [mark ')']) t
  | number {n run v} : Literal.read? run = some v →
      Derives scope .base n [number run] (.constant v)
  | name {n letters c} : scope.meaning? (String.ofList letters) = some (.cell c) →
      Derives scope .base n [word letters] (.cell c)

end LiveArith.Grammar
