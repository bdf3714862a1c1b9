import Mathlib.Data.Nat.Choose.Basic
import LiveArith.Proofs.Language

/-! # Height — how high the tree of a formula gets

    The limit counts levels while a text is read, and a chain gives back what it
    counted for an operand before later operators of the chain lift that operand.
    So the limit does not bound the height of the tree.  The nodes above an operand
    are those that begin before it in the text and the operators after it that have
    it on their left; both together decide the height (`height_le_iff_standings`).
    What the limit does bound (`limit_bounds_begun_and_height`):

    * the nodes that begin before an operand (`derives_reach`), and so the height of
      a tree in which few operators come after any operand;
    * the height, by a number quadratic in the limit (`derives_height`): every two
      levels may hold a product and a sum as long as the levels left. -/

namespace LiveArith

open LiveArith.Grammar LiveArith.Parse

namespace Tree

/-- Where an operand stands in a tree: the nodes above it that begin before it in the text
    (signs, calls and operators that have it on their right), and those that come after it
    (operators that have it on their left). -/
structure Standing where
  begun : Nat
  added : Nat
deriving DecidableEq

/-- The standings of the operands, from left to right. -/
def standings : Tree → List Standing
  | constant _ => [⟨0, 0⟩]
  | cell _ => [⟨0, 0⟩]
  | negate t => t.standings.map fun s => ⟨s.begun + 1, s.added⟩
  | binary l _ r =>
    (l.standings.map fun s => ⟨s.begun, s.added + 1⟩) ++
      r.standings.map fun s => ⟨s.begun + 1, s.added⟩
  | call _ t => t.standings.map fun s => ⟨s.begun + 1, s.added⟩

/-- The most nodes above an operand that begin before it. -/
def reach : Tree → Nat
  | constant _ => 0
  | cell _ => 0
  | negate t => t.reach + 1
  | binary l _ r => max l.reach (r.reach + 1)
  | call _ t => t.reach + 1

/-- The nodes above an operand are fewer than the tree is high. -/
theorem standing_lt_height (t : Tree) : ∀ s ∈ t.standings, s.begun + s.added < t.height := by
  induction t with
  | constant v | cell c => simp [height, standings]
  | negate t ih | call f t ih =>
      intro s hs
      obtain ⟨s', hs', rfl⟩ := List.mem_map.1 hs
      have := ih s' hs'
      show s'.begun + 1 + s'.added < t.height + 1
      omega
  | binary l op r ihl ihr =>
      intro s hs
      show s.begun + s.added < max l.height r.height + 1
      rcases List.mem_append.1 hs with hl | hr
      · obtain ⟨s', hs', rfl⟩ := List.mem_map.1 hl
        have := ihl s' hs'
        show s'.begun + (s'.added + 1) < _
        omega
      · obtain ⟨s', hs', rfl⟩ := List.mem_map.1 hr
        have := ihr s' hs'
        show s'.begun + 1 + s'.added < _
        omega

/-- Some operand has above it all the nodes that the height counts. -/
theorem exists_standing_height (t : Tree) :
    ∃ s ∈ t.standings, s.begun + s.added + 1 = t.height := by
  induction t with
  | constant v | cell c => exact ⟨⟨0, 0⟩, List.mem_singleton_self _, rfl⟩
  | negate t ih | call f t ih =>
      obtain ⟨s, hs, he⟩ := ih
      refine ⟨_, List.mem_map.2 ⟨s, hs, rfl⟩, ?_⟩
      show s.begun + 1 + s.added + 1 = t.height + 1
      omega
  | binary l op r ihl ihr =>
      show ∃ s ∈ standings _, s.begun + s.added + 1 = max l.height r.height + 1
      rcases Nat.le_total r.height l.height with hle | hle
      · obtain ⟨s, hs, he⟩ := ihl
        refine ⟨_, List.mem_append_left _ (List.mem_map.2 ⟨s, hs, rfl⟩), ?_⟩
        show s.begun + (s.added + 1) + 1 = _
        omega
      · obtain ⟨s, hs, he⟩ := ihr
        refine ⟨_, List.mem_append_right _ (List.mem_map.2 ⟨s, hs, rfl⟩), ?_⟩
        show s.begun + 1 + s.added + 1 = _
        omega

/-- The height counts, over each operand, the nodes on both sides of it. -/
theorem height_le_iff_standings {t : Tree} {n : Nat} :
    t.height ≤ n ↔ ∀ s ∈ t.standings, s.begun + s.added < n := by
  constructor
  · intro h s hs
    exact Nat.lt_of_lt_of_le (t.standing_lt_height s hs) h
  · intro h
    obtain ⟨s, hs, he⟩ := t.exists_standing_height
    rw [← he]
    exact h s hs

theorem height_pos (t : Tree) : 0 < t.height := by
  cases t <;> simp [height]

/-- No operand has more nodes begun before it than the reach says. -/
theorem begun_le_reach (t : Tree) : ∀ s ∈ t.standings, s.begun ≤ t.reach := by
  induction t with
  | constant v | cell c => simp [reach, standings]
  | negate t ih | call f t ih => simpa [reach, standings] using ih
  | binary l op r ihl ihr =>
      intro s hs
      rcases List.mem_append.1 hs with hl | hr
      · obtain ⟨s', hs', rfl⟩ := List.mem_map.1 hl
        exact Nat.le_trans (ihl s' hs') (Nat.le_max_left _ _)
      · obtain ⟨s', hs', rfl⟩ := List.mem_map.1 hr
        exact Nat.le_trans (Nat.succ_le_succ (ihr s' hs')) (Nat.le_max_right _ _)

end Tree

/-! ## What the limit bounds -/

/-- What the room of a phrase says of the reach of its tree. -/
def ReachWithin : Phrase → Nat → Tree → Prop
  | .expression, n, t => t.reach + 2 ≤ n
  | .term, n, t => t.reach + 1 ≤ n
  | .factor, n, t => t.reach + 1 ≤ n
  | .base, n, t => t.reach ≤ n
  | .moreTerms left, n, t => t.reach + 1 ≤ max (left.reach + 1) n
  | .moreFactors left, n, t => t.reach + 1 ≤ max (left.reach + 1) n

/-- **THE COUNT.** The levels begun above an operand are counted where it is read. -/
theorem derives_reach {scope : Scope} {phrase : Phrase} {n : Nat} {ts : List Token} {t : Tree}
    (h : Derives scope phrase n ts t) : ReachWithin phrase n t := by
  induction h with
  | expression _ _ ih₁ ih₂ => simp only [ReachWithin] at *; omega
  | term _ _ ih₁ ih₂ => simp only [ReachWithin] at *; omega
  | lastTerm => simp only [ReachWithin]; omega
  | nextTerm _ _ _ ih₁ ih₂ => simp only [ReachWithin, Tree.reach] at *; omega
  | lastFactor => simp only [ReachWithin]; omega
  | nextFactor _ _ _ ih₁ ih₂ => simp only [ReachWithin, Tree.reach] at *; omega
  | plus _ ih => simp only [ReachWithin] at *; omega
  | minus _ ih => simp only [ReachWithin, Tree.reach] at *; omega
  | call _ _ ih => simp only [ReachWithin, Tree.reach] at *; omega
  | bare _ ih => simp only [ReachWithin] at *; omega
  | power _ _ ih₁ ih₂ => simp only [ReachWithin, Tree.reach] at *; omega
  | group _ ih => simp only [ReachWithin] at *; omega
  | number _ => simp only [ReachWithin, Tree.reach]; omega
  | name _ => simp only [ReachWithin, Tree.reach]; omega

/-- The height that a factor can have within its room. -/
def tallestFactor : Nat → Nat
  | 0 => 0
  -- a node above a group, which may hold an expression; with no level left, a leaf alone
  | n + 1 => n.choose 2 + min n 1 + 1

/-- One level more makes a pair with each of the others. -/
theorem choose_two_succ (n : Nat) : (n + 1).choose 2 = n + n.choose 2 := by
  rw [Nat.choose_succ_succ', Nat.choose_one_right]

/-- With a level more a factor can be as high as before. -/
theorem tallestFactor_le_succ (n : Nat) : tallestFactor n ≤ tallestFactor (n + 1) := by
  cases n with
  | zero => exact Nat.zero_le _
  | succ n =>
      simp only [tallestFactor, choose_two_succ]
      omega

/-- A tree has room only where a level is left. -/
theorem room_pos {n : Nat} {t : Tree} (h : t.height ≤ tallestFactor n) : 0 < n := by
  have ht := t.height_pos
  cases n with
  | zero => exact absurd h (by simp only [tallestFactor]; omega)
  | succ n => exact n.succ_pos

/-- With a level more a factor can be higher by one node. -/
theorem succ_le_tallestFactor {n : Nat} {t : Tree} (h : t.height ≤ tallestFactor n) :
    t.height + 1 ≤ tallestFactor (n + 1) := by
  have hn := room_pos h
  cases n with
  | zero => exact absurd hn (Nat.lt_irrefl 0)
  | succ n =>
      simp only [tallestFactor, choose_two_succ] at *
      omega

/-- What the room of a phrase says of the height of its tree. -/
def HeightWithin : Phrase → Nat → Tree → Prop
  | .expression, n, t => t.height ≤ n.choose 2 + 1
  | .term, n, t => t.height ≤ tallestFactor n + (n - 1)
  | .factor, n, t => t.height ≤ tallestFactor n
  | .base, n, t => t.height ≤ n.choose 2 + 1
  | .moreTerms left, n, t => t.height ≤ max left.height (tallestFactor n + (n - 1)) + (n - 1)
  | .moreFactors left, n, t => t.height ≤ max left.height (tallestFactor n) + (n - 1)

/-- **THE HEIGHT.** The tree of an expression is at most quadratically higher than its room. -/
theorem derives_height {scope : Scope} {phrase : Phrase} {n : Nat} {ts : List Token} {t : Tree}
    (h : Derives scope phrase n ts t) : HeightWithin phrase n t := by
  induction h with
  | @expression n _ _ l _ _ _ ih₁ ih₂ =>
      -- a term and the sum after it take as many nodes each as there are levels
      have hl := l.height_pos
      simp only [HeightWithin] at *
      cases n with
      | zero => simp only [tallestFactor] at *; omega
      | succ n => simp only [tallestFactor, choose_two_succ] at *; omega
  | term _ _ ih₁ ih₂ => simp only [HeightWithin] at *; omega
  | lastTerm => simp only [HeightWithin]; omega
  | @nextTerm n _ _ _ _ r _ _ _ _ ih₁ ih₂ =>
      -- the fold lifts all of the chain, but the operand after it has a level less
      have hr := r.height_pos
      have := tallestFactor_le_succ n
      simp only [HeightWithin, Tree.height] at *
      cases n with
      | zero => simp only [tallestFactor] at *; omega
      | succ n => omega
  | lastFactor => simp only [HeightWithin]; omega
  | @nextFactor n _ _ _ _ _ _ _ _ _ ih₁ ih₂ =>
      have hn := room_pos ih₁
      have := tallestFactor_le_succ n
      simp only [HeightWithin, Tree.height] at *
      omega
  | plus _ ih => exact Nat.le_trans ih (tallestFactor_le_succ _)
  | minus _ ih => exact succ_le_tallestFactor ih
  | call _ _ ih => exact succ_le_tallestFactor ih
  | bare _ ih => simp only [HeightWithin, tallestFactor] at *; omega
  | @power n _ _ l _ _ _ ih₁ ih₂ =>
      -- either side of the power has one level less than the power
      have hn := room_pos ih₂
      have hr := succ_le_tallestFactor ih₂
      have hl : l.height + 1 ≤ tallestFactor (n + 1) := by
        simp only [HeightWithin, tallestFactor] at *
        omega
      show max _ _ + 1 ≤ tallestFactor (n + 1)
      omega
  | group _ ih => exact ih
  | number _ => exact Nat.succ_le_succ (Nat.zero_le _)
  | name _ => exact Nat.succ_le_succ (Nat.zero_le _)

/-- **THE LIMIT AND THE HEIGHT.**  Above an operand of a formula there are fewer nodes begun before
    it than the limit, by two.  So the formula is no higher than the limit if at most one operator
    has an operand on its left, and by one higher for each operator more.  However many there are,
    the height is bounded by the pairs of levels. -/
theorem limit_bounds_begun_and_height {d : Draft} {s : Store} {f : Formula}
    (h : (d.build s).outcome = .ok f) :
    (∀ o ∈ f.root.standings, o.begun + 2 ≤ maxDepth) ∧
      (∀ k, (∀ o ∈ f.root.standings, o.added ≤ k) → f.root.height + 1 ≤ maxDepth + k) ∧
        f.root.height ≤ maxDepth.choose 2 + 1 := by
  obtain ⟨-, hd⟩ := (Draft.buildWithin_eq_ok_iff s f).1 h
  have hbegun : ∀ o ∈ f.root.standings, o.begun + 2 ≤ maxDepth := fun o ho =>
    Nat.le_trans (Nat.add_le_add_right (f.root.begun_le_reach o ho) 2) (derives_reach hd)
  refine ⟨hbegun, fun k hk => ?_, derives_height hd⟩
  have hheight : f.root.height ≤ maxDepth + k - 1 := by
    refine Tree.height_le_iff_standings.2 fun o ho => ?_
    -- an operand has few nodes on either side
    have hbefore := hbegun o ho
    have hafter := hk o ho
    omega
  have hpos := f.root.height_pos
  omega

/-! ## High trees -/

def digitOne : Float := Binary64.toFloat (Literal.decimal ['1']).magnitude

def Tree.withOne (op : Operator) (t : Tree) : Tree := .binary t op (.constant digitOne)

/-- As many ones as said, each after the character. -/
def ones (c : Char) (count : Nat) : List Char := (List.replicate count [c, '1']).flatten

def oneTokens (c : Char) (count : Nat) : List Token :=
  (List.replicate count [.mark c, .number ['1']]).flatten

def signedOne (signs : Nat) : List Char := List.replicate signs '-' ++ ['1']

/-- The digit is one token. -/
theorem scan_one : Token.scan ['1'] = [.number ['1']] :=
  Token.scan_whole_run .figures (List.cons_ne_nil _ _) (List.all_eq_true.1 rfl)

/-- Each one that is added has two tokens, of which none reaches into the text before. -/
theorem scan_ones {c : Char} (h : Token.IsMark c) (k : Nat) :
    ∀ front, Token.scan (front ++ ones c k) = Token.scan front ++ oneTokens c k := by
  induction k with
  | zero =>
      intro front
      show Token.scan (front ++ []) = Token.scan front ++ []
      rw [List.append_nil, List.append_nil]
  | succ k ih =>
      intro front
      show Token.scan (front ++ c :: (['1'] ++ ones c k)) = _
      rw [Token.scan_append_mark h, ih, scan_one]
      rfl

/-- Each sign is a token. -/
theorem scan_signedOne (k : Nat) :
    Token.scan (signedOne k) = List.replicate k (.mark '-') ++ [.number ['1']] := by
  induction k with
  | zero => exact scan_one
  | succ k ih =>
      show Token.scan ('-' :: signedOne k) = _
      rw [Token.scan_isMark (by decide), ih]
      rfl

section Derivations

variable (scope : Scope)

/-- The digit is a factor that takes one level. -/
theorem derives_one (n : Nat) :
    Derives scope .factor (n + 1) [.number ['1']] (.constant digitOne) :=
  .bare (.number (if_pos (by decide)))

/-- Every sign before a factor takes one level and gives one node. -/
theorem derives_signedOne (n k : Nat) :
    Derives scope .factor (k + n + 1) (Token.scan (signedOne k))
      (Tree.negate^[k] (.constant digitOne)) := by
  rw [scan_signedOne]
  induction k with
  | zero => exact derives_one scope _
  | succ k ih =>
      rw [Function.iterate_succ_apply', Nat.add_right_comm k 1 n]
      exact .minus ih

/-- Every one that is added takes one level and gives one node. -/
theorem derives_sums (k : Nat) : ∀ left, Derives scope (.moreTerms left) (k + 1)
    (oneTokens '+' k) ((Tree.withOne .add)^[k] left) := by
  induction k with
  | zero => exact fun left => .lastTerm
  | succ k ih =>
      intro left
      have one : Derives scope .term (k + 1) [.number ['1']] (.constant digitOne) :=
        .term (derives_one scope k) .lastFactor
      have plus : Operator.add ∈ Operator.additive := List.mem_cons_self
      exact .nextTerm plus one (ih _)

/-- Every one that is multiplied takes one level and gives one node. -/
theorem derives_products (k : Nat) : ∀ left, Derives scope (.moreFactors left) (k + 1)
    (oneTokens '*' k) ((Tree.withOne .multiply)^[k] left) := by
  induction k with
  | zero => exact fun left => .lastFactor
  | succ k ih =>
      intro left
      have times : Operator.multiply ∈ Operator.multiplicative := List.mem_cons_self
      exact .nextFactor times (derives_one scope k) (ih _)

end Derivations

/-- What makes a tree higher by one makes it higher by as many as it is done. -/
theorem height_iterate {f : Tree → Tree} (h : ∀ t, (f t).height = t.height + 1) (k : Nat)
    (t : Tree) : (f^[k] t).height = t.height + k := by
  induction k with
  | zero => rfl
  | succ k ih =>
      rw [Function.iterate_succ_apply', h, ih]
      omega

/-- A one with an operator before it makes a tree higher by one. -/
theorem height_withOne (op : Operator) (t : Tree) : (t.withOne op).height = t.height + 1 := by
  have ht := t.height_pos
  show max t.height 1 + 1 = _
  omega

/-! ## Signs before a sum -/

/-- A `1` after a number of signs, and two more added to it. -/
def signedSum (signs : Nat) : Draft :=
  .ofSource (String.ofList (signedOne signs ++ ones '+' 2))

def signedSumTree (signs : Nat) : Tree :=
  (Tree.withOne .add)^[2] (Tree.negate^[signs] (.constant digitOne))

/-- The signs and the sum build as long as the signs leave a level for the `1` after them. -/
theorem build_signedSum {k : Nat} (hk : k + 2 ≤ maxDepth) :
    ((signedSum k).build .empty).outcome = .ok ⟨(signedSum k).source, signedSumTree k⟩ := by
  refine (Draft.buildWithin_eq_ok_iff _ _).2 ⟨rfl, ?_⟩
  have htext : (signedSum k).source.toList = signedOne k ++ ones '+' 2 := String.toList_ofList
  have hn : k + (510 - k) + 1 = 511 := by
    simp only [maxDepth] at hk
    omega
  have first : Derives .empty .term 511 (Token.scan (signedOne k))
      (Tree.negate^[k] (.constant digitOne)) := by
    rw [← hn, ← List.append_nil (Token.scan _)]
    exact .term (derives_signedOne .empty _ k) .lastFactor
  rw [htext, scan_ones (by decide)]
  exact .expression first (derives_mono (derives_sums .empty 2 _) (by decide))

/-- The operators of the sum have the signs on their left, and nothing else stands deeper. -/
theorem standings_signedSumTree (k : Nat) :
    (signedSumTree k).standings = [⟨k, 2⟩, ⟨1, 1⟩, ⟨1, 0⟩] := by
  have hsigns : (Tree.negate^[k] (.constant digitOne)).standings = [⟨k, 0⟩] := by
    induction k with
    | zero => rfl
    | succ k ih =>
        rw [Function.iterate_succ_apply', Tree.standings, ih]
        rfl
  show ((List.map _ (List.map _ (Tree.standings _) ++ _)) ++ _) = _
  rw [hsigns]
  rfl

/-- One sign fewer than the limit bears: two operators have an operand on their left, and the tree
    is higher than the limit by one at most. -/
theorem limit_bounds_signedSum : ∃ f, ((signedSum 509).build .empty).outcome = .ok f ∧
    (∀ o ∈ f.root.standings, o.begun + 2 ≤ maxDepth) ∧
      f.root.height + 1 ≤ maxDepth + 2 ∧ f.root.height ≤ maxDepth.choose 2 + 1 := by
  have hbuild := build_signedSum (k := 509) (by decide)
  obtain ⟨hbegun, hheight, hbound⟩ := limit_bounds_begun_and_height hbuild
  refine ⟨_, hbuild, hbegun, hheight 2 ?_, hbound⟩
  rw [standings_signedSumTree]
  decide

/-- One sign more, and the tree is higher than the limit. -/
theorem exists_height_above_maxDepth :
    ∃ f, ((signedSum 510).build .empty).outcome = .ok f ∧ f.root.height = maxDepth + 1 := by
  refine ⟨_, build_signedSum (by decide), ?_⟩
  show (signedSumTree 510).height = _
  rw [signedSumTree, height_iterate (height_withOne .add), height_iterate fun t => rfl]
  rfl

/-! ## The highest tree -/

/-- Powers of parenthesised sums, each with as many factors and as many terms as there is room
    for. -/
def nestedSum : Nat → List Char
  | 0 => signedOne 2 ++ ones '*' 2 ++ ones '+' 2
  | k + 1 => '(' :: nestedSum k ++ [')', '^', '1'] ++ ones '*' (2 * k + 4) ++ ones '+' (2 * k + 4)

def nestedSumTree : Nat → Tree
  | 0 => (Tree.withOne .add)^[2]
      ((Tree.withOne .multiply)^[2] (Tree.negate^[2] (.constant digitOne)))
  | k + 1 => (Tree.withOne .add)^[2 * k + 4]
      ((Tree.withOne .multiply)^[2 * k + 4] ((nestedSumTree k).withOne .power))

/-- A chain of products and a chain of sums fill the room of an expression. -/
theorem derives_ones {scope : Scope} {k : Nat} {front : List Char} {t : Tree}
    (h : Derives scope .factor (k + 1) (Token.scan front) t) :
    Derives scope .expression (k + 2) (Token.scan (front ++ ones '*' k ++ ones '+' k))
      ((Tree.withOne .add)^[k] ((Tree.withOne .multiply)^[k] t)) := by
  rw [scan_ones (by decide), scan_ones (by decide)]
  exact .expression (.term h (derives_products scope k t)) (derives_sums scope k _)

/-- Every two levels hold a group with a product and a sum as long as the levels left. -/
theorem derives_nestedSum (scope : Scope) (k : Nat) :
    Derives scope .expression (2 * k + 4) (Token.scan (nestedSum k)) (nestedSumTree k) := by
  induction k with
  | zero => exact derives_ones (derives_signedOne scope 0 2)
  | succ k ih =>
      refine derives_ones (k := 2 * k + 4) ?_
      have htext : '(' :: nestedSum k ++ [')', '^', '1'] =
          ('(' :: (nestedSum k ++ ')' :: [])) ++ '^' :: ['1'] := by simp
      rw [htext, Token.scan_append_mark (by decide), scan_one, Token.scan_isMark (by decide),
        Token.scan_append_mark (by decide), Token.scan_nil]
      exact .power (.group ih) (derives_one scope _)

/-- The height grows with the pairs of levels. -/
theorem height_nestedSumTree (k : Nat) :
    (nestedSumTree k).height = (2 * k + 4).choose 2 + 1 := by
  induction k with
  | zero => rfl
  | succ k ih =>
      rw [nestedSumTree, height_iterate (height_withOne .add),
        height_iterate (height_withOne .multiply), height_withOne, ih]
      have hlast : (2 * k + 6).choose 2 = 2 * k + 5 + (2 * k + 5).choose 2 := choose_two_succ _
      have hfirst : (2 * k + 5).choose 2 = 2 * k + 4 + (2 * k + 4).choose 2 := choose_two_succ _
      show _ = (2 * k + 6).choose 2 + 1
      omega

/-- The nested sums build as long as the limit has levels for them. -/
theorem build_nestedSum {k : Nat} (hk : 2 * k + 4 ≤ maxDepth) :
    ∃ (d : Draft) (f : Formula), (d.build .empty).outcome = .ok f ∧
      f.root.height = (2 * k + 4).choose 2 + 1 := by
  let d : Draft := .ofSource (String.ofList (nestedSum k))
  have htext : d.source.toList = nestedSum k := String.toList_ofList
  refine ⟨d, ⟨d.source, nestedSumTree k⟩, ?_, height_nestedSumTree k⟩
  refine (Draft.buildWithin_eq_ok_iff _ _).2 ⟨rfl, ?_⟩
  rw [htext]
  exact derives_mono (derives_nestedSum .empty k) hk

/-- **THE HIGHEST TREE.** Some text builds to a tree as high as the limit allows. -/
theorem exists_height_eq :
    ∃ (d : Draft) (f : Formula), (d.build .empty).outcome = .ok f ∧
      f.root.height = maxDepth.choose 2 + 1 :=
  build_nestedSum (k := 254) (Nat.le_refl _)

end LiveArith
