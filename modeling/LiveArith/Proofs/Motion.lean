import LiveArith.Proofs.Rules
import LiveArith.Proofs.Spacing

/-! # Motion — where a parser can bring the cursor

    A parser moves the cursor in three ways: past the spaces, past a mark and past a
    longest run.  The route:

    * whatever succeeds moves the cursor in these ways only: first the primitives,
      then the makings of a rule, and by rule induction the rules
      (`rule_travels`);
    * in none of the three ways does the cursor stop inside a run, so the tokens of a
      text are those before the cursor and those after it (`scan_of_moves`). -/

namespace LiveArith

open LiveArith.Grammar LiveArith.Parse LiveArith.Token

namespace Token

/-- The marks that stand in a formula: the symbols of the operators and the parentheses. -/
def marks : List Char := Operator.all.map Operator.symbol ++ ['(', ')']

/-- The marks of the grammar are tokens by themselves. -/
theorem isMark_of_mem_marks {ch : Char} (h : ch ∈ marks) : IsMark ch := by
  rcases List.mem_append.1 h with h | h
  · obtain ⟨op, -, rfl⟩ := List.mem_map.1 h
    exact op.isMark_symbol
  · rcases List.mem_pair.1 h with rfl | rfl <;> decide

/-- The symbol of an operator is a mark of the grammar. -/
theorem symbol_mem_marks (op : Operator) : op.symbol ∈ marks := by
  cases op <;> decide

/-- The character can stand in a formula. -/
def InAlphabet (ch : Char) : Prop :=
  ch = ' ' ∨ Literal.isFigure ch = true ∨ Scope.isLetter ch = true ∨ ch ∈ marks

/-- The characters of a run belong to the alphabet. -/
theorem inAlphabet_of_holds {k : RunKind} {ch : Char} (h : k.holds ch = true) :
    InAlphabet ch := by
  cases k with
  | figures => exact Or.inr (Or.inl h)
  | letters => exact Or.inr (Or.inr (Or.inl h))

end Token

namespace Cursor

/-- The cursor comes from `c` to a place in the ways of a parser. -/
inductive Moves (c : Cursor) : Cursor → Prop where
  | refl : Moves c c
  | spaces {d : Cursor} : Moves c d → Moves c d.skipSpaces
  | mark {d : Cursor} {ch : Char} : Moves c d → ch ∈ marks → d.lookahead = some ch →
      Moves c (d.drop 1)
  | run {d : Cursor} (k : RunKind) : Moves c d → Moves c (d.skip k.holds)

/-- Moves follow one another. -/
theorem Moves.trans {c d e : Cursor} (h : Moves c d) (h' : Moves d e) : Moves c e := by
  induction h' with
  | refl => exact h
  | spaces _ ih => exact .spaces ih
  | mark _ hm look ih => exact .mark ih hm look
  | run k _ ih => exact .run k ih

/-- Between two places are the characters that the cursor has passed. -/
theorem Moves.passes {c d : Cursor} (h : Moves c d) :
    ∃ passed, c.rest = passed ++ d.rest ∧ d.position = c.position + passed.length := by
  have skips : ∀ {d : Cursor} (p : Char → Bool),
      (∃ passed, c.rest = passed ++ d.rest ∧ d.position = c.position + passed.length) →
        ∃ passed, c.rest = passed ++ (d.skip p).rest ∧
          (d.skip p).position = c.position + passed.length := by
    rintro d p ⟨passed, hrest, hpos⟩
    refine ⟨passed ++ d.run p, ?_, ?_⟩
    · rw [List.append_assoc, d.run_append_skip, hrest]
    · rw [List.length_append, ← Nat.add_assoc, ← hpos]
      rfl
  induction h with
  | refl => exact ⟨[], rfl, rfl⟩
  | spaces _ ih => exact skips _ ih
  | @mark d ch _ _ look ih =>
      obtain ⟨passed, hrest, hpos⟩ := ih
      obtain ⟨rest, hd⟩ := List.head?_eq_some_iff.1 look
      refine ⟨passed ++ [ch], ?_, ?_⟩
      · rw [hrest, hd, Cursor.drop, hd, List.append_assoc]
        rfl
      · rw [List.length_append, ← Nat.add_assoc, ← hpos]
        rfl
  | run k _ ih => exact skips _ ih

/-! ## Places between tokens -/

/-- The cursor stands in the text, after `front`, which could stand in a formula, and no run
    goes across the place. -/
structure Stands (text front : List Char) (c : Cursor) : Prop where
  text_eq : text = front ++ c.rest
  position_eq : c.position = front.length
  seam : ¬ Joined front c.rest
  alphabet : ∀ ch ∈ front, InAlphabet ch

/-- At the start of a text nothing stands before the cursor. -/
theorem stands_start (text : List Char) : Stands text [] (start text) :=
  ⟨rfl, rfl, not_joined_nil text, nofun⟩

/-- Past a longest run, or past the spaces, the cursor stands between tokens again. -/
theorem Stands.skip {text front : List Char} {c : Cursor} (h : Stands text front c)
    {p : Char → Bool}
    (hp : ∀ (k : RunKind) x y, p x = true → k.holds x = true → k.holds y = true → p y = true)
    (ha : ∀ x, p x = true → InAlphabet x) : Stands text (front ++ c.run p) (c.skip p) := by
  refine ⟨?_, ?_, ?_, ?_⟩
  · rw [List.append_assoc, run_append_skip, h.text_eq]
  · rw [List.length_append, ← h.position_eq]
    rfl
  · intro hj
    by_cases hrun : c.run p = []
    · have hrest : (c.skip p).rest = c.rest := by
        have hsplit := c.run_append_skip p
        rwa [hrun, List.nil_append] at hsplit
      rw [hrun, List.append_nil, hrest] at hj
      exact h.seam hj
    · obtain ⟨k, ⟨x, hx, hkx⟩, y, hy, hky⟩ := joined_append front hrun hj
      have hpx : p x = true := List.mem_takeWhile_imp (List.mem_of_getLast? hx)
      have hpy := c.lookahead_skip p y hy
      rw [hp k x y hpx hkx hky] at hpy
      exact nomatch hpy
  · intro ch hch
    exact (List.mem_append.1 hch).elim (h.alphabet ch) fun hr => ha ch (List.mem_takeWhile_imp hr)

/-- Past a mark the cursor stands behind it. -/
theorem Stands.drop {text front : List Char} {c : Cursor} (h : Stands text front c) {ch : Char}
    (hm : ch ∈ marks) (look : c.lookahead = some ch) :
    Stands text (front ++ [ch]) (c.drop 1) := by
  obtain ⟨rest, hrest⟩ := List.head?_eq_some_iff.1 look
  have hdrop : (c.drop 1).rest = rest := by simp [Cursor.drop, hrest]
  refine ⟨?_, ?_, ?_, ?_⟩
  · rw [hdrop, List.append_assoc, List.singleton_append, ← hrest, h.text_eq]
  · rw [List.length_append, ← h.position_eq]
    rfl
  · intro hj
    refine not_joined_mark (isMark_of_mem_marks hm) _ (joined_append front ?_ hj)
    exact List.cons_ne_nil ch []
  · intro x hx
    rcases List.mem_append.1 hx with hx | hx
    · exact h.alphabet x hx
    · rw [List.mem_singleton.1 hx]
      exact Or.inr (Or.inr (Or.inr hm))

/-- **BETWEEN TOKENS.** However a parser moves the cursor, it stands between tokens. -/
theorem Moves.stands {text front : List Char} {c d : Cursor} (h : Moves c d)
    (hc : Stands text front c) : ∃ front', Stands text front' d := by
  induction h with
  | refl => exact ⟨front, hc⟩
  | spaces _ ih =>
      obtain ⟨front', hd⟩ := ih
      refine ⟨_, hd.skip ?_ fun x hx => Or.inl (by simpa using hx)⟩
      intro k x y hx hkx _
      obtain rfl : x = ' ' := by simpa using hx
      exact nomatch k.holds_space.symm.trans hkx
  | mark _ hm look ih =>
      obtain ⟨front', hd⟩ := ih
      exact ⟨_, hd.drop hm look⟩
  | run k _ ih =>
      obtain ⟨front', hd⟩ := ih
      refine ⟨_, hd.skip ?_ fun x => inAlphabet_of_holds⟩
      intro k' x y hx hkx hky
      rwa [RunKind.holds_unique hx hkx]

/-- The tokens of a text are those before the cursor and those after it. -/
theorem scan_of_moves {text : List Char} {c : Cursor} (h : Moves (start text) c) :
    c.position ≤ text.length ∧ scan text = scan (text.take c.position) ++ c.tokens := by
  obtain ⟨front, htext, hpos, hseam⟩ := h.stands (stands_start text)
  have hfront : text.take c.position = front := by
    rw [htext, hpos, List.take_left]
  constructor
  · rw [htext, hpos, List.length_append]
    exact Nat.le_add_right _ _
  · rw [hfront, tokens, ← scan_append_of_not_joined front hseam, ← htext]

end Cursor

/-! ## Parsers -/

namespace Parse

open LiveArith.Parse.Parser LiveArith.Cursor

variable {α β : Type}

/-- Where the parser succeeds, it moves the cursor in the ways of a parser. -/
def Travels (p : Parser α) : Prop :=
  ∀ c a c', (p c).result = .ok (a, c') → Moves c c'

namespace Travels

/-- A parser travels if it stays where it is. -/
theorem stay {p : Parser α} (h : ∀ c a c', (p c).result = .ok (a, c') → c' = c) : Travels p := by
  intro c a c' hr
  rw [h c a c' hr]
  exact .refl

theorem pure (a : α) : Travels (Pure.pure a : Parser α) :=
  stay fun _ _ _ h => (Prod.mk.inj (Except.ok.inj h)).2.symm

/-- A sequence travels if its parts do. -/
theorem bind {p : Parser α} {f : α → Parser β} (hp : Travels p) (hf : ∀ a, Travels (f a)) :
    Travels (p >>= f) := by
  intro c b c' h
  obtain ⟨a, d, ha, hb⟩ := bind_eq_ok.1 h
  exact (hp c a d ha).trans (hf a d b c' hb)

theorem unexpected : Travels (Parser.unexpected : Parser α) :=
  fun _ _ _ h => absurd h unexpected_ne_ok

theorem exhausted : Travels (Parser.exhausted : Parser α) :=
  fun _ _ _ h => absurd h exhausted_ne_ok

theorem position : Travels Parser.position :=
  stay fun _ _ _ h => (Prod.mk.inj (Except.ok.inj h)).2.symm

theorem lookahead : Travels Parser.lookahead :=
  stay fun _ _ _ h => (Prod.mk.inj (Except.ok.inj h)).2.symm

theorem note (step : Step) : Travels (Parser.note step) :=
  stay fun _ _ _ h => (Prod.mk.inj (Except.ok.inj h)).2.symm

/-- A rule travels if its body does. -/
theorem within {rule : Rule} {room : Nat} {body : Parser α} (h : Travels body) :
    Travels (within rule room body) :=
  fun c a c' hr => h c a c' (within_eq_ok.1 hr)

/-- Taking a mark goes past spaces, and past the mark if it is there. -/
theorem take {ch : Char} (hm : ch ∈ marks) : Travels (take ch) := by
  intro c taken c' h
  have moved : Moves c c.skipSpaces := .spaces .refl
  rw [Parser.take] at h
  by_cases look : c.skipSpaces.lookahead = some ch
  · rw [if_pos look] at h
    obtain ⟨-, rfl⟩ := Prod.mk.inj (Except.ok.inj h)
    exact moved.mark hm look
  · rw [if_neg look] at h
    obtain ⟨-, rfl⟩ := Prod.mk.inj (Except.ok.inj h)
    exact moved

/-- Taking an operator goes past spaces, and past its symbol if one is there. -/
theorem takeOperator (ops : List Operator) : Travels (takeOperator ops) := by
  intro c found c' h
  have moved : Moves c c.skipSpaces := .spaces .refl
  rw [Parser.takeOperator] at h
  cases hf : ops.find? (fun op => c.skipSpaces.lookahead == some op.symbol) with
  | none =>
      simp only [hf] at h
      obtain ⟨-, rfl⟩ := Prod.mk.inj (Except.ok.inj h)
      exact moved
  | some op =>
      simp only [hf] at h
      obtain ⟨-, rfl⟩ := Prod.mk.inj (Except.ok.inj h)
      exact moved.mark (symbol_mem_marks op) (by simpa using List.find?_some hf)

/-- A number goes past its run. -/
theorem number : Travels number := by
  intro c t c' h
  obtain ⟨v, -, hr⟩ := (number_eq_ok c).1 h
  rw [(Prod.mk.inj hr).2]
  exact .run .figures .refl

/-- A name goes past its run. -/
theorem name (scope : Scope) : Travels (name scope) := by
  intro c m c' h
  obtain ⟨m', -, hr⟩ := (name_eq_ok scope c).1 h
  rw [(Prod.mk.inj hr).2]
  exact .run .letters .refl

/-- A choice travels if both sides do. -/
theorem ite {b : Prop} [Decidable b] {p q : Parser α} (h : Travels p) (h' : Travels q) :
    Travels (if b then p else q) := by
  by_cases hb : b
  · rw [if_pos hb]
    exact h
  · rw [if_neg hb]
    exact h'

variable {p q : Parser Tree}

/-- A chain travels if it does so behind each of its operators. -/
theorem chain (ops : List Operator) (left : Tree) {more : Operator → Parser Tree}
    (h : ∀ op, Travels (more op)) : Travels (chain ops left more) := by
  refine bind (takeOperator ops) fun found => ?_
  cases found with
  | none => exact pure left
  | some op => exact h op

/-- A fold travels if its operand and the rest of the chain do. -/
theorem fold {room : Nat} (left : Tree) (op : Operator) {tail : Tree → Parser Tree}
    (h : Travels p) (ht : ∀ t, Travels (tail t)) : Travels (fold room left p tail op) :=
  bind position fun _ => bind (note _) fun _ => bind h fun _ => ht _

/-- A power travels if its exponent does. -/
theorem powerOf (t : Tree) (h : Travels p) : Travels (powerOf p t) :=
  bind (take (by decide)) fun _ => ite (bind h fun _ => pure _) (pure t)

/-- A group travels if the expression in it does. -/
theorem group (h : Travels p) : Travels (group p) :=
  bind h fun _ => bind (take (by decide)) fun _ => ite (pure _) unexpected

/-- A variable or call travels if the argument does. -/
theorem named (scope : Scope) (h : Travels p) : Travels (named scope p) := by
  refine bind (name scope) fun meaning => ?_
  cases meaning with
  | cell d => exact pure _
  | builtin f => exact bind h fun _ => pure _

/-- A base travels if what can stand in it does. -/
theorem base (scope : Scope) (h : Travels p) (h' : Travels q) : Travels (base scope p q) := by
  refine bind (take (by decide)) fun _ => ite h.group (bind lookahead fun _ => ?_)
  exact ite number (ite (h'.named scope) unexpected)

/-- A factor with its signs travels if what the signs stand before does. -/
theorem signed (scope : Scope) (h : Travels (Parse.base scope p q)) (h' : Travels q) :
    Travels (signed scope p q) := by
  refine bind (take (by decide)) fun _ => ite h' (bind (take (by decide)) fun _ => ite ?_ ?_)
  · exact bind h' fun _ => pure _
  · exact bind h fun t => h'.powerOf t

end Travels

/-- **MOTION.** Where the parser of a phrase succeeds, it moves the cursor in the ways of a
    parser. -/
theorem rule_travels (scope : Scope) : ∀ phrase n, Travels (rule scope phrase n) := by
  refine rule_induction ?expression_zero ?moreTerms_zero ?moreFactors_zero ?factor_zero
    ?expression_succ ?moreTerms_succ ?moreFactors_succ ?factor_succ ?term ?base
  case expression_zero =>
    rw [rule_expression_zero]
    exact Travels.exhausted.within
  case moreTerms_zero =>
    intro left
    rw [rule_moreTerms_zero]
    exact .chain _ left fun _ => .exhausted
  case moreFactors_zero =>
    intro left
    rw [rule_moreFactors_zero]
    exact .chain _ left fun _ => .exhausted
  case factor_zero =>
    rw [rule_factor_zero]
    exact Travels.exhausted.within
  case expression_succ =>
    intro n ht hs
    rw [rule_expression_succ]
    exact (Travels.bind ht hs).within
  case moreTerms_succ =>
    intro n ht hs left
    rw [rule_moreTerms_succ]
    exact .chain _ left fun op => .fold left op ht hs
  case moreFactors_succ =>
    intro n hf hp left
    rw [rule_moreFactors_succ]
    exact .chain _ left fun op => .fold left op hf hp
  case factor_succ =>
    intro n hb hf
    rw [rule_factor_succ]
    exact (Travels.signed scope hb hf).within
  case term =>
    intro n hf hp
    rw [rule_term]
    exact (Travels.bind hf hp).within
  case base =>
    intro n he hf
    rw [rule_base]
    exact he.base scope hf

end Parse

end LiveArith
