import LiveArith.Grammar
import LiveArith.Parse.Descent

/-! # Rules — the parser of each phrase of the grammar

    One parser belongs to each phrase of the grammar (`rule`), and each is made of
    the parsers of its parts.  A property of all of them is proved once for each
    phrase, from the parts, by `rule_induction`: the recursion is on the room and,
    at the same room, from an expression down to a base.

    The lemmas before it say when the makings of a rule succeed, so that the proofs
    about phrases need not open them. -/

namespace LiveArith.Parse

open LiveArith.Grammar LiveArith.Parse.Parser

namespace Parser

variable {α β : Type} {c : Cursor}

/-- A rule succeeds exactly where its body does. -/
theorem within_eq_ok {rule : Rule} {room : Nat} {body : Parser α} {r : α × Cursor} :
    (within rule room body c).result = .ok r ↔ (body c).result = .ok r := by
  obtain ⟨a, c'⟩ := r
  have h : (within rule room body c).result
      = ((body >>= fun a => do note (.closed rule c.position (← position)); return a) c).result :=
    rfl
  rw [h, bind_eq_ok]
  constructor
  · rintro ⟨b, d, hb, hr⟩
    cases hr
    exact hb
  · intro hb
    exact ⟨a, c', hb, rfl⟩

/-- A rule that fails records its opening before what its body records. -/
theorem within_of_error {rule : Rule} {room : Nat} {body : Parser α} {e : ParseError}
    (h : (body c).result = .error e) :
    within rule room body c = ⟨.opened rule c.position room :: (body c).steps, .error e⟩ := by
  have hb : within rule room body c = ⟨.opened rule c.position room ::
      ((body >>= fun a => do note (.closed rule c.position (← position)); return a) c).steps,
      ((body >>= fun a => do note (.closed rule c.position (← position)); return a) c).result⟩ :=
    rfl
  rw [hb, bind_of_error _ h]

/-- A rule that succeeds records its close as well. -/
theorem within_of_ok {rule : Rule} {room : Nat} {body : Parser α} {a : α} {c' : Cursor}
    (h : (body c).result = .ok (a, c')) :
    within rule room body c = ⟨.opened rule c.position room ::
      ((body c).steps ++ [.closed rule c.position c'.position]), .ok (a, c')⟩ := by
  have hb : within rule room body c = ⟨.opened rule c.position room ::
      ((body >>= fun a => do note (.closed rule c.position (← position)); return a) c).steps,
      ((body >>= fun a => do note (.closed rule c.position (← position)); return a) c).result⟩ :=
    rfl
  rw [hb, bind_of_ok _ h]
  rfl

theorem exhausted_ne_ok {r : α × Cursor} : (exhausted c : Run α).result ≠ .ok r :=
  fun h => nomatch h

theorem unexpected_ne_ok {r : α × Cursor} : (unexpected c : Run α).result ≠ .ok r :=
  fun h => nomatch h

/-- Past a parser without steps, the next one goes on from where it ended. -/
theorem bind_of_eq {p : Parser α} (f : α → Parser β) {a : α} {c' : Cursor}
    (h : p c = ⟨[], .ok (a, c')⟩) : (p >>= f) c = f a c' := by
  rw [bind_of_ok f (by rw [h]), h]
  rfl

end Parser

/-- A fold adds to its parts only a step. -/
theorem fold_result (room : Nat) (left : Tree) (operand : Parser Tree) (tail : Tree → Parser Tree)
    (op : Operator) (c : Cursor) :
    (fold room left operand tail op c).result =
      ((operand >>= fun t => tail (.binary left op t)) c).result := rfl

/-- Without a parenthesis the next character tells the kind of the base. -/
theorem base_of_take {scope : Scope} {expression factor : Parser Tree} {c c' : Cursor}
    (h : take '(' c = ⟨[], .ok (false, c')⟩) :
    base scope expression factor c =
      (if c'.lookahead.any Literal.isFigure then number
        else if c'.lookahead.any Scope.isLetter then named scope factor
        else unexpected) c' := by
  rw [base, bind_of_eq _ h]
  rfl

section Leaves

variable (scope : Scope) (c : Cursor)

/-- A number is read off the longest run of digits and dots. -/
theorem number_apply :
    number c = match Literal.read? (c.run Literal.isFigure) with
      | some v => ⟨[.number v], .ok (.constant v, c.skip Literal.isFigure)⟩
      | none =>
        ⟨[], .error (.invalidNumber (String.ofList (c.run Literal.isFigure)) c.position)⟩ := by
  unfold number
  simp only [bind, position, takeRun]
  cases Literal.read? (c.run Literal.isFigure) <;> rfl

/-- A name is read off the longest run of letters, by its meaning in the scope. -/
theorem name_apply :
    name scope c = match scope.meaning? (String.ofList (c.run Scope.isLetter)) with
      | some (.cell d) =>
        ⟨[.variableName (String.ofList (c.run Scope.isLetter)) d],
          .ok (.cell d, c.skip Scope.isLetter)⟩
      | some (.builtin f) => ⟨[.functionName f], .ok (.builtin f, c.skip Scope.isLetter)⟩
      | none =>
        ⟨[], .error (.unknownFunction (String.ofList (c.run Scope.isLetter)) c.position)⟩ := by
  unfold name
  simp only [bind, position, takeRun]
  cases scope.meaning? (String.ofList (c.run Scope.isLetter)) with
  | none => rfl
  | some m => cases m <;> rfl

/-- A number is read exactly if its run is a literal. -/
theorem number_eq_ok {r : Tree × Cursor} :
    (number c).result = .ok r ↔ ∃ v, Literal.read? (c.run Literal.isFigure) = some v ∧
      r = (.constant v, c.skip Literal.isFigure) := by
  rw [number_apply]
  cases Literal.read? (c.run Literal.isFigure) with
  | none => simp
  | some v => simp [eq_comm]

/-- A name is read exactly if it means something. -/
theorem name_eq_ok {r : Meaning × Cursor} :
    (name scope c).result = .ok r ↔ ∃ m,
      scope.meaning? (String.ofList (c.run Scope.isLetter)) = some m ∧
        r = (m, c.skip Scope.isLetter) := by
  rw [name_apply]
  cases scope.meaning? (String.ofList (c.run Scope.isLetter)) with
  | none => simp
  | some m => cases m <;> simp [eq_comm]

end Leaves

/-- The parser of a phrase. -/
def rule (scope : Scope) : Phrase → Nat → Parser Tree
  | .expression, n => expression scope n
  | .term, n => term scope n
  | .factor, n => factor scope n
  | .base, n => base scope (expression scope n) (factor scope n)
  | .moreTerms left, n => sumTail scope n left
  | .moreFactors left, n => productTail scope n left

section Equations

variable (scope : Scope) (n : Nat) (left : Tree)

theorem rule_expression_zero :
    rule scope .expression 0 = within .expression 0 exhausted := by
  simp only [rule, expression]

/-- An expression takes a level for its first term and for the sums that go on from it. -/
theorem rule_expression_succ :
    rule scope .expression (n + 1) =
      within .expression (n + 1)
        (do rule scope (.moreTerms (← rule scope .term n)) n) := by
  simp only [rule, expression, term]

theorem rule_term :
    rule scope .term n =
      within .term n (do rule scope (.moreFactors (← rule scope .factor n)) n) := by
  simp only [rule, term, termOf]

theorem rule_moreTerms_zero :
    rule scope (.moreTerms left) 0 = chain Operator.additive left fun _ => exhausted := by
  simp only [rule, sumTail]

/-- Each sum of a chain takes a level. -/
theorem rule_moreTerms_succ :
    rule scope (.moreTerms left) (n + 1) =
      chain Operator.additive left
        (fold n left (rule scope .term n) fun t => rule scope (.moreTerms t) n) := by
  simp only [rule, sumTail, term]

theorem rule_moreFactors_zero :
    rule scope (.moreFactors left) 0 =
      chain Operator.multiplicative left fun _ => exhausted := by
  simp only [rule, productTail]

/-- Each product of a chain takes a level. -/
theorem rule_moreFactors_succ :
    rule scope (.moreFactors left) (n + 1) =
      chain Operator.multiplicative left
        (fold n left (rule scope .factor n) fun t => rule scope (.moreFactors t) n) := by
  simp only [rule, productTail]

theorem rule_factor_zero : rule scope .factor 0 = within .factor 0 exhausted := by
  simp only [rule, factor]

theorem rule_factor_succ :
    rule scope .factor (n + 1) =
      within .factor (n + 1) (signed scope (rule scope .expression n) (rule scope .factor n)) := by
  simp only [rule, factor]

theorem rule_base :
    rule scope .base n = base scope (rule scope .expression n) (rule scope .factor n) := rfl

end Equations

/-- **RULE INDUCTION.** What each phrase has if its parts have it, and has where no level is
    left, every phrase has at every room. -/
theorem rule_induction {motive : Phrase → Nat → Prop}
    (expression_zero : motive .expression 0)
    (moreTerms_zero : ∀ left, motive (.moreTerms left) 0)
    (moreFactors_zero : ∀ left, motive (.moreFactors left) 0)
    (factor_zero : motive .factor 0)
    (expression_succ : ∀ n, motive .term n → (∀ left, motive (.moreTerms left) n) →
      motive .expression (n + 1))
    (moreTerms_succ : ∀ n, motive .term n → (∀ left, motive (.moreTerms left) n) →
      ∀ left, motive (.moreTerms left) (n + 1))
    (moreFactors_succ : ∀ n, motive .factor n → (∀ left, motive (.moreFactors left) n) →
      ∀ left, motive (.moreFactors left) (n + 1))
    (factor_succ : ∀ n, motive .base n → motive .factor n → motive .factor (n + 1))
    (term : ∀ n, motive .factor n → (∀ left, motive (.moreFactors left) n) → motive .term n)
    (base : ∀ n, motive .expression n → motive .factor n → motive .base n) :
    ∀ phrase n, motive phrase n := by
  have main : ∀ n, motive .expression n ∧ (∀ left, motive (.moreTerms left) n) ∧
      (∀ left, motive (.moreFactors left) n) ∧ motive .factor n := by
    intro n
    induction n with
    | zero => exact ⟨expression_zero, moreTerms_zero, moreFactors_zero, factor_zero⟩
    | succ n ih =>
        obtain ⟨he, hs, hp, hf⟩ := ih
        have ht := term n hf hp
        exact ⟨expression_succ n ht hs, moreTerms_succ n ht hs, moreFactors_succ n hf hp,
          factor_succ n (base n he hf) hf⟩
  intro phrase n
  obtain ⟨he, hs, hp, hf⟩ := main n
  cases phrase with
  | expression => exact he
  | term => exact term n hf hp
  | factor => exact hf
  | base => exact base n he hf
  | moreTerms left => exact hs left
  | moreFactors left => exact hp left

end LiveArith.Parse
