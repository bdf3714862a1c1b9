import LiveArith.Proofs.Motion
import LiveArith.Proofs.Lockstep

/-! # Allowance — the levels that the characters read can pay for

    A parser opens levels only as it reads: two for the start of the text and two
    for each character after that.  So a parser with room for that many levels never
    lacks one, and a parser that lacks one has read half as many characters as it
    had room for.  The route:

    * `Step.Allowed limit`: the room that a step leaves is what the characters
      before it allow;
    * `Affords x p`: from place `x` on the parser `p` takes only such steps; a mark
      that is taken moves `x` on by one (`Affords.take`);
    * by rule induction each phrase affords its levels (`rule_affords`); an expression
      opens two levels before it reads, a term one and the rest of a chain none, so
      the phrases differ by `Phrase.allowance`. -/

namespace LiveArith

open LiveArith.Grammar LiveArith.Parse LiveArith.Token

/-- Moving the cursor neither goes back nor leaves the text. -/
theorem Cursor.Moves.bounds {c d : Cursor} (h : Moves c d) :
    c.position ≤ d.position ∧ d.position + d.rest.length = c.position + c.rest.length := by
  obtain ⟨passed, hrest, hpos⟩ := h.passes
  rw [hpos, hrest, List.length_append, Nat.add_assoc]
  exact ⟨Nat.le_add_right _ _, rfl⟩

/-- The levels that the text behind a cursor can open. -/
def Cursor.ample (c : Cursor) : Nat := 2 * c.rest.length + 2

/-- The levels that may be open where the phrase begins, beyond two for each character before. -/
def Grammar.Phrase.allowance : Phrase → Nat
  | .expression => 0
  | .term | .factor => 1
  | .base | .moreTerms _ | .moreFactors _ => 2

namespace Parse

open LiveArith.Parse.Parser LiveArith.Cursor

/-- Of `limit` levels no more are open than two and two for each character before the step, and
    no level is lacking behind the end of the text. -/
def Step.Allowed (limit stop : Nat) : Step → Prop
  | .opened .term place room => limit ≤ room + 2 + 2 * place
  | .opened _ place room => limit ≤ room + 1 + 2 * place
  | .folding _ place room => limit ≤ room + 2 + 2 * place
  | .exhausted place => limit ≤ 1 + 2 * place ∧ place ≤ stop
  | .closed _ _ _ | .number _ | .variableName _ _ | .functionName _ => True

variable {α β : Type} {scope : Scope} {limit stop x y : Nat}

/-- A leaf tells no level, so it is always allowed. -/
theorem Step.IsLeaf.allowed {step : Step} (h : step.IsLeaf) : step.Allowed limit stop := by
  cases step <;> first | exact True.intro | exact h.elim

/-- All steps of the run are allowed. -/
def Run.Allowed (limit stop : Nat) (r : Run α) : Prop :=
  ∀ step ∈ r.steps, step.Allowed limit stop

theorem Run.allowed_nil {r : Except ParseError (α × Cursor)} :
    Run.Allowed limit stop ⟨[], r⟩ :=
  nofun

/-- A sequence keeps to its allowance if its parts do. -/
theorem Run.Allowed.bind {p : Parser α} {f : α → Parser β} {c : Cursor}
    (h : (p c).Allowed limit stop)
    (hf : ∀ a c', (p c).result = .ok (a, c') → (f a c').Allowed limit stop) :
    ((p >>= f) c).Allowed limit stop := by
  cases hp : (p c).result with
  | error e =>
      rw [bind_of_error f hp]
      exact h
  | ok r =>
      obtain ⟨a, c'⟩ := r
      rw [bind_of_ok f hp]
      intro step hstep
      rcases List.mem_append.1 hstep with hm | hm
      · exact h step hm
      · exact hf a c' hp step hm

/-- From place `x` on, in a text that ends at `stop`, the parser takes only allowed steps. -/
def Affords (limit stop x : Nat) (p : Parser α) : Prop :=
  ∀ c : Cursor, x ≤ c.position → c.position + c.rest.length = stop → (p c).Allowed limit stop

namespace Affords

theorem pure (a : α) : Affords limit stop x (Pure.pure a : Parser α) :=
  fun _ _ _ => Run.allowed_nil

theorem unexpected : Affords limit stop x (Parser.unexpected : Parser α) :=
  fun _ _ _ => Run.allowed_nil

/-- A sequence affords its levels if its parts do: the second begins no earlier than the first. -/
theorem bind {p : Parser α} {f : α → Parser β} (ht : Travels p) (h : Affords limit stop x p)
    (hf : ∀ a, Affords limit stop x (f a)) : Affords limit stop x (p >>= f) := by
  intro c hx hstop
  refine (h c hx hstop).bind fun a c' hc => ?_
  obtain ⟨hle, hlen⟩ := (ht c a c' hc).bounds
  exact hf a c' (Nat.le_trans hx hle) (hlen.trans hstop)

/-- What comes after a mark is read from the next place on. -/
theorem take {ch : Char} (hm : ch ∈ marks) {f : Bool → Parser β}
    (h : Affords limit stop (x + 1) (f true)) (h' : Affords limit stop x (f false)) :
    Affords limit stop x (take ch >>= f) := by
  intro c hx hstop
  have hskip : Moves c c.skipSpaces := .spaces .refl
  by_cases look : c.skipSpaces.lookahead = some ch
  · have htake : Parser.take ch c = ⟨[], .ok (true, c.skipSpaces.drop 1)⟩ := if_pos look
    rw [bind_of_eq f htake]
    refine h _ (Nat.succ_le_succ (Nat.le_trans hx hskip.bounds.1)) ?_
    exact (hskip.mark hm look).bounds.2.trans hstop
  · have htake : Parser.take ch c = ⟨[], .ok (false, c.skipSpaces)⟩ := if_neg look
    rw [bind_of_eq f htake]
    exact h' _ (Nat.le_trans hx hskip.bounds.1) (hskip.bounds.2.trans hstop)

/-- A chain affords its levels if what comes behind its operators does, a place later. -/
theorem chain {ops : List Operator} {left : Tree} {more : Operator → Parser Tree}
    (h : ∀ op, Affords limit stop (x + 1) (more op)) :
    Affords limit stop x (chain ops left more) := by
  intro c hx hstop
  have hskip : Moves c c.skipSpaces := .spaces .refl
  cases hf : ops.find? fun op => c.skipSpaces.lookahead == some op.symbol with
  | none =>
      have htake : takeOperator ops c = ⟨[], .ok (none, c.skipSpaces)⟩ := by
        simp only [takeOperator, hf]
      rw [Parse.chain, bind_of_eq _ htake]
      exact Run.allowed_nil
  | some op =>
      have look : c.skipSpaces.lookahead = some op.symbol := by simpa using List.find?_some hf
      have htake : takeOperator ops c = ⟨[], .ok (some op, c.skipSpaces.drop 1)⟩ := by
        simp only [takeOperator, hf]
      rw [Parse.chain, bind_of_eq _ htake]
      refine h op _ (Nat.succ_le_succ (Nat.le_trans hx hskip.bounds.1)) ?_
      exact (hskip.mark (symbol_mem_marks op) look).bounds.2.trans hstop

/-- Levels may run out where the limit is two for each place before, and one, or less. -/
theorem exhausted (h : limit ≤ 1 + 2 * x) :
    Affords limit stop x (Parser.exhausted : Parser Tree) := by
  intro c hx hstop step hstep
  have hlimit : limit ≤ 1 + 2 * c.position := by omega
  rw [List.mem_singleton.1 hstep]
  exact ⟨hlimit, by omega⟩

variable {p q : Parser Tree}

/-- A rule affords its level if it may be opened at every place from here on. -/
theorem within {rule : Rule} {room : Nat}
    (hr : ∀ y, x ≤ y → (Step.opened rule y room).Allowed limit stop)
    (h : Affords limit stop x p) : Affords limit stop x (within rule room p) := by
  intro c hx hstop step hstep
  cases hp : (p c).result with
  | error e =>
      rw [within_of_error hp] at hstep
      rcases List.mem_cons.1 hstep with rfl | hm
      · exact hr _ hx
      · exact h c hx hstop step hm
  | ok r =>
      obtain ⟨a, c'⟩ := r
      rw [within_of_ok hp] at hstep
      rcases List.mem_cons.1 hstep with rfl | hm
      · exact hr _ hx
      rcases List.mem_append.1 hm with hm | hm
      · exact h c hx hstop step hm
      · rw [List.mem_singleton.1 hm]
        exact True.intro

/-- A fold affords the level that it counts if its operand is left room enough. -/
theorem fold {room : Nat} {left : Tree} {tail : Tree → Parser Tree} (op : Operator)
    (hr : limit ≤ room + 2 + 2 * x) (ht : Travels p) (h : Affords limit stop x p)
    (htail : ∀ t, Affords limit stop x (tail t)) :
    Affords limit stop x (fold room left p tail op) := by
  rw [fold_eq]
  intro c hx hstop
  refine Run.Allowed.bind (fun step hstep => ?_) fun _ c' hc => ?_
  · rw [List.mem_singleton.1 hstep]
    have hlimit : limit ≤ room + 2 + 2 * c.position := by omega
    exact hlimit
  · obtain ⟨-, rfl⟩ := Prod.mk.inj (Except.ok.inj hc)
    exact bind ht h (fun t => htail _) c hx hstop

/-- A power affords its levels if its exponent does, a place later. -/
theorem powerOf (t : Tree) (ht : Travels p) (h : Affords limit stop (x + 1) p) :
    Affords limit stop x (powerOf p t) := by
  refine take (by decide) ?_ (pure t)
  exact bind ht h fun u => pure _

/-- A group affords its levels if the expression in it does. -/
theorem group (ht : Travels p) (h : Affords limit stop x p) : Affords limit stop x (group p) := by
  refine bind ht h fun t => take (by decide) ?_ unexpected
  exact pure t

/-- A leaf needs no level. -/
theorem leaf (scope : Scope) (k : RunKind) : Affords limit stop x (leaf scope k) := by
  intro c _ _
  cases h : reading? scope k (c.run k.holds) with
  | none =>
      rw [leaf_of_none h]
      exact Run.allowed_nil
  | some r =>
      rw [leaf_of_some h]
      intro step hstep
      rw [List.mem_singleton.1 hstep]
      exact (isLeaf_of_reading? h).allowed

theorem number : Affords limit stop x number :=
  leaf_figures Scope.empty ▸ leaf Scope.empty .figures

theorem name (scope : Scope) : Affords limit stop x (name scope) :=
  leaf_letters scope ▸ leaf scope .letters

/-- The argument of a function is read past its name, which has a letter. -/
theorem named (h : Affords limit stop (x + 1) p) {c : Cursor} (hx : x ≤ c.position)
    (hstop : c.position + c.rest.length = stop) (hc : c.lookahead.any Scope.isLetter = true) :
    (named scope p c).Allowed limit stop := by
  have hlt : c.position < (c.skip Scope.isLetter).position := by
    obtain ⟨q, rest⟩ := c
    cases rest with
    | nil => exact nomatch hc
    | cons ch rest =>
        have hch : Scope.isLetter ch = true := hc
        show q < q + ((ch :: rest).takeWhile Scope.isLetter).length
        rw [List.takeWhile_cons_of_pos hch, List.length_cons]
        omega
  refine Run.Allowed.bind (name scope c hx hstop) fun meaning c' hname => ?_
  obtain ⟨m, -, hr⟩ := (name_eq_ok scope c).1 hname
  obtain ⟨rfl, rfl⟩ := Prod.mk.inj hr
  cases meaning with
  | cell d => exact Run.allowed_nil
  | builtin f =>
      refine Run.Allowed.bind ?_ fun t c' _ => Run.allowed_nil
      exact h _ (Nat.lt_of_le_of_lt hx hlt) ((c.skip_position _).trans hstop)

/-- A base affords its levels if what can stand in it does, a place later. -/
theorem base (ht : Travels p) (h : Affords limit stop (x + 1) p)
    (h' : Affords limit stop (x + 1) q) : Affords limit stop x (base scope p q) := by
  refine take (by decide) (group ht h) fun c hx hstop => ?_
  rw [if_neg Bool.false_ne_true, bind_of_eq _ (p := lookahead) rfl]
  by_cases hf : c.lookahead.any Literal.isFigure = true
  · rw [if_pos hf]
    exact number c hx hstop
  · rw [if_neg hf]
    by_cases hl : c.lookahead.any Scope.isLetter = true
    · rw [if_pos hl]
      exact h'.named hx hstop hl
    · rw [if_neg hl]
      exact Run.allowed_nil

/-- A factor affords its levels if its base does, and what its signs stand before a place later. -/
theorem signed (hb : Travels (Parse.base scope p q)) (hq : Travels q)
    (h : Affords limit stop x (Parse.base scope p q)) (h' : Affords limit stop (x + 1) q) :
    Affords limit stop x (signed scope p q) := by
  refine take (by decide) h' (take (by decide) ?_ ?_)
  · exact bind hq h' fun t => pure _
  · exact bind hb h fun t => powerOf t hq h'

end Affords

/-- **ALLOWANCE.** Where the characters before a place allow for the levels that are open, the
    parser of a phrase takes only allowed steps from there on. -/
theorem rule_affords (scope : Scope) (limit stop : Nat) : ∀ phrase n, ∀ x,
    limit ≤ n + 2 * x + phrase.allowance → Affords limit stop x (rule scope phrase n) := by
  refine rule_induction ?expression_zero ?moreTerms_zero ?moreFactors_zero ?factor_zero
    ?expression_succ ?moreTerms_succ ?moreFactors_succ ?factor_succ ?term ?base
  all_goals simp only [Phrase.allowance]
  case expression_zero =>
    intro x hx
    rw [rule_expression_zero]
    refine .within (fun y hy => ?_) (.exhausted ?_)
    · show limit ≤ 0 + 1 + 2 * y
      omega
    · omega
  case moreTerms_zero =>
    intro left x hx
    rw [rule_moreTerms_zero]
    exact .chain fun _ => .exhausted (by omega)
  case moreFactors_zero =>
    intro left x hx
    rw [rule_moreFactors_zero]
    exact .chain fun _ => .exhausted (by omega)
  case factor_zero =>
    intro x hx
    rw [rule_factor_zero]
    refine .within (fun y hy => ?_) (.exhausted ?_)
    · show limit ≤ 0 + 1 + 2 * y
      omega
    · omega
  case expression_succ =>
    intro n ht hs x hx
    rw [rule_expression_succ]
    refine .within (fun y hy => ?_) (.bind (rule_travels scope .term n) (ht x ?_) fun left => ?_)
    · show limit ≤ n + 1 + 1 + 2 * y
      omega
    · omega
    · exact hs left x (by omega)
  case moreTerms_succ =>
    intro n ht hs left x hx
    rw [rule_moreTerms_succ]
    refine .chain fun op => .fold op ?_ (rule_travels scope .term n) (ht _ ?_) fun t => hs t _ ?_
    all_goals omega
  case moreFactors_succ =>
    intro n hf hp left x hx
    rw [rule_moreFactors_succ]
    refine .chain fun op => .fold op ?_ (rule_travels scope .factor n) (hf _ ?_) fun t => hp t _ ?_
    all_goals omega
  case factor_succ =>
    intro n hb hf x hx
    rw [rule_factor_succ]
    refine .within (fun y hy => ?_) (.signed (rule_travels scope .base n)
      (rule_travels scope .factor n) (hb x ?_) (hf _ ?_))
    · show limit ≤ n + 1 + 1 + 2 * y
      omega
    · omega
    · omega
  case term =>
    intro n hf hp x hx
    rw [rule_term]
    refine .within (fun y hy => ?_) (.bind (rule_travels scope .factor n) (hf x hx) fun left => ?_)
    · show limit ≤ n + 2 + 2 * y
      omega
    · exact hp left x (by omega)
  case base =>
    intro n he hf x hx
    rw [rule_base]
    refine .base (rule_travels scope .expression n) (he _ ?_) (hf _ ?_)
    all_goals omega

/-- With room for the text that is left no level is wanting. -/
theorem rule_ample (scope : Scope) (phrase : Phrase) (c : Cursor) :
    ¬ Exhausts (rule scope phrase c.ample c) := by
  intro h
  obtain ⟨place, hmem⟩ := h.mem
  have hallowed : c.ample + 2 * c.position ≤ 1 + 2 * place ∧ place ≤ c.position + c.rest.length :=
    rule_affords scope _ _ phrase c.ample c.position (Nat.le_add_right _ _) c (Nat.le_refl _) rfl _
      hmem
  rw [Cursor.ample] at hallowed
  omega

/-- Every step of a whole text is allowed. -/
theorem formula_allowed (scope : Scope) (n : Nat) (text : List Char) :
    (formula scope n (.start text)).Allowed n text.length := by
  rw [formula_eq]
  refine Run.Allowed.bind ?_ fun t c _ => ?_
  · exact rule_affords scope n text.length .expression n 0 (Nat.le_refl _) _ (Nat.le_refl _)
      (Nat.zero_add _)
  · rw [ending_apply]
    split <;> exact Run.allowed_nil

/-- With two levels for each character and two more a text does not run out of them. -/
theorem formula_ample (scope : Scope) (text : List Char) :
    ¬ Exhausts (formula scope (Cursor.start text).ample (.start text)) := by
  intro h
  obtain ⟨place, hmem⟩ := h.mem
  have hallowed : (Cursor.start text).ample ≤ 1 + 2 * place ∧ place ≤ text.length :=
    formula_allowed scope _ text _ hmem
  have hample : (Cursor.start text).ample = 2 * text.length + 2 := rfl
  omega

end Parse

end LiveArith
