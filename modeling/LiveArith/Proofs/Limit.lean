import LiveArith.Proofs.Rules

/-! # The limit — less room refuses more and alters nothing

    With less room a parser comes to what it comes to with more, or it ends where
    a level was needed and none was left; then its last step says so, and its
    error is the one raised there.  The route:

    * `Curbed p q`: from every cursor `p` runs out of levels or comes to what `q`
      comes to;
    * every way to put parsers together keeps this (`Curbed.bind` and the makings
      of the rules);
    * rule induction gives it for the rules (`rule_curbed`), and so for whole texts
      (`formula_curbed`). -/

namespace LiveArith.Parse

open LiveArith.Grammar LiveArith.Parse.Parser

variable {α β : Type}

/-- The run ended because a level was needed and none was left. -/
def Exhausts (r : Run α) : Prop :=
  ∃ found p, r.result = .error (.unexpectedCharacter found p) ∧
    r.steps.getLast? = some (.exhausted p)

/-- A run that ended for want of a level shows it among its steps. -/
theorem Exhausts.mem {r : Run α} (h : Exhausts r) : ∃ p, Step.exhausted p ∈ r.steps := by
  obtain ⟨-, p, -, hl⟩ := h
  exact ⟨p, List.mem_of_getLast? hl⟩

/-- A sequence runs out of levels where its first part does. -/
theorem Exhausts.bind_left {p : Parser α} (f : α → Parser β) {c : Cursor} (h : Exhausts (p c)) :
    Exhausts ((p >>= f) c) := by
  obtain ⟨found, x, he, hl⟩ := h
  rw [bind_of_error f he]
  exact ⟨found, x, rfl, hl⟩

/-- A sequence runs out of levels where its second part does; the steps of the first part come
    before the one that tells. -/
theorem Exhausts.bind_right {p : Parser α} {f : α → Parser β} {a : α} {c c' : Cursor}
    (hp : (p c).result = .ok (a, c')) (h : Exhausts (f a c')) : Exhausts ((p >>= f) c) := by
  obtain ⟨found, x, he, hl⟩ := h
  rw [bind_of_ok f hp]
  refine ⟨found, x, he, ?_⟩
  show ((p c).steps ++ (f a c').steps).getLast? = _
  rw [List.getLast?_append, hl]
  rfl

/-- A rule runs out of levels where its body does. -/
theorem Exhausts.within {rule : Rule} {room : Nat} {body : Parser α} {c : Cursor}
    (h : Exhausts (body c)) : Exhausts (within rule room body c) := by
  obtain ⟨found, x, he, hl⟩ := h
  rw [within_of_error he]
  exact ⟨found, x, rfl, by rw [List.getLast?_cons, hl]; rfl⟩

/-- `p` comes to what `q` comes to, or it runs out of levels. -/
def Curbed (p q : Parser α) : Prop :=
  ∀ c, Exhausts (p c) ∨ (p c).result = (q c).result

namespace Curbed

theorem refl (p : Parser α) : Curbed p p :=
  fun _ => Or.inr rfl

/-- Running out of levels curbs any parser. -/
theorem exhausted (q : Parser α) : Curbed Parser.exhausted q :=
  fun c => Or.inl ⟨c.lookahead, c.position, rfl, rfl⟩

/-- A sequence is curbed if its parts are. -/
theorem bind {p q : Parser α} {f g : α → Parser β} (hp : Curbed p q)
    (hf : ∀ a, Curbed (f a) (g a)) : Curbed (p >>= f) (q >>= g) := by
  intro c
  rcases hp c with he | hr
  · exact Or.inl (he.bind_left f)
  cases hq : (q c).result with
  | error e =>
      rw [hq] at hr
      exact Or.inr (by rw [bind_of_error f hr, bind_of_error g hq])
  | ok x =>
      obtain ⟨a, c'⟩ := x
      rw [hq] at hr
      rcases hf a c' with he | hr'
      · exact Or.inl (he.bind_right hr)
      · rw [bind_of_ok f hr, bind_of_ok g hq]
        exact Or.inr hr'

/-- The room that a rule records makes no difference. -/
theorem within {rule : Rule} {n m : Nat} {p q : Parser α} (h : Curbed p q) :
    Curbed (within rule n p) (within rule m q) := by
  refine bind (refl _) fun start => bind (fun c => Or.inr rfl) fun _ => ?_
  exact bind h fun a => refl _

variable {p q : Parser Tree}

/-- A choice is curbed if both sides are. -/
theorem ite {b : Prop} [Decidable b] {p' q' : Parser Tree} (h : Curbed p q)
    (h' : Curbed p' q') : Curbed (if b then p else p') (if b then q else q') := by
  by_cases hb : b
  · rw [if_pos hb, if_pos hb]
    exact h
  · rw [if_neg hb, if_neg hb]
    exact h'

/-- A chain is curbed if what comes behind its operators is. -/
theorem chain (ops : List Operator) (left : Tree) {f g : Operator → Parser Tree}
    (h : ∀ op, Curbed (f op) (g op)) : Curbed (chain ops left f) (chain ops left g) := by
  refine bind (refl _) fun found => ?_
  cases found with
  | none => exact refl _
  | some op => exact h op

/-- A fold is curbed if its operand and the rest of the chain are, whatever room it records. -/
theorem fold {n m : Nat} (left : Tree) (op : Operator) {f g : Tree → Parser Tree}
    (h : Curbed p q) (hf : ∀ t, Curbed (f t) (g t)) :
    Curbed (fold n left p f op) (fold m left q g op) := by
  refine bind (refl _) fun place => bind (fun c => Or.inr rfl) fun _ => ?_
  exact bind h fun t => hf _

/-- A power is curbed if its exponent is. -/
theorem powerOf (t : Tree) (h : Curbed p q) : Curbed (powerOf p t) (powerOf q t) := by
  refine bind (refl _) fun taken => ite ?_ (refl _)
  exact bind h fun u => refl _

/-- A group is curbed if the expression in it is. -/
theorem group (h : Curbed p q) : Curbed (group p) (group q) :=
  bind h fun _ => refl _

/-- A variable or call is curbed if the argument is. -/
theorem named (scope : Scope) (h : Curbed p q) : Curbed (named scope p) (named scope q) := by
  refine bind (refl _) fun meaning => ?_
  cases meaning with
  | cell d => exact refl _
  | builtin f => exact bind h fun t => refl _

/-- A base is curbed if what can stand in it is. -/
theorem base (scope : Scope) {p' q' : Parser Tree} (h : Curbed p q) (h' : Curbed p' q') :
    Curbed (base scope p p') (base scope q q') := by
  refine bind (refl _) fun taken => ite h.group (bind (refl _) fun next => ?_)
  exact ite (refl _) (ite (h'.named scope) (refl _))

/-- A factor is curbed if its base is, and what its signs stand before. -/
theorem signed (scope : Scope) {p' q' : Parser Tree}
    (h : Curbed (Parse.base scope p p') (Parse.base scope q q')) (h' : Curbed p' q') :
    Curbed (signed scope p p') (signed scope q q') := by
  refine bind (refl _) fun plus => ite h' (bind (refl _) fun minus => ite ?_ ?_)
  · exact bind h' fun t => refl _
  · exact bind h fun t => h'.powerOf t

end Curbed

/-- One level more derives the same. -/
theorem derives_succ {scope : Scope} {phrase : Phrase} {n : Nat} {ts : List Token} {t : Tree}
    (h : Derives scope phrase n ts t) : Derives scope phrase (n + 1) ts t := by
  induction h with
  | expression _ _ ih₁ ih₂ => exact .expression ih₁ ih₂
  | term _ _ ih₁ ih₂ => exact .term ih₁ ih₂
  | lastTerm => exact .lastTerm
  | nextTerm hop _ _ ih₁ ih₂ => exact .nextTerm hop ih₁ ih₂
  | lastFactor => exact .lastFactor
  | nextFactor hop _ _ ih₁ ih₂ => exact .nextFactor hop ih₁ ih₂
  | plus _ ih => exact .plus ih
  | minus _ ih => exact .minus ih
  | call hf _ ih => exact .call hf ih
  | bare _ ih => exact .bare ih
  | power _ _ ih₁ ih₂ => exact .power ih₁ ih₂
  | group _ ih => exact .group ih
  | number hv => exact .number hv
  | name hc => exact .name hc

/-- What is derived with some room is derived with more. -/
theorem derives_mono {scope : Scope} {phrase : Phrase} {n m : Nat} {ts : List Token} {t : Tree}
    (h : Derives scope phrase n ts t) (hm : n ≤ m) : Derives scope phrase m ts t := by
  induction hm with
  | refl => exact h
  | step _ ih => exact derives_succ ih

/-- **THE LIMIT.** The parser of a phrase with less room comes to what it comes to with more,
    or runs out of levels. -/
theorem rule_curbed (scope : Scope) : ∀ phrase n, ∀ m, n ≤ m →
    Curbed (rule scope phrase n) (rule scope phrase m) := by
  refine rule_induction ?expression_zero ?moreTerms_zero ?moreFactors_zero ?factor_zero
    ?expression_succ ?moreTerms_succ ?moreFactors_succ ?factor_succ ?term ?base
  case expression_zero =>
    intro m _
    rw [rule_expression_zero]
    -- with more room the rule is another one, which curbs this one all the same
    cases m with
    | zero => rw [rule_expression_zero]; exact Curbed.refl _
    | succ m => rw [rule_expression_succ]; exact (Curbed.exhausted _).within
  case moreTerms_zero =>
    intro left m _
    rw [rule_moreTerms_zero]
    cases m with
    | zero => rw [rule_moreTerms_zero]; exact Curbed.refl _
    | succ m => rw [rule_moreTerms_succ]; exact .chain _ _ fun op => .exhausted _
  case moreFactors_zero =>
    intro left m _
    rw [rule_moreFactors_zero]
    cases m with
    | zero => rw [rule_moreFactors_zero]; exact Curbed.refl _
    | succ m => rw [rule_moreFactors_succ]; exact .chain _ _ fun op => .exhausted _
  case factor_zero =>
    intro m _
    rw [rule_factor_zero]
    cases m with
    | zero => rw [rule_factor_zero]; exact Curbed.refl _
    | succ m => rw [rule_factor_succ]; exact (Curbed.exhausted _).within
  case expression_succ =>
    intro n ht hs m hnm
    obtain ⟨m, rfl⟩ := Nat.exists_eq_add_of_lt hnm
    rw [rule_expression_succ, rule_expression_succ]
    exact (Curbed.bind (ht _ (by omega)) fun left => hs left _ (by omega)).within
  case moreTerms_succ =>
    intro n ht hs left m hnm
    obtain ⟨m, rfl⟩ := Nat.exists_eq_add_of_lt hnm
    rw [rule_moreTerms_succ, rule_moreTerms_succ]
    exact .chain _ _ fun op => .fold left op (ht _ (by omega)) fun t => hs t _ (by omega)
  case moreFactors_succ =>
    intro n hf hp left m hnm
    obtain ⟨m, rfl⟩ := Nat.exists_eq_add_of_lt hnm
    rw [rule_moreFactors_succ, rule_moreFactors_succ]
    exact .chain _ _ fun op => .fold left op (hf _ (by omega)) fun t => hp t _ (by omega)
  case factor_succ =>
    intro n hb hf m hnm
    obtain ⟨m, rfl⟩ := Nat.exists_eq_add_of_lt hnm
    rw [rule_factor_succ, rule_factor_succ]
    exact (Curbed.signed scope (hb _ (by omega)) (hf _ (by omega))).within
  case term =>
    intro n hf hp m hnm
    rw [rule_term, rule_term]
    exact (Curbed.bind (hf m hnm) fun left => hp left m hnm).within
  case base =>
    intro n he hf m hnm
    rw [rule_base, rule_base]
    exact (he m hnm).base scope (hf m hnm)

/-- With less room a whole text comes to what it comes to with more, or it runs out of levels. -/
theorem formula_curbed (scope : Scope) {n m : Nat} (h : n ≤ m) :
    Curbed (formula scope n) (formula scope m) :=
  .bind (rule_curbed scope .expression n m h) fun _ => .refl _

end LiveArith.Parse
