import LiveArith.Proofs.Reading
import LiveArith.Proofs.Rules

/-! # Soundness — what a rule has read is a phrase

    A rule that succeeds has taken the tokens of a phrase with the tree it gives,
    within its room, and has stopped where no more of the phrase can follow.  The
    route:

    * each making of a rule is turned around once: a success says which of the
      ways to succeed it was (`chain_eq_ok` … `base_eq_ok`);
    * rule induction gives the phrase and the stop together, because a call is
      read among the bases and counts as a whole factor only for what stopped its
      argument (`rule_sound`). -/

namespace LiveArith

namespace Grammar.Phrase

/-- The operators with which a chain goes on. -/
def operators : Phrase → List Operator
  | expression => Operator.additive
  | moreTerms _ => Operator.additive
  | term => Operator.multiplicative
  | moreFactors _ => Operator.multiplicative
  | factor => []
  | base => []

def operand : Phrase → Phrase
  | expression => term
  | moreTerms _ => term
  | _ => factor

/-- The characters with which more of a phrase would follow; the space is one of them, for
    it is skipped before the next character is looked at. -/
def continues : Phrase → List Char
  | base => []
  | factor => [' ', '^']
  | term => [' ', '^', '*', '/']
  | moreFactors _ => [' ', '^', '*', '/']
  | expression => [' ', '^', '*', '/', '+', '-']
  | moreTerms _ => [' ', '^', '*', '/', '+', '-']

/-- A chain goes on as its last operand would or with one of its operators. -/
theorem continues_chain {phrase : Phrase} (h : phrase.operators ≠ []) :
    phrase.continues = phrase.operand.continues ++ phrase.operators.map Operator.symbol := by
  cases phrase with
  | factor => exact absurd rfl h
  | base => exact absurd rfl h
  | _ => rfl

/-- A phrase goes on with the symbols of its operators. -/
theorem symbol_mem_continues {phrase : Phrase} {op : Operator} (h : op ∈ phrase.operators) :
    op.symbol ∈ phrase.continues := by
  rw [continues_chain (List.ne_nil_of_mem h)]
  exact List.mem_append_right _ (List.mem_map_of_mem h)

end Grammar.Phrase

namespace Parse

open LiveArith.Grammar LiveArith.Parse.Parser

variable {scope : Scope} {c : Cursor} {r : Tree × Cursor}

/-! ## What a success was made of -/

/-- A chain goes on with one of its operators or ends past the spaces. -/
theorem chain_eq_ok {ops : List Operator} {left : Tree} {more : Operator → Parser Tree}
    (h : (chain ops left more c).result = .ok r) :
    (∃ op c₁, op ∈ ops ∧ c.tokens = .mark op.symbol :: c₁.tokens ∧ (more op c₁).result = .ok r) ∨
      (r = (left, c.skipSpaces) ∧ ∀ op ∈ ops, c.tokens.head? ≠ some (.mark op.symbol)) := by
  rcases takeOperator_cases ops c with ⟨op, c₁, ht, hop, hc⟩ | ⟨ht, hne⟩
  · rw [chain, bind_of_eq _ ht] at h
    exact Or.inl ⟨op, c₁, hop, hc, h⟩
  · rw [chain, bind_of_eq _ ht] at h
    exact Or.inr ⟨(Except.ok.inj h).symm, hne⟩

/-- A fold has read its operand and then the rest of the chain. -/
theorem fold_eq_ok {room : Nat} {left : Tree} {operand : Parser Tree} {tail : Tree → Parser Tree}
    {op : Operator} (h : (fold room left operand tail op c).result = .ok r) :
    ∃ t c₁, (operand c).result = .ok (t, c₁) ∧
      (tail (.binary left op t) c₁).result = .ok r := by
  rw [fold_result] at h
  exact bind_eq_ok.1 h

/-- A power has read a `^` and an exponent, or neither was there. -/
theorem powerOf_eq_ok {factor : Parser Tree} {t : Tree}
    (h : (powerOf factor t c).result = .ok r) :
    (∃ c₁ u c₂, c.tokens = .mark '^' :: c₁.tokens ∧ (factor c₁).result = .ok (u, c₂) ∧
        r = (.binary t .power u, c₂)) ∨
      (r = (t, c.skipSpaces) ∧ c.tokens.head? ≠ some (.mark '^')) := by
  rcases take_cases '^' (by decide) c with ⟨c₁, ht, hc⟩ | ⟨ht, hne⟩
  · rw [powerOf, bind_of_eq _ ht] at h
    obtain ⟨u, c₂, hu, hr⟩ := bind_eq_ok.1 h
    exact Or.inl ⟨c₁, u, c₂, hc, hu, (Except.ok.inj hr).symm⟩
  · rw [powerOf, bind_of_eq _ ht] at h
    exact Or.inr ⟨(Except.ok.inj h).symm, hne⟩

/-- A group has read an expression and a closing parenthesis. -/
theorem group_eq_ok {expression : Parser Tree} (h : (group expression c).result = .ok r) :
    ∃ t c₁ c₂, (expression c).result = .ok (t, c₁) ∧ c₁.tokens = .mark ')' :: c₂.tokens ∧
      r = (t, c₂) := by
  obtain ⟨t, c₁, ht, hr⟩ := bind_eq_ok.1 h
  rcases take_cases ')' (by decide) c₁ with ⟨c₂, hc, htok⟩ | ⟨hc, -⟩
  · rw [bind_of_eq _ hc] at hr
    exact ⟨t, c₁, c₂, ht, htok, (Except.ok.inj hr).symm⟩
  · rw [bind_of_eq _ hc] at hr
    exact nomatch hr

/-- The ways in which a base succeeds. -/
inductive BaseRead (scope : Scope) (expression factor : Parser Tree) (c : Cursor) :
    Tree → Cursor → Prop where
  | group {t c₁ c₂ c₃} : c.tokens = .mark '(' :: c₁.tokens →
      (expression c₁).result = .ok (t, c₂) → c₂.tokens = .mark ')' :: c₃.tokens →
      BaseRead scope expression factor c t c₃
  | number {run v c₁} : c.tokens = .number run :: c₁.tokens → Literal.read? run = some v →
      BaseRead scope expression factor c (.constant v) c₁
  | name {letters d c₁} : c.tokens = .word letters :: c₁.tokens →
      scope.meaning? (String.ofList letters) = some (.cell d) →
      BaseRead scope expression factor c (.cell d) c₁
  | call {letters f c₁ t c₂} : c.tokens = .word letters :: c₁.tokens →
      scope.meaning? (String.ofList letters) = some (.builtin f) →
      (factor c₁).result = .ok (t, c₂) →
      BaseRead scope expression factor c (.call f t) c₂

/-- A base has read one of its kinds. -/
theorem base_eq_ok {expression factor : Parser Tree} {t : Tree} {c' : Cursor}
    (h : (base scope expression factor c).result = .ok (t, c')) :
    BaseRead scope expression factor c t c' := by
  rcases take_cases '(' (by decide) c with ⟨c₁, hc, htok⟩ | ⟨hc, -⟩
  · rw [base, bind_of_eq _ hc] at h
    obtain ⟨u, c₂, c₃, hu, htok', hr⟩ := group_eq_ok h
    obtain ⟨rfl, rfl⟩ := Prod.mk.inj hr
    exact .group htok hu htok'
  · rw [base_of_take hc] at h
    cases Cursor.sight c.lookahead_skipSpaces with
    | ended look ht =>
        rw [look] at h
        exact absurd h unexpected_ne_ok
    | figure look ht =>
        rw [if_pos look] at h
        obtain ⟨v, hv, hr⟩ := (number_eq_ok _).1 h
        obtain ⟨rfl, rfl⟩ := Prod.mk.inj hr
        exact .number (by rw [← ht, c.tokens_skipSpaces]) hv
    | letter look look' ht =>
        rw [look, if_neg Bool.false_ne_true, if_pos look'] at h
        obtain ⟨m, c₁, hm, hr⟩ := bind_eq_ok.1 h
        obtain ⟨m', hm', he⟩ := (name_eq_ok _ _).1 hm
        obtain ⟨rfl, rfl⟩ := Prod.mk.inj he
        rw [c.tokens_skipSpaces] at ht
        cases m with
        | cell d =>
            obtain ⟨rfl, rfl⟩ := Prod.mk.inj (Except.ok.inj hr)
            exact .name ht hm'
        | builtin f =>
            obtain ⟨u, c₂, hu, hr⟩ := bind_eq_ok.1 hr
            obtain ⟨rfl, rfl⟩ := Prod.mk.inj (Except.ok.inj hr)
            exact .call ht hm' hu
    | mark ch hm look ht =>
        rw [look, Option.any_some, hm.2.1, Option.any_some, hm.2.2] at h
        exact absurd h unexpected_ne_ok

/-- The ways in which a factor succeeds. -/
inductive SignedRead (scope : Scope) (expression factor : Parser Tree) (c : Cursor) :
    Tree → Cursor → Prop where
  | plus {c₁ t c₂} : c.tokens = .mark '+' :: c₁.tokens → (factor c₁).result = .ok (t, c₂) →
      SignedRead scope expression factor c t c₂
  | minus {c₁ t c₂} : c.tokens = .mark '-' :: c₁.tokens → (factor c₁).result = .ok (t, c₂) →
      SignedRead scope expression factor c (.negate t) c₂
  | bare {c₁ t c₂ u c₃} : c₁.tokens = c.tokens →
      (base scope expression factor c₁).result = .ok (t, c₂) →
      (powerOf factor t c₂).result = .ok (u, c₃) →
      SignedRead scope expression factor c u c₃

/-- A factor has read a sign and a factor, or a base with its exponent. -/
theorem signed_eq_ok {expression factor : Parser Tree} {t : Tree} {c' : Cursor}
    (h : (signed scope expression factor c).result = .ok (t, c')) :
    SignedRead scope expression factor c t c' := by
  rcases take_cases '+' (by decide) c with ⟨c₁, hc, htok⟩ | ⟨hc, -⟩
  · rw [signed, bind_of_eq _ hc] at h
    exact .plus htok h
  rw [signed, bind_of_eq _ hc, if_neg Bool.false_ne_true] at h
  rcases take_cases '-' (by decide) c.skipSpaces with ⟨c₁, hd, htok⟩ | ⟨hd, -⟩
  · rw [bind_of_eq _ hd] at h
    obtain ⟨u, c₂, hu, hr⟩ := bind_eq_ok.1 h
    obtain ⟨rfl, rfl⟩ := Prod.mk.inj (Except.ok.inj hr)
    exact .minus (by rw [← c.tokens_skipSpaces, htok]) hu
  · rw [bind_of_eq _ hd] at h
    obtain ⟨u, c₂, hu, hr⟩ := bind_eq_ok.1 h
    exact .bare (by rw [Cursor.tokens_skipSpaces, Cursor.tokens_skipSpaces]) hu hr

/-! ## Where a phrase stops -/

/-- Nothing follows at the cursor with which the phrase would go on. -/
def Stops (phrase : Phrase) (c : Cursor) : Prop :=
  ∀ ch ∈ phrase.continues, c.lookahead ≠ some ch

/-- A factor stops past the spaces where no `^` is the next token. -/
theorem stops_factor (h : c.tokens.head? ≠ some (.mark '^')) : Stops .factor c.skipSpaces := by
  intro ch hch
  rcases List.mem_cons.1 hch with rfl | hch
  · exact c.lookahead_skipSpaces
  · obtain rfl := List.mem_singleton.1 hch
    intro look
    have := (Cursor.lookahead_eq_mark c.lookahead_skipSpaces (by decide)).1 look
    exact h (by rwa [c.tokens_skipSpaces] at this)

/-- No exponent follows where a factor stops. -/
theorem Stops.ne_power {us : List Token} (h : Stops .factor c) : c.tokens ≠ .mark '^' :: us := by
  intro hc
  refine absurd ?_ (h '^' (by decide))
  rw [Cursor.lookahead_eq_mark (h ' ' (by decide)) (by decide), hc]
  rfl

/-- **THE END OF A CHAIN.** A chain stops where its operand did, if none of its operators
    follows there. -/
theorem stops_chain {phrase : Phrase} (hc : phrase.operators ≠ [])
    (hs : Stops phrase.operand c)
    (h : ∀ op ∈ phrase.operators, c.tokens.head? ≠ some (.mark op.symbol)) :
    Stops phrase c.skipSpaces := by
  have hb : ' ' ∈ phrase.operand.continues := by
    cases phrase with
    | factor => exact absurd rfl hc
    | base => exact absurd rfl hc
    | _ => exact List.mem_cons_self
  rw [Cursor.skipSpaces_of_lookahead (hs ' ' hb)]
  intro ch hch
  rw [Phrase.continues_chain hc] at hch
  rcases List.mem_append.1 hch with hin | hsym
  · exact hs ch hin
  · obtain ⟨op, hop, rfl⟩ := List.mem_map.1 hsym
    intro look
    exact h op hop ((Cursor.lookahead_eq_mark (hs ' ' hb) op.isMark_symbol).1 look)

/-! ## Soundness -/

/-- The tokens between two cursors are a phrase with a tree, and the phrase stops. -/
structure Reads (scope : Scope) (phrase : Phrase) (n : Nat) (c : Cursor) (t : Tree)
    (c' : Cursor) : Prop where
  derives : ∃ ts, c.tokens = ts ++ c'.tokens ∧ Derives scope phrase n ts t
  stops : Stops phrase c'

/-- No exponent is left after a factor. -/
theorem Reads.ne_power {n : Nat} {c c' : Cursor} {t : Tree} {us : List Token}
    (h : Reads scope .factor n c t c') : c'.tokens ≠ .mark '^' :: us :=
  h.stops.ne_power

/-- Each success of a phrase's parser has read the phrase.  What follows an operand is read
    from where the operand stopped, and among the bases is the call, which is a factor. -/
def Sound (scope : Scope) : Phrase → Nat → Prop
  | .base, n => ∀ c t c', (rule scope .base n c).result = .ok (t, c') →
      Reads scope .base n c t c' ∨ Reads scope .factor (n + 1) c t c'
  | .moreTerms left, n => ∀ c t c', Stops .term c →
      (rule scope (.moreTerms left) n c).result = .ok (t, c') →
      Reads scope (.moreTerms left) n c t c'
  | .moreFactors left, n => ∀ c t c', Stops .factor c →
      (rule scope (.moreFactors left) n c).result = .ok (t, c') →
      Reads scope (.moreFactors left) n c t c'
  | phrase, n => ∀ c t c', (rule scope phrase n c).result = .ok (t, c') →
      Reads scope phrase n c t c'

/-- A chain is at its end, or it reads an operator, an operand and the rest of the chain. -/
theorem chain_reads {n : Nat} {ops : List Operator} {operand : Phrase} {more : Tree → Phrase}
    {left t : Tree} {c' : Cursor}
    (ho : ∀ c t c', (rule scope operand n c).result = .ok (t, c') → Reads scope operand n c t c')
    (hm : ∀ left c t c', Stops operand c → (rule scope (more left) n c).result = .ok (t, c') →
      Reads scope (more left) n c t c')
    (h : (chain ops left (fold n left (rule scope operand n) fun t => rule scope (more t) n)
      c).result = .ok (t, c')) :
    (t = left ∧ c' = c.skipSpaces ∧ ∀ op ∈ ops, c.tokens.head? ≠ some (.mark op.symbol)) ∨
      ∃ op ts us r, op ∈ ops ∧ c.tokens = (.mark op.symbol :: ts ++ us) ++ c'.tokens ∧
        Derives scope operand n ts r ∧ Derives scope (more (.binary left op r)) n us t ∧
          Stops (more (.binary left op r)) c' := by
  rcases chain_eq_ok h with ⟨op, c₁, hop, htok, hmore⟩ | ⟨hr, hne⟩
  · obtain ⟨r, c₂, hr, ht⟩ := fold_eq_ok hmore
    obtain ⟨⟨ts, hts, hd⟩, hstop⟩ := ho c₁ r c₂ hr
    obtain ⟨⟨us, hus, he⟩, hstop'⟩ := hm _ c₂ t c' hstop ht
    refine Or.inr ⟨op, ts, us, r, hop, ?_, hd, he, hstop'⟩
    rw [htok, hts, hus]
    simp
  · obtain ⟨rfl, rfl⟩ := Prod.mk.inj hr
    exact Or.inl ⟨rfl, rfl, hne⟩

/-- What an expression reads is derived, its first term and then the chain of sums. -/
theorem sound_expression {n : Nat} (ht : Sound scope .term n)
    (hs : ∀ left, Sound scope (.moreTerms left) n) : Sound scope .expression (n + 1) := by
  intro c t c' h
  -- the rest of the chain is read from where the term stopped
  rw [rule_expression_succ, within_eq_ok] at h
  obtain ⟨l, c₁, hl, hr⟩ := bind_eq_ok.1 h
  obtain ⟨⟨ts, hts, hd⟩, hstop⟩ := ht c l c₁ hl
  obtain ⟨⟨us, hus, he⟩, hstop'⟩ := hs l c₁ t c' hstop hr
  exact ⟨⟨ts ++ us, by rw [hts, hus, List.append_assoc], .expression hd he⟩, hstop'⟩

/-- What a term reads is derived, its first factor and then the chain of products. -/
theorem sound_term {n : Nat} (hf : Sound scope .factor n)
    (hp : ∀ left, Sound scope (.moreFactors left) n) : Sound scope .term n := by
  intro c t c' h
  rw [rule_term, within_eq_ok] at h
  obtain ⟨l, c₁, hl, hr⟩ := bind_eq_ok.1 h
  obtain ⟨⟨ts, hts, hd⟩, hstop⟩ := hf c l c₁ hl
  obtain ⟨⟨us, hus, he⟩, hstop'⟩ := hp l c₁ t c' hstop hr
  exact ⟨⟨ts ++ us, by rw [hts, hus, List.append_assoc], .term hd he⟩, hstop'⟩

/-- What a chain of sums reads is derived, term by term. -/
theorem sound_moreTerms {n : Nat} (ht : Sound scope .term n)
    (hs : ∀ left, Sound scope (.moreTerms left) n) (left : Tree) :
    Sound scope (.moreTerms left) (n + 1) := by
  intro c t c' hstop h
  rw [rule_moreTerms_succ] at h
  rcases chain_reads ht hs h with ⟨rfl, rfl, hne⟩ | ⟨op, ts, us, r, hop, htok, hd, he, hstop'⟩
  · exact ⟨⟨[], by simp, .lastTerm⟩, stops_chain (List.cons_ne_nil _ _) hstop hne⟩
  · exact ⟨⟨_, htok, .nextTerm hop hd he⟩, hstop'⟩

/-- What a chain of products reads is derived, factor by factor. -/
theorem sound_moreFactors {n : Nat} (hf : Sound scope .factor n)
    (hp : ∀ left, Sound scope (.moreFactors left) n) (left : Tree) :
    Sound scope (.moreFactors left) (n + 1) := by
  intro c t c' hstop h
  rw [rule_moreFactors_succ] at h
  rcases chain_reads hf hp h with ⟨rfl, rfl, hne⟩ | ⟨op, ts, us, r, hop, htok, hd, he, hstop'⟩
  · exact ⟨⟨[], by simp, .lastFactor⟩, stops_chain (List.cons_ne_nil _ _) hstop hne⟩
  · exact ⟨⟨_, htok, .nextFactor hop hd he⟩, hstop'⟩

/-- A chain that has no level left succeeds only at its end. -/
theorem chain_exhausted_eq_ok {ops : List Operator} {left t : Tree} {c' : Cursor}
    (h : (chain ops left (fun _ => exhausted) c).result = .ok (t, c')) :
    t = left ∧ c' = c.skipSpaces ∧ ∀ op ∈ ops, c.tokens.head? ≠ some (.mark op.symbol) := by
  rcases chain_eq_ok h with ⟨op, c₁, -, -, hmore⟩ | ⟨hr, hne⟩
  · exact absurd hmore exhausted_ne_ok
  · obtain ⟨rfl, rfl⟩ := Prod.mk.inj hr
    exact ⟨rfl, rfl, hne⟩

/-- What a base reads is derived; a call is derived as a factor. -/
theorem sound_base {n : Nat} (he : Sound scope .expression n) (hf : Sound scope .factor n) :
    Sound scope .base n := by
  intro c t c' h
  cases base_eq_ok h with
  | @group _ c₁ c₂ _ htok ht htok' =>
      obtain ⟨⟨ts, hts, hd⟩, -⟩ := he c₁ t c₂ ht
      refine Or.inl ⟨⟨.mark '(' :: ts ++ [.mark ')'], ?_, .group hd⟩, fun ch hch => nomatch hch⟩
      rw [htok, hts, htok']
      simp
  | number htok hv =>
      exact Or.inl ⟨⟨[_], htok, .number hv⟩, fun ch hch => nomatch hch⟩
  | name htok hm =>
      exact Or.inl ⟨⟨[_], htok, .name hm⟩, fun ch hch => nomatch hch⟩
  | @call letters f c₁ u _ htok hm hu =>
      -- the argument is a factor, and so is the call: it stops where the argument did
      obtain ⟨⟨ts, hts, hd⟩, hstop⟩ := hf c₁ u c' hu
      exact Or.inr ⟨⟨.word letters :: ts, by rw [htok, hts]; rfl, .call hm hd⟩, hstop⟩

/-- What a factor reads is derived, with its sign or its exponent. -/
theorem sound_factor {n : Nat} (hb : Sound scope .base n) (hf : Sound scope .factor n) :
    Sound scope .factor (n + 1) := by
  intro c t c' h
  rw [rule_factor_succ, within_eq_ok] at h
  cases signed_eq_ok h with
  | @plus c₁ _ _ htok ht =>
      obtain ⟨⟨ts, hts, hd⟩, hstop⟩ := hf c₁ t c' ht
      exact ⟨⟨.mark '+' :: ts, by rw [htok, hts]; rfl, .plus hd⟩, hstop⟩
  | @minus c₁ u _ htok hu =>
      obtain ⟨⟨ts, hts, hd⟩, hstop⟩ := hf c₁ u c' hu
      exact ⟨⟨.mark '-' :: ts, by rw [htok, hts]; rfl, .minus hd⟩, hstop⟩
  | @bare c₁ u c₂ _ _ htok hu hr =>
      rcases powerOf_eq_ok hr with ⟨c₃, e, c₄, htok', he, heq⟩ | ⟨heq, hne⟩
      · obtain ⟨rfl, rfl⟩ := Prod.mk.inj heq
        obtain ⟨⟨us, hus, he⟩, hstop⟩ := hf c₃ e c' he
        rcases hb c₁ u c₂ hu with ⟨⟨ts, hts, hd⟩, -⟩ | hcall
        · refine ⟨⟨ts ++ .mark '^' :: us, ?_, .power hd he⟩, hstop⟩
          rw [← htok, hts, htok', hus]
          simp
        · -- the argument of a call would have taken the exponent
          exact absurd htok' hcall.ne_power
      · -- without an exponent a base counts as a factor, and a call is one already
        obtain ⟨rfl, rfl⟩ := Prod.mk.inj heq
        rcases hb c₁ t c₂ hu with ⟨⟨ts, hts, hd⟩, -⟩ | ⟨⟨ts, hts, hd⟩, -⟩
        · exact ⟨⟨ts, by rw [← htok, hts, c₂.tokens_skipSpaces], .bare hd⟩, stops_factor hne⟩
        · exact ⟨⟨ts, by rw [← htok, hts, c₂.tokens_skipSpaces], hd⟩, stops_factor hne⟩

/-- **SOUNDNESS.** Whatever the parser of a phrase gives, it has read the phrase. -/
theorem rule_sound (scope : Scope) : ∀ phrase n, Sound scope phrase n := by
  refine rule_induction ?expression_zero ?moreTerms_zero ?moreFactors_zero ?factor_zero
    (fun n => sound_expression) (fun n => sound_moreTerms) (fun n => sound_moreFactors)
    (fun n => sound_factor) (fun n => sound_term) (fun n => sound_base)
  case expression_zero =>
    intro c t c' h
    rw [rule_expression_zero, within_eq_ok] at h
    exact absurd h exhausted_ne_ok
  case moreTerms_zero =>
    intro left c t c' hstop h
    rw [rule_moreTerms_zero] at h
    obtain ⟨rfl, rfl, hne⟩ := chain_exhausted_eq_ok h
    exact ⟨⟨[], by simp, .lastTerm⟩, stops_chain (List.cons_ne_nil _ _) hstop hne⟩
  case moreFactors_zero =>
    intro left c t c' hstop h
    rw [rule_moreFactors_zero] at h
    obtain ⟨rfl, rfl, hne⟩ := chain_exhausted_eq_ok h
    exact ⟨⟨[], by simp, .lastFactor⟩, stops_chain (List.cons_ne_nil _ _) hstop hne⟩
  case factor_zero =>
    intro c t c' h
    rw [rule_factor_zero, within_eq_ok] at h
    exact absurd h exhausted_ne_ok

end Parse

end LiveArith
