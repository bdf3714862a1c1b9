import LiveArith.Proofs.Soundness

/-! # Completeness — what the grammar derives is read

    Wherever the tokens of a phrase stand, and nothing follows with which the
    phrase would go on, the parser of the phrase takes exactly these tokens and
    gives the tree.  The route:

    * each making of a rule is followed forward over the tokens it expects
      (`chain_yields_left` … `signed_yields_bare`);
    * what follows an operand is an operator of its chain or what follows the
      chain, so every operand stops where the derivation says;
    * one induction over the derivation puts these together (`derives_yields`). -/

namespace LiveArith.Parse

open LiveArith.Grammar LiveArith.Parse.Parser

/-- The parser succeeds at the cursor with this tree and leaves these tokens. -/
def Yields (p : Parser Tree) (c : Cursor) (t : Tree) (us : List Token) : Prop :=
  ∃ c', (p c).result = .ok (t, c') ∧ c'.tokens = us

/-- None of the tokens with which the phrase would go on comes next. -/
def Follows (phrase : Phrase) (us : List Token) : Prop :=
  ∀ ch ∈ phrase.continues, us.head? ≠ some (.mark ch)

/-- The end of a text may follow any phrase. -/
theorem follows_nil (phrase : Phrase) : Follows phrase [] :=
  fun _ _ h => nomatch h

/-- A mark with which the phrase does not go on may follow it. -/
theorem follows_mark {phrase : Phrase} {m : Char} (h : m ∉ phrase.continues) (us : List Token) :
    Follows phrase (.mark m :: us) := by
  intro ch hch he
  obtain rfl : m = ch := by simpa using he
  exact h hch

/-- What may follow a phrase may follow one that goes on with fewer marks. -/
theorem Follows.mono {phrase phrase' : Phrase} {us : List Token} (h : Follows phrase us)
    (hs : phrase'.continues ⊆ phrase.continues) : Follows phrase' us :=
  fun ch hch => h ch (hs hch)

variable {scope : Scope} {c : Cursor} {t u : Tree} {us : List Token}

/-! ## The makings of a rule, forward -/

/-- A rule yields what its body yields. -/
theorem Yields.within {rule : Rule} {room : Nat} {p : Parser Tree} (h : Yields p c t us) :
    Yields (within rule room p) c t us := by
  obtain ⟨c', hr, hus⟩ := h
  exact ⟨c', within_eq_ok.2 hr, hus⟩

/-- A sequence yields what its parts yield one after the other. -/
theorem Yields.bind {p : Parser Tree} {f : Tree → Parser Tree} {ts : List Token}
    (hp : Yields p c t ts) (hf : ∀ c', c'.tokens = ts → Yields (f t) c' u us) :
    Yields (p >>= f) c u us := by
  obtain ⟨c₁, h₁, hts⟩ := hp
  obtain ⟨c₂, h₂, hus⟩ := hf c₁ hts
  exact ⟨c₂, bind_eq_ok.2 ⟨t, c₁, h₁, h₂⟩, hus⟩

/-- A parser that is reached over a step without effect yields what it yields there. -/
theorem Yields.of_eq {p q : Parser Tree} {c' : Cursor} (he : p c = q c') (h : Yields q c' t us) :
    Yields p c t us := by
  obtain ⟨c₂, h₂, hus⟩ := h
  exact ⟨c₂, by rw [he, h₂], hus⟩

/-- What reads nothing yields its value and leaves all tokens. -/
theorem yields_pure (h : c.tokens = us) : Yields (pure t) c t us :=
  ⟨c, rfl, h⟩

/-- A chain ends where none of its operators comes next. -/
theorem chain_yields_left {ops : List Operator} {more : Operator → Parser Tree}
    (hc : c.tokens = us) (h : ∀ op ∈ ops, us.head? ≠ some (.mark op.symbol)) :
    Yields (chain ops t more) c t us := by
  rw [← hc] at h
  refine Yields.of_eq (bind_of_eq _ (takeOperator_of_ne h)) (yields_pure ?_)
  rw [c.tokens_skipSpaces, hc]

/-- A chain goes on with the operator that comes next. -/
theorem chain_yields_fold {ops : List Operator} {op : Operator} {room : Nat} {left r : Tree}
    {operand : Parser Tree} {tail : Tree → Parser Tree} {ts vs : List Token} (hop : op ∈ ops)
    (hc : c.tokens = .mark op.symbol :: ts)
    (ho : ∀ c', c'.tokens = ts → Yields operand c' r vs)
    (ht : ∀ c', c'.tokens = vs → Yields (tail (.binary left op r)) c' t us) :
    Yields (chain ops left (fold room left operand tail)) c t us := by
  obtain ⟨c₁, h₁, hts⟩ := takeOperator_of_head hop hc
  refine Yields.of_eq (bind_of_eq _ h₁) ?_
  exact (ho c₁ hts).bind (f := fun r => tail (.binary left op r)) ht

/-- Without a `^` a base is left as it is. -/
theorem powerOf_yields_left {factor : Parser Tree} (hc : c.tokens = us)
    (h : us.head? ≠ some (.mark '^')) : Yields (powerOf factor t) c t us := by
  rw [← hc] at h
  refine Yields.of_eq (bind_of_eq _ (take_of_ne (by decide) h)) (yields_pure ?_)
  rw [c.tokens_skipSpaces, hc]

/-- Behind a `^` comes the exponent. -/
theorem powerOf_yields_power {factor : Parser Tree} {ts : List Token}
    (hc : c.tokens = .mark '^' :: ts) (hf : ∀ c', c'.tokens = ts → Yields factor c' u us) :
    Yields (powerOf factor t) c (.binary t .power u) us := by
  obtain ⟨c₁, h₁, hts⟩ := take_of_head (by decide) hc
  refine Yields.of_eq (bind_of_eq _ h₁) ?_
  exact (hf c₁ hts).bind fun c' hus => yields_pure hus

/-- Behind an opening parenthesis comes an expression, and a closing one. -/
theorem base_yields_group {expression factor : Parser Tree} {ts : List Token}
    (hc : c.tokens = .mark '(' :: ts)
    (he : ∀ c', c'.tokens = ts → Yields expression c' t (.mark ')' :: us)) :
    Yields (base scope expression factor) c t us := by
  obtain ⟨c₁, h₁, hts⟩ := take_of_head (by decide) hc
  refine Yields.of_eq (q := group expression) (bind_of_eq _ h₁) ?_
  refine (he c₁ hts).bind fun c₂ hc₂ => ?_
  obtain ⟨c₃, h₃, hus⟩ := take_of_head (by decide) hc₂
  exact Yields.of_eq (bind_of_eq _ h₃) (yields_pure hus)

/-- A literal is a number. -/
theorem base_yields_number {expression factor : Parser Tree} {run : List Char} {v : Float}
    (hc : c.tokens = .number run :: us) (hv : Literal.read? run = some v) :
    Yields (base scope expression factor) c (.constant v) us := by
  have hne : c.tokens.head? ≠ some (.mark '(') := by simp [hc]
  refine Yields.of_eq (base_of_take (take_of_ne (by decide) hne)) ?_
  rw [← c.tokens_skipSpaces] at hc
  cases Cursor.sight c.lookahead_skipSpaces with
  | ended look ht => exact absurd (ht.symm.trans hc) (by simp)
  | figure look ht =>
      rw [if_pos look]
      obtain ⟨hrun, hus⟩ := List.cons.inj (ht.symm.trans hc)
      obtain rfl := Token.number.inj hrun
      exact ⟨_, (number_eq_ok _).2 ⟨v, hv, rfl⟩, hus⟩
  | letter look look' ht => exact absurd (ht.symm.trans hc) (by simp)
  | mark ch hm look ht => exact absurd (ht.symm.trans hc) (by simp)

/-- At a run of letters with a meaning a base is what the meaning says. -/
theorem base_yields_name {expression factor : Parser Tree} {letters : List Char} {m : Meaning}
    {ts : List Token} (hc : c.tokens = .word letters :: ts)
    (hm : scope.meaning? (String.ofList letters) = some m)
    (h : ∀ c', c'.tokens = ts → Yields (match m with
      | .cell d => pure (.cell d)
      | .builtin f => do return .call f (← factor)) c' t us) :
    Yields (base scope expression factor) c t us := by
  have hne : c.tokens.head? ≠ some (.mark '(') := by simp [hc]
  refine Yields.of_eq (base_of_take (take_of_ne (by decide) hne)) ?_
  rw [← c.tokens_skipSpaces] at hc
  cases Cursor.sight c.lookahead_skipSpaces with
  | ended look ht => exact absurd (ht.symm.trans hc) (by simp)
  | figure look ht => exact absurd (ht.symm.trans hc) (by simp)
  | letter look look' ht =>
      rw [look, if_neg Bool.false_ne_true, if_pos look']
      obtain ⟨hrun, hts⟩ := List.cons.inj (ht.symm.trans hc)
      obtain rfl := Token.word.inj hrun
      obtain ⟨c₂, h₂, hus⟩ := h _ hts
      exact ⟨c₂, bind_eq_ok.2 ⟨m, _, (name_eq_ok _ _).2 ⟨m, hm, rfl⟩, h₂⟩, hus⟩
  | mark ch hm look ht => exact absurd (ht.symm.trans hc) (by simp)

/-- A `+` leaves the factor behind it as it is. -/
theorem signed_yields_plus {expression factor : Parser Tree} {ts : List Token}
    (hc : c.tokens = .mark '+' :: ts) (hf : ∀ c', c'.tokens = ts → Yields factor c' t us) :
    Yields (signed scope expression factor) c t us := by
  obtain ⟨c₁, h₁, hts⟩ := take_of_head (by decide) hc
  exact Yields.of_eq (bind_of_eq _ h₁) (hf c₁ hts)

/-- A `-` negates the factor behind it. -/
theorem signed_yields_minus {expression factor : Parser Tree} {ts : List Token}
    (hc : c.tokens = .mark '-' :: ts) (hf : ∀ c', c'.tokens = ts → Yields factor c' t us) :
    Yields (signed scope expression factor) c (.negate t) us := by
  have hp : c.tokens.head? ≠ some (.mark '+') := by simp [hc]
  rw [← c.tokens_skipSpaces] at hc
  obtain ⟨c₁, h₁, hts⟩ := take_of_head (by decide) hc
  have he : signed scope expression factor c = (do return .negate (← factor) : Parser Tree) c₁ := by
    rw [signed, bind_of_eq _ (take_of_ne (by decide) hp), if_neg Bool.false_ne_true,
      bind_of_eq _ h₁, if_pos rfl]
  exact Yields.of_eq he ((hf c₁ hts).bind fun c' hus => yields_pure hus)

/-- Without a sign a factor is a base with its exponent. -/
theorem signed_yields_bare {expression factor : Parser Tree} {ts : List Token}
    (hp : c.tokens.head? ≠ some (.mark '+')) (hm : c.tokens.head? ≠ some (.mark '-'))
    (hb : ∀ c', c'.tokens = c.tokens → Yields (base scope expression factor) c' t ts)
    (hf : ∀ c', c'.tokens = ts → Yields (powerOf factor t) c' u us) :
    Yields (signed scope expression factor) c u us := by
  rw [← c.tokens_skipSpaces] at hm
  have he : signed scope expression factor c =
      (do powerOf factor (← base scope expression factor)) c.skipSpaces.skipSpaces := by
    rw [signed, bind_of_eq _ (take_of_ne (by decide) hp), if_neg Bool.false_ne_true,
      bind_of_eq _ (take_of_ne (by decide) hm), if_neg Bool.false_ne_true]
  refine Yields.of_eq he (Yields.bind (hb _ ?_) hf)
  rw [Cursor.tokens_skipSpaces, Cursor.tokens_skipSpaces]

/-! ## Derivations -/

/-- No base begins with a sign. -/
theorem base_head_ne {n : Nat} {ts : List Token} (h : Derives scope .base n ts t)
    {m : Char} (hm : m ≠ '(') (us : List Token) : (ts ++ us).head? ≠ some (.mark m) := by
  cases h with
  | group h =>
      intro he
      exact hm (by simpa using he.symm)
  | number hv => exact nofun
  | name hm => exact nofun

/-- What follows a factor inside a product ends it. -/
theorem follows_moreFactors {n : Nat} {ts : List Token} {left : Tree}
    (h : Derives scope (.moreFactors left) n ts t) (hf : Follows .term us) :
    Follows .factor (ts ++ us) := by
  cases h with
  | lastFactor => exact hf.mono (by decide)
  | @nextFactor _ op _ _ _ _ _ hop =>
      have hs : ∀ op ∈ Operator.multiplicative, op.symbol ∉ Phrase.factor.continues := by decide
      exact follows_mark (hs op hop) _

/-- What follows a term inside a sum ends it. -/
theorem follows_moreTerms {n : Nat} {ts : List Token} {left : Tree}
    (h : Derives scope (.moreTerms left) n ts t) (hf : Follows .expression us) :
    Follows .term (ts ++ us) := by
  cases h with
  | lastTerm => exact hf.mono (by decide)
  | @nextTerm _ op _ _ _ _ _ hop =>
      have hs : ∀ op ∈ Operator.additive, op.symbol ∉ Phrase.term.continues := by decide
      exact follows_mark (hs op hop) _

/-- None of its operators follows the end of a chain. -/
theorem Follows.operators {phrase : Phrase} (h : Follows phrase us) :
    ∀ op ∈ phrase.operators, us.head? ≠ some (.mark op.symbol) :=
  fun op hop => h op.symbol (Phrase.symbol_mem_continues hop)

/-- **COMPLETENESS.** Where a phrase stands and does not go on, its parser reads it. -/
theorem derives_yields {phrase : Phrase} {n : Nat} {ts : List Token}
    (h : Derives scope phrase n ts t) :
    ∀ c us, c.tokens = ts ++ us → Follows phrase us → Yields (rule scope phrase n) c t us := by
  induction h with
  | expression _ hd ih₁ ih₂ =>
      intro c us hc hf
      rw [rule_expression_succ]
      rw [List.append_assoc] at hc
      refine Yields.within ?_
      -- the term is followed by the operators of the sum or by what follows the sum
      exact (ih₁ c _ hc (follows_moreTerms hd hf)).bind fun c' hc' => ih₂ c' us hc' hf
  | term _ hd ih₁ ih₂ =>
      intro c us hc hf
      rw [rule_term]
      rw [List.append_assoc] at hc
      refine Yields.within ?_
      exact (ih₁ c _ hc (follows_moreFactors hd hf)).bind fun c' hc' => ih₂ c' us hc' hf
  | @lastTerm n _ =>
      intro c us hc hf
      -- a chain that is at its end needs no level
      have hne := Follows.operators hf
      cases n with
      | zero => rw [rule_moreTerms_zero]; exact chain_yields_left hc hne
      | succ n => rw [rule_moreTerms_succ]; exact chain_yields_left hc hne
  | nextTerm hop _ hd ih₁ ih₂ =>
      intro c us hc hf
      rw [rule_moreTerms_succ]
      rw [List.append_assoc] at hc
      refine chain_yields_fold hop hc ?_ (fun c' hc' => ih₂ c' us hc' hf)
      exact fun c' hc' => ih₁ c' _ hc' (follows_moreTerms hd hf)
  | @lastFactor n _ =>
      intro c us hc hf
      have hne := Follows.operators hf
      cases n with
      | zero => rw [rule_moreFactors_zero]; exact chain_yields_left hc hne
      | succ n => rw [rule_moreFactors_succ]; exact chain_yields_left hc hne
  | nextFactor hop _ hd ih₁ ih₂ =>
      intro c us hc hf
      rw [rule_moreFactors_succ]
      rw [List.append_assoc] at hc
      refine chain_yields_fold hop hc ?_ (fun c' hc' => ih₂ c' us hc' hf)
      exact fun c' hc' => ih₁ c' _ hc' (follows_moreFactors hd hf)
  | plus _ ih =>
      intro c us hc hf
      rw [rule_factor_succ]
      exact (signed_yields_plus hc fun c' hc' => ih c' us hc' hf).within
  | minus _ ih =>
      intro c us hc hf
      rw [rule_factor_succ]
      exact (signed_yields_minus hc fun c' hc' => ih c' us hc' hf).within
  | call hm _ ih =>
      intro c us hc hf
      -- read among the bases; no `^` is left for it, since none follows its argument
      rw [rule_factor_succ]
      refine (signed_yields_bare (by simp [hc]) (by simp [hc]) (fun c₁ hc₁ => ?_)
        fun c₂ hc₂ => powerOf_yields_left hc₂ (hf '^' (by decide))).within
      refine base_yields_name (hc₁.trans hc) hm fun c₂ hc₂ => ?_
      exact (ih c₂ us hc₂ hf).bind fun c₃ hc₃ => yields_pure hc₃
  | bare hd ih =>
      intro c us hc hf
      -- a base goes on with nothing, so anything may follow it
      rw [rule_factor_succ]
      refine (signed_yields_bare ?_ ?_
        (fun c₁ hc₁ => ih c₁ us (hc₁.trans hc) (fun _ h => nomatch h))
        fun c₂ hc₂ => powerOf_yields_left hc₂ (hf '^' (by decide))).within
      · rw [hc]
        exact base_head_ne hd (by decide) us
      · rw [hc]
        exact base_head_ne hd (by decide) us
  | power hd _ ih₁ ih₂ =>
      intro c us hc hf
      rw [rule_factor_succ]
      rw [List.append_assoc] at hc
      refine (signed_yields_bare ?_ ?_
        (fun c₁ hc₁ => ih₁ c₁ _ (hc₁.trans hc) (fun _ h => nomatch h))
        fun c₂ hc₂ => powerOf_yields_power hc₂ fun c₃ hc₃ => ih₂ c₃ us hc₃ hf).within
      · rw [hc]
        exact base_head_ne hd (by decide) _
      · rw [hc]
        exact base_head_ne hd (by decide) _
  | @group _ ts _ _ ih =>
      intro c us hc _
      have hg : c.tokens = .mark '(' :: (ts ++ .mark ')' :: us) := by simpa using hc
      refine base_yields_group hg fun c' hc' => ?_
      exact ih c' _ hc' (follows_mark (by decide) us)
  | number hv =>
      intro c us hc _
      exact base_yields_number hc hv
  | name hm =>
      intro c us hc _
      exact base_yields_name hc hm fun c' hc' => yields_pure hc'

end LiveArith.Parse
