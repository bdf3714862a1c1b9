import Mathlib.Data.List.Chain
import LiveArith.Proofs.Limit
import LiveArith.Proofs.Motion

/-! # Prefixes — how far a refused text was good

    A text that is refused, and not for want of a level, is good up to the place of
    the error: with at most one digit, for an operand that is missing there, and
    closing parentheses, for the groups that are open, it builds.  The route:

    * a parser that refuses says which of its parts refused (`Refused.bind` …
      `Refused.signed`);
    * by rule induction the tokens before the place of the error begin the phrase
      (`rule_stalls`): each rule completes what its part began;
    * after a number comes a mark (`derives_isChain`), so the digit does not run
      into a token before it (`scan_ending`). -/

namespace LiveArith

open LiveArith.Grammar LiveArith.Parse LiveArith.Token

namespace Parse

open LiveArith.Parse.Parser LiveArith.Cursor

variable {α β : Type} {scope : Scope} {c : Cursor} {e : ParseError}

/-! ## Which part refused -/

/-- The parser fails at the cursor, and not for want of a level. -/
structure Refused (p : Parser α) (c : Cursor) (e : ParseError) : Prop where
  result_eq : (p c).result = .error e
  not_exhausts : ¬ Exhausts (p c)

namespace Refused

theorem of_eq {p q : Parser α} {c' : Cursor} (h : Refused p c e) (he : p c = q c') :
    Refused q c' e :=
  ⟨he ▸ h.result_eq, he ▸ h.not_exhausts⟩

/-- A sequence refuses in its first part, or in its second behind the first. -/
theorem bind {p : Parser α} {f : α → Parser β} (h : Refused (p >>= f) c e) :
    Refused p c e ∨ ∃ a c', (p c).result = .ok (a, c') ∧ Refused (f a) c' e := by
  obtain ⟨hr, hx⟩ := h
  cases hp : (p c).result with
  | error e' =>
      rw [bind_of_error f hp] at hr
      obtain rfl := Except.error.inj hr
      exact Or.inl ⟨hp, fun he => hx (he.bind_left f)⟩
  | ok r =>
      obtain ⟨a, c'⟩ := r
      rw [bind_of_ok f hp] at hr
      exact Or.inr ⟨a, c', rfl, hr, fun he => hx (he.bind_right hp)⟩

/-- Past a part that succeeds it is the rest that refuses. -/
theorem after {p : Parser α} {f : α → Parser β} (h : Refused (p >>= f) c e) {a : α} {d : Cursor}
    (hp : (p c).result = .ok (a, d)) : Refused (f a) d e := by
  rcases h.bind with h | ⟨b, c', hb, h⟩
  · exact nomatch hp.symm.trans h.result_eq
  · obtain ⟨rfl, rfl⟩ := Prod.mk.inj (Except.ok.inj (hb.symm.trans hp))
    exact h

/-- What follows the last step that can fail cannot refuse. -/
theorem bind_of_total {p : Parser α} {f : α → Parser β} (h : Refused (p >>= f) c e)
    (hf : ∀ a c', ∃ r, (f a c').result = .ok r) : Refused p c e := by
  rcases h.bind with hp | ⟨a, c', -, hr⟩
  · exact hp
  · obtain ⟨r, hok⟩ := hf a c'
    exact nomatch hok.symm.trans hr.result_eq

/-- A rule refuses where its body does. -/
theorem within {rule : Rule} {room : Nat} {body : Parser α}
    (h : Refused (within rule room body) c e) : Refused body c e := by
  have hopened := (h.after (d := c) rfl).after (d := c) rfl
  exact hopened.bind_of_total fun a c' => ⟨_, rfl⟩

theorem not_exhausted : ¬ Refused (exhausted : Parser α) c e :=
  fun h => h.not_exhausts ⟨c.lookahead, c.position, rfl, rfl⟩

/-- An unexpected character is refused where it stands. -/
theorem position_eq (h : Refused (unexpected : Parser α) c e) : e.position = c.position := by
  obtain rfl := Except.error.inj h.result_eq
  rfl

variable {p q : Parser Tree}

/-- A chain refuses behind one of its operators. -/
theorem chain {ops : List Operator} {left : Tree} {more : Operator → Parser Tree}
    (h : Refused (chain ops left more) c e) :
    ∃ op c₁, op ∈ ops ∧ Moves c c₁ ∧ c.tokens = .mark op.symbol :: c₁.tokens ∧
      Refused (more op) c₁ e := by
  rcases takeOperator_cases ops c with ⟨op, c₁, ht, hop, hc⟩ | ⟨ht, -⟩
  · have hm := Travels.takeOperator ops c (some op) c₁ (by rw [ht])
    exact ⟨op, c₁, hop, hm, hc, h.of_eq (bind_of_eq _ ht)⟩
  · exact nomatch (h.of_eq (q := pure left) (bind_of_eq _ ht)).result_eq

/-- A fold refuses in its operand or in the rest of the chain. -/
theorem fold {room : Nat} {left : Tree} {tail : Tree → Parser Tree} {op : Operator}
    (h : Refused (fold room left p tail op) c e) :
    Refused p c e ∨ ∃ t c₁, (p c).result = .ok (t, c₁) ∧
      Refused (tail (.binary left op t)) c₁ e := by
  have hnoted := (h.after (d := c) rfl).after (d := c) rfl
  exact hnoted.bind

/-- A mark that is looked for is taken, or the cursor is past the spaces before it. -/
theorem take {ch : Char} (hm : ch ∈ marks) {f : Bool → Parser α} (h : Refused (take ch >>= f) c e) :
    (∃ c₁, Moves c c₁ ∧ c.tokens = .mark ch :: c₁.tokens ∧ Refused (f true) c₁ e) ∨
      (c.tokens.head? ≠ some (.mark ch) ∧ Refused (f false) c.skipSpaces e) := by
  rcases take_cases ch (isMark_of_mem_marks hm) c with ⟨c₁, ht, hc⟩ | ⟨ht, hne⟩
  · have moved := Travels.take hm c true c₁ (by rw [ht])
    exact Or.inl ⟨c₁, moved, hc, h.of_eq (bind_of_eq _ ht)⟩
  · exact Or.inr ⟨hne, h.of_eq (bind_of_eq _ ht)⟩

/-- A power refuses in its exponent. -/
theorem powerOf {t : Tree} (h : Refused (powerOf p t) c e) :
    ∃ c₁, Moves c c₁ ∧ c.tokens = .mark '^' :: c₁.tokens ∧ Refused p c₁ e := by
  rcases h.take (by decide) with ⟨c₁, moved, hc, h⟩ | ⟨-, h⟩
  · exact ⟨c₁, moved, hc, h.bind_of_total fun a c' => ⟨_, rfl⟩⟩
  · exact nomatch h.result_eq

/-- A group refuses in its expression or for want of a closing parenthesis. -/
theorem group (h : Refused (group p) c e) :
    Refused p c e ∨ ∃ t c₁, (p c).result = .ok (t, c₁) ∧ e.position = c₁.skipSpaces.position := by
  rcases h.bind with h | ⟨t, c₁, ht, h⟩
  · exact Or.inl h
  rcases h.take (by decide) with ⟨c₂, -, -, h⟩ | ⟨-, h⟩
  · exact nomatch h.result_eq
  · exact Or.inr ⟨t, c₁, ht, h.position_eq⟩

/-- A number is refused where it begins. -/
theorem number (h : Refused Parse.number c e) : e.position = c.position := by
  have hr := h.result_eq
  rw [number_apply] at hr
  cases hv : Literal.read? (c.run Literal.isFigure) with
  | some v =>
      rw [hv] at hr
      exact nomatch hr
  | none =>
      rw [hv] at hr
      obtain rfl := Except.error.inj hr
      rfl

/-- A name is refused where it begins. -/
theorem name (h : Refused (name scope) c e) : e.position = c.position := by
  have hr := h.result_eq
  rw [name_apply] at hr
  cases hm : scope.meaning? (String.ofList (c.run Scope.isLetter)) with
  | some m =>
      rw [hm] at hr
      cases m with
      | cell d => exact nomatch hr
      | builtin f => exact nomatch hr
  | none =>
      rw [hm] at hr
      obtain rfl := Except.error.inj hr
      rfl

/-- A variable or call is refused at its name or in its argument. -/
theorem named (h : Refused (named scope p) c e) :
    e.position = c.position ∨ ∃ f,
      scope.meaning? (String.ofList (c.run Scope.isLetter)) = some (.builtin f) ∧
        Refused p (c.skip Scope.isLetter) e := by
  rcases h.bind with h | ⟨m, c₁, hm, h⟩
  · exact Or.inl h.name
  obtain ⟨m', hm', he⟩ := (name_eq_ok _ _).1 hm
  obtain ⟨rfl, rfl⟩ := Prod.mk.inj he
  cases m with
  | cell d => exact nomatch h.result_eq
  | builtin f => exact Or.inr ⟨f, hm', h.bind_of_total fun a c' => ⟨_, rfl⟩⟩

/-- The ways in which a base is refused. -/
inductive AtBase (scope : Scope) (expression factor : Parser Tree) (c : Cursor)
    (e : ParseError) : Prop where
  | group (c₁ : Cursor) : Moves c c₁ → c.tokens = .mark '(' :: c₁.tokens →
      Refused (Parse.group expression) c₁ e → AtBase scope expression factor c e
  | call (letters : List Char) (f : Builtin) (c₁ : Cursor) : Moves c c₁ →
      c.tokens = .word letters :: c₁.tokens →
      scope.meaning? (String.ofList letters) = some (.builtin f) → Refused factor c₁ e →
      AtBase scope expression factor c e
  /-- Neither of them, nor a number nor a variable: an operand is missing. -/
  | missing : e.position = c.skipSpaces.position → AtBase scope expression factor c e

/-- A base is refused in one of its kinds. -/
theorem base (h : Refused (base scope p q) c e) : AtBase scope p q c e := by
  rcases h.take (by decide) with ⟨c₁, moved, hc, h⟩ | ⟨-, h⟩
  · exact .group c₁ moved hc h
  have hnext := h.after (d := c.skipSpaces) rfl
  cases sight c.lookahead_skipSpaces with
  | ended look ht =>
      rw [look] at hnext
      exact .missing hnext.position_eq
  | figure look ht =>
      rw [if_pos look] at hnext
      exact .missing hnext.number
  | letter look look' ht =>
      rw [look, if_neg Bool.false_ne_true, if_pos look'] at hnext
      rcases hnext.named with he | ⟨f, hm, hargument⟩
      · exact .missing he
      · rw [c.tokens_skipSpaces] at ht
        exact .call _ f _ (.run .letters (.spaces .refl)) ht hm hargument
  | mark ch hm look ht =>
      rw [look, Option.any_some, hm.2.1, Option.any_some, hm.2.2] at hnext
      exact .missing hnext.position_eq

/-- After a whole expression a text is refused for what is left over. -/
theorem ending {t : Tree} (h : Refused (ending t) c e) : e.position = c.skipSpaces.position := by
  have hnext := (h.after (d := c.skipSpaces) rfl).after (d := c.skipSpaces) rfl
  cases look : c.skipSpaces.lookahead with
  | none =>
      rw [look] at hnext
      exact nomatch hnext.result_eq
  | some ch =>
      rw [look] at hnext
      exact hnext.position_eq

end Refused

/-! ## What the tokens before the error begin -/

/-- At most one operand and then closing parentheses. -/
def Ending (w : List Token) : Prop :=
  ∃ operand k, (operand = [] ∨ operand = [.number ['1']]) ∧
    w = operand ++ List.replicate k (.mark ')')

theorem ending_nil : Ending [] :=
  ⟨[], 0, Or.inl rfl, rfl⟩

/-- An ending may close one more group. -/
theorem Ending.close {w : List Token} (h : Ending w) : Ending (w ++ [.mark ')']) := by
  obtain ⟨operand, k, ho, rfl⟩ := h
  exact ⟨operand, k + 1, ho, by rw [List.append_assoc, ← List.replicate_succ']⟩

/-- The tokens begin a phrase: with an ending they are one. -/
def Begins (scope : Scope) (phrase : Phrase) (n : Nat) (ts : List Token) : Prop :=
  ∃ w t, Ending w ∧ Derives scope phrase n (ts ++ w) t

/-- The error is raised where the tokens that were read begin the phrase. -/
def Stalls (scope : Scope) (phrase : Phrase) (n : Nat) (c : Cursor) (e : ParseError) : Prop :=
  ∃ ts c', Moves c c' ∧ c.tokens = ts ++ c'.tokens ∧ e.position = c'.position ∧
    Begins scope phrase n ts

/-- What begins a part begins the whole, with the tokens before the part. -/
theorem Stalls.after {phrase part : Phrase} {n m : Nat} {c₁ : Cursor}
    (h : Stalls scope part m c₁ e) (us : List Token) (moved : Moves c c₁)
    (hc : c.tokens = us ++ c₁.tokens)
    (hd : ∀ ts t, Derives scope part m ts t → ∃ u, Derives scope phrase n (us ++ ts) u) :
    Stalls scope phrase n c e := by
  obtain ⟨ts, c', hm, hts, he, w, t, hw, ht⟩ := h
  obtain ⟨u, hu⟩ := hd _ t ht
  refine ⟨us ++ ts, c', moved.trans hm, ?_, he, w, u, hw, ?_⟩
  · rw [hc, hts, List.append_assoc]
  · rwa [List.append_assoc]

/-- What begins an expression begins a group, which is closed after it. -/
theorem Stalls.inGroup {n : Nat} {c₁ : Cursor} (h : Stalls scope .expression n c₁ e)
    (moved : Moves c c₁) (hc : c.tokens = .mark '(' :: c₁.tokens) :
    Stalls scope .base n c e := by
  obtain ⟨ts, c', hm, hts, he, w, t, hw, ht⟩ := h
  refine ⟨.mark '(' :: ts, c', moved.trans hm, ?_, he, w ++ [.mark ')'], t, hw.close, ?_⟩
  · rw [hc, hts, List.cons_append]
  · have hg := Derives.group ht
    rwa [List.cons_append, List.append_assoc] at hg

theorem exists_read?_one : ∃ v, Literal.read? ['1'] = some v :=
  ⟨_, if_pos (by decide)⟩

/-- Where an operand is missing, a digit will do. -/
theorem stalls_missing {n : Nat} (he : e.position = c.skipSpaces.position) :
    Stalls scope .base n c e := by
  obtain ⟨v, hv⟩ := exists_read?_one
  refine ⟨[], c.skipSpaces, .spaces .refl, ?_, he, [.number ['1']], .constant v, ?_, .number hv⟩
  · rw [c.tokens_skipSpaces, List.nil_append]
  · exact ⟨_, 0, Or.inr rfl, rfl⟩

/-- Past a whole expression nothing is needed. -/
theorem stalls_whole {n : Nat} {t : Tree} {c₁ : Cursor}
    (ht : (rule scope .expression n c).result = .ok (t, c₁))
    (he : e.position = c₁.skipSpaces.position) : Stalls scope .expression n c e := by
  obtain ⟨⟨ts, hts, hd⟩, -⟩ := rule_sound scope .expression n c t c₁ ht
  have moved := (rule_travels scope .expression n c t c₁ ht).spaces
  refine ⟨ts, c₁.skipSpaces, moved, ?_, he, [], t, ending_nil, ?_⟩
  · rw [hts, c₁.tokens_skipSpaces]
  · rwa [List.append_nil]

/-- Every refusal by the parser of a phrase is raised where the tokens read begin the phrase;
    among the bases is the call, which is a factor. -/
def Viable (scope : Scope) : Phrase → Nat → Prop
  | .base, n => ∀ c e, Refused (rule scope .base n) c e →
      Stalls scope .base n c e ∨ Stalls scope .factor (n + 1) c e
  | phrase, n => ∀ c e, Refused (rule scope phrase n) c e → Stalls scope phrase n c e

/-- A chain stalls in an operand or in what follows it. -/
theorem chain_stalls {n : Nat} {ops : List Operator} {operand : Phrase} {more : Tree → Phrase}
    {left : Tree}
    (hread : ∀ c t c', (rule scope operand n c).result = .ok (t, c') →
      Reads scope operand n c t c')
    (ho : ∀ c e, Refused (rule scope operand n) c e → Stalls scope operand n c e)
    (hm : ∀ left c e, Refused (rule scope (more left) n) c e → Stalls scope (more left) n c e)
    (hlast : ∀ {m t}, Derives scope (more t) m [] t)
    (hnext : ∀ {op l r ts us t}, op ∈ ops → Derives scope operand n ts r →
      Derives scope (more (.binary l op r)) n us t →
      Derives scope (more l) (n + 1) (.mark op.symbol :: ts ++ us) t)
    (h : Refused (chain ops left (fold n left (rule scope operand n) fun t =>
      rule scope (more t) n)) c e) : Stalls scope (more left) (n + 1) c e := by
  obtain ⟨op, c₁, hop, moved, hc, h⟩ := h.chain
  rcases h.fold with h | ⟨r, c₂, hr, h⟩
  · refine (ho c₁ e h).after [.mark op.symbol] moved hc fun ts t ht => ?_
    have hd := hnext (l := left) hop ht hlast
    rw [List.append_nil] at hd
    exact ⟨_, hd⟩
  · obtain ⟨⟨ts, hts, hd⟩, -⟩ := hread c₁ r c₂ hr
    refine (hm _ c₂ e h).after (.mark op.symbol :: ts)
      (moved.trans (rule_travels scope operand n c₁ r c₂ hr)) ?_ fun us t ht => ⟨t, hnext hop hd ht⟩
    rw [hc, hts, List.cons_append]

/-- An expression stalls in its first term or in the chain behind it. -/
theorem viable_expression {n : Nat} (ht : Viable scope .term n)
    (hs : ∀ left, Viable scope (.moreTerms left) n) : Viable scope .expression (n + 1) := by
  intro c e h
  rw [rule_expression_succ] at h
  rcases h.within.bind with h | ⟨l, c₁, hl, h⟩
  · refine (ht c e h).after [] .refl rfl fun ts t hd => ⟨t, ?_⟩
    rw [List.nil_append, ← List.append_nil ts]
    exact .expression hd .lastTerm
  · obtain ⟨⟨ts, hts, hd⟩, -⟩ := rule_sound scope .term n c l c₁ hl
    exact (hs l c₁ e h).after ts (rule_travels scope .term n c l c₁ hl) hts
      fun us t hu => ⟨t, .expression hd hu⟩

/-- A term stalls in its first factor or in the chain behind it. -/
theorem viable_term {n : Nat} (hf : Viable scope .factor n)
    (hp : ∀ left, Viable scope (.moreFactors left) n) : Viable scope .term n := by
  intro c e h
  rw [rule_term] at h
  rcases h.within.bind with h | ⟨l, c₁, hl, h⟩
  · refine (hf c e h).after [] .refl rfl fun ts t hd => ⟨t, ?_⟩
    rw [List.nil_append, ← List.append_nil ts]
    exact .term hd .lastFactor
  · obtain ⟨⟨ts, hts, hd⟩, -⟩ := rule_sound scope .factor n c l c₁ hl
    exact (hp l c₁ e h).after ts (rule_travels scope .factor n c l c₁ hl) hts
      fun us t hu => ⟨t, .term hd hu⟩

/-- A factor stalls behind its sign, in its base or in its exponent. -/
theorem viable_factor {n : Nat} (hb : Viable scope .base n) (hf : Viable scope .factor n) :
    Viable scope .factor (n + 1) := by
  intro c e h
  rw [rule_factor_succ] at h
  rcases h.within.take (by decide) with ⟨c₁, moved, hc, h⟩ | ⟨-, h⟩
  · exact (hf c₁ e h).after [.mark '+'] moved hc fun ts t hd => ⟨t, .plus hd⟩
  rcases h.take (by decide) with ⟨c₁, moved, hc, h⟩ | ⟨-, h⟩
  · rw [c.tokens_skipSpaces] at hc
    refine (hf c₁ e (h.bind_of_total fun a c' => ⟨_, rfl⟩)).after [.mark '-']
      ((Moves.refl.spaces).trans moved) hc fun ts t hd => ⟨_, .minus hd⟩
  have hspaces : c.tokens = [] ++ c.skipSpaces.skipSpaces.tokens := by
    rw [Cursor.tokens_skipSpaces, Cursor.tokens_skipSpaces, List.nil_append]
  have moved : Moves c c.skipSpaces.skipSpaces := .spaces (.spaces .refl)
  rcases h.bind with h | ⟨t, c₁, ht, h⟩
  · rcases hb _ e h with hs | hs
    · exact hs.after [] moved hspaces fun ts t hd => ⟨t, .bare hd⟩
    · exact hs.after [] moved hspaces fun ts t hd => ⟨t, hd⟩
  · have moved' := moved.trans (rule_travels scope .base n _ t c₁ ht)
    obtain ⟨c₂, moved₂, hc₂, h⟩ := h.powerOf
    rcases rule_sound scope .base n _ t c₁ ht with ⟨⟨ts, hts, hd⟩, -⟩ | hcall
    · refine (hf c₂ e h).after (ts ++ [.mark '^']) (moved'.trans moved₂) ?_ fun us u hu => ?_
      · rw [hspaces, List.nil_append, hts, hc₂, List.append_assoc]
        rfl
      · rw [List.append_assoc]
        exact ⟨_, .power hd hu⟩
    · exact absurd hc₂ hcall.ne_power

/-- A base stalls in a group or in an argument, or an operand is missing. -/
theorem viable_base {n : Nat} (he : Viable scope .expression n) (hf : Viable scope .factor n) :
    Viable scope .base n := by
  intro c e h
  cases Refused.base h with
  | missing hp => exact Or.inl (stalls_missing hp)
  | group c₁ moved hc h =>
      refine Or.inl ?_
      rcases h.group with h | ⟨t, c₂, ht, hp⟩
      · exact (he c₁ e h).inGroup moved hc
      · -- the expression was whole, and only the parenthesis after it is missing
        exact (stalls_whole ht hp).inGroup moved hc
  | call letters f c₁ moved hc hm h =>
      exact Or.inr ((hf c₁ e h).after [.word letters] moved hc
        fun ts t hd => ⟨_, .call hm hd⟩)

/-- **REFUSALS.** Where the parser of a phrase refuses, the tokens before the error begin the
    phrase. -/
theorem rule_stalls (scope : Scope) : ∀ phrase n, Viable scope phrase n := by
  refine rule_induction ?expression_zero ?moreTerms_zero ?moreFactors_zero ?factor_zero
    (fun n => viable_expression) ?moreTerms_succ ?moreFactors_succ
    (fun n => viable_factor) (fun n => viable_term) (fun n => viable_base)
  case expression_zero =>
    intro c e h
    rw [rule_expression_zero] at h
    exact absurd h.within Refused.not_exhausted
  case moreTerms_zero =>
    intro left c e h
    rw [rule_moreTerms_zero] at h
    obtain ⟨-, c₁, -, -, -, h⟩ := h.chain
    exact absurd h Refused.not_exhausted
  case moreFactors_zero =>
    intro left c e h
    rw [rule_moreFactors_zero] at h
    obtain ⟨-, c₁, -, -, -, h⟩ := h.chain
    exact absurd h Refused.not_exhausted
  case factor_zero =>
    intro c e h
    rw [rule_factor_zero] at h
    exact absurd h.within Refused.not_exhausted
  case moreTerms_succ =>
    intro n ht hs left c e h
    rw [rule_moreTerms_succ] at h
    exact chain_stalls (rule_sound scope .term n) ht hs .lastTerm .nextTerm h
  case moreFactors_succ =>
    intro n hf hp left c e h
    rw [rule_moreFactors_succ] at h
    exact chain_stalls (rule_sound scope .factor n) hf hp .lastFactor .nextFactor h

/-- A whole text is refused where the tokens before the error begin an expression. -/
theorem formula_stalls {n : Nat} (h : Refused (formula scope n) c e) :
    Stalls scope .expression n c e := by
  rw [formula_eq] at h
  rcases h.bind with h | ⟨t, c₁, ht, h⟩
  · exact rule_stalls scope .expression n c e h
  · -- the expression was whole, and something is left over
    exact stalls_whole ht h.ending

end Parse

/-! ## The digit is a token of its own -/

namespace Token

/-- The second token may follow the first in a formula, as far as numbers go. -/
def MayPrecede (a b : Token) : Prop :=
  ∀ run, a = number run → ∃ c, b = mark c

/-- A mark may come after any token. -/
theorem mayPrecede_mark (a : Token) (c : Char) : MayPrecede a (mark c) :=
  fun _ _ => ⟨c, rfl⟩

end Token

/-- The rest of a chain begins with a mark. -/
theorem head_of_chain {scope : Scope} {phrase : Phrase} {n : Nat} {ts : List Token} {t : Tree}
    (h : Derives scope phrase n ts t)
    (hchain : ∃ left, phrase = .moreTerms left ∨ phrase = .moreFactors left) :
    ∀ a ∈ ts.head?, ∃ c, a = .mark c := by
  cases h with
  | lastTerm | lastFactor => exact nofun
  | nextTerm | nextFactor => exact fun a ha => ⟨_, (Option.some.inj ha).symm⟩
  | _ => simp at hchain

/-- A mark may follow any token. -/
theorem isChain_append_mark {ts us : List Token} (ht : ts.IsChain MayPrecede)
    (hu : us.IsChain MayPrecede) (h : ∀ a ∈ us.head?, ∃ c, a = .mark c) :
    (ts ++ us).IsChain MayPrecede := by
  refine List.isChain_append.2 ⟨ht, hu, fun a _ b hb => ?_⟩
  obtain ⟨c, rfl⟩ := h b hb
  exact mayPrecede_mark a c

/-- Any token may follow one that is no number. -/
theorem isChain_cons_of_ne {a : Token} {ts : List Token} (ha : ∀ run, a ≠ .number run)
    (ht : ts.IsChain MayPrecede) : (a :: ts).IsChain MayPrecede :=
  List.isChain_cons.2 ⟨fun _ _ run he => absurd he (ha run), ht⟩

/-- **AFTER A NUMBER** comes a mark or nothing. -/
theorem derives_isChain {scope : Scope} {phrase : Phrase} {n : Nat} {ts : List Token} {t : Tree}
    (h : Derives scope phrase n ts t) : ts.IsChain MayPrecede := by
  induction h with
  | expression _ hs ih₁ ih₂ => exact isChain_append_mark ih₁ ih₂ (head_of_chain hs ⟨_, Or.inl rfl⟩)
  | term _ hp ih₁ ih₂ => exact isChain_append_mark ih₁ ih₂ (head_of_chain hp ⟨_, Or.inr rfl⟩)
  | lastTerm | lastFactor => exact .nil
  | nextTerm _ _ hs ih₁ ih₂ =>
      have hchain := isChain_append_mark ih₁ ih₂ (head_of_chain hs ⟨_, Or.inl rfl⟩)
      exact isChain_cons_of_ne nofun hchain
  | nextFactor _ _ hp ih₁ ih₂ =>
      have hchain := isChain_append_mark ih₁ ih₂ (head_of_chain hp ⟨_, Or.inr rfl⟩)
      exact isChain_cons_of_ne nofun hchain
  | plus _ ih | minus _ ih | call _ _ ih => exact isChain_cons_of_ne nofun ih
  | bare _ ih => exact ih
  | power _ _ ih₁ ih₂ =>
      refine isChain_append_mark ih₁ (isChain_cons_of_ne nofun ih₂) fun a ha => ?_
      exact ⟨_, (Option.some.inj ha).symm⟩
  | group _ ih =>
      refine isChain_cons_of_ne nofun (isChain_append_mark ih (.singleton _) fun a ha => ?_)
      exact ⟨_, (Option.some.inj ha).symm⟩
  | number _ | name _ => exact .singleton _

/-- The text of closing parentheses after at most one digit. -/
def endingText (digit : Option Char) (k : Nat) : List Char :=
  digit.toList ++ List.replicate k ')'

/-- Closing parentheses are a token each. -/
theorem scan_closing (k : Nat) :
    Token.scan (List.replicate k ')') = List.replicate k (.mark ')') := by
  induction k with
  | zero => exact Token.scan_nil
  | succ k ih => rw [List.replicate_succ, Token.scan_isMark (by decide), ih, List.replicate_succ]

/-- Closing parentheses begin with one. -/
theorem head_closing (k : Nat) : ∀ c ∈ (List.replicate k ')').head?, c = ')' := by
  intro c hc
  exact List.eq_of_mem_replicate (List.mem_of_mem_head? hc)

/-- **ENDINGS.** An ending that makes a phrase of tokens can be written after their text. -/
theorem scan_ending {front : List Char} {w : List Token} (hw : Ending w)
    (h : (Token.scan front ++ w).IsChain MayPrecede) :
    ∃ digit k, (∀ c ∈ digit, c = '1') ∧ Token.scan (front ++ endingText digit k) =
      Token.scan front ++ w := by
  obtain ⟨operand, k, rfl | rfl, rfl⟩ := hw
  · refine ⟨none, k, nofun, ?_⟩
    show Token.scan (front ++ List.replicate k ')') = _
    have hhead : ∀ kind : RunKind, ∀ c ∈ (List.replicate k ')').head?, kind.holds c = false := by
      intro kind c hc
      rw [head_closing k c hc]
      exact kind.holds_of_isMark (by decide)
    rw [Token.scan_append hhead, scan_closing]
    rfl
  · refine ⟨some '1', k, fun c hc => (Option.some.inj hc).symm, ?_⟩
    have hlong : Longest RunKind.figures.holds ['1'] (List.replicate k ')') := by
      refine ⟨List.cons_ne_nil _ _, ?_, ?_⟩
      · intro c hc
        rw [List.mem_singleton.1 hc]
        rfl
      · intro c hc
        rw [head_closing k c hc]
        rfl
    have hscan : Token.scan (endingText (some '1') k) =
        [.number ['1']] ++ List.replicate k (.mark ')') := by
      show Token.scan (['1'] ++ List.replicate k ')') = _
      rw [Token.scan_run .figures hlong, scan_closing]
      rfl
    rw [Token.scan_append_of_not_joined front, hscan]
    -- a figure before the digit would make a number of the token before it
    intro hj
    obtain ⟨kind, ts, us, run, run', hf, hr, -⟩ := Token.scan_joined front hj
    rw [hscan] at hr
    cases kind with
    | letters => exact nomatch (List.cons.inj hr).1
    | figures =>
        rw [hf, List.append_assoc] at h
        have hseam := (List.isChain_append.1 h).2.1
        obtain ⟨c, hc⟩ := (List.isChain_cons_cons.1 hseam).1 run rfl
        exact nomatch hc

namespace Draft

/-- **PREFIXES.** The text before an error that is not for want of a level builds under the same
    names once it is continued with at most one digit and then closing parentheses. -/
theorem build_continued {d : Draft} {s : Store} {e : ParseError}
    (he : (d.build s).outcome = .error e) (hlimit : ¬ (d.build s).RanOut) :
    e.position ≤ d.source.toList.length ∧
      ∃ digit k, (∀ c ∈ digit, c.isDigit = true) ∧
        let text := d.source.toList.take e.position ++ endingText digit k
        ∀ s', ∃ f, ((d.withSource (String.ofList text)).build s').outcome = .ok f := by
  have hrefused : Refused (formula d.scope maxDepth) (.start d.source.toList) e :=
    ⟨parseWithin_of_error s he, fun hx => hlimit (ranOut_of_exhausts s hx)⟩
  obtain ⟨ts, c, moved, hts, hpos, w, t, hw, hd⟩ := formula_stalls hrefused
  obtain ⟨hle, hscan⟩ := Cursor.scan_of_moves moved
  rw [Cursor.tokens_start, hscan] at hts
  obtain rfl := List.append_cancel_right hts
  obtain ⟨digit, k, hdigit, htext⟩ := scan_ending hw (derives_isChain hd)
  rw [hpos]
  refine ⟨hle, digit, k, ?_, ?_⟩
  · intro c hc
    rw [hdigit c hc]
    rfl
  · intro text s'
    refine ⟨⟨String.ofList text, t⟩, (buildWithin_eq_ok_iff s' _).2 ⟨rfl, ?_⟩⟩
    show Derives d.scope .expression maxDepth (Token.scan (String.ofList text).toList) t
    rw [String.toList_ofList, htext]
    exact hd

/-- A group and a call are open where a character cannot stand, and a number is missing. -/
theorem build_continued_openCall :
    let d : Draft := .ofSource "(2-sin(1*&"
    let report := d.build .empty
    let e : ParseError := .unexpectedCharacter (some '&') 9
    (report.outcome = .error e ∧ ¬ report.RanOut) ∧
      e.position ≤ d.source.toList.length ∧
        ∃ digit k, (∀ c ∈ digit, c.isDigit = true) ∧
          let text := d.source.toList.take e.position ++ endingText digit k
          ∀ s', ∃ f, ((d.withSource (String.ofList text)).build s').outcome = .ok f := by
  have he : ((ofSource "(2-sin(1*&").build .empty).outcome =
      .error (.unexpectedCharacter (some '&') 9) := by rfl
  have hlast : ((ofSource "(2-sin(1*&").build .empty).log.getLast? =
      some (.parsing (.opened .factor 9 504)) := by rfl
  have hlimit : ¬ ((ofSource "(2-sin(1*&").build .empty).RanOut := by
    rintro ⟨found, p, -, hl⟩
    exact nomatch hlast.symm.trans hl
  exact ⟨⟨he, hlimit⟩, build_continued he hlimit⟩

end Draft

end LiveArith
