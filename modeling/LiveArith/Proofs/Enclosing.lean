import LiveArith.Proofs.Motion
import LiveArith.Proofs.Splicing

/-! # Enclosing — parentheses and signs that leave no trace

    Whatever a rule has read can be put in parentheses, and what a factor has read can
    have a `+` before it, and the tree stays as it is.  The route:

    * of a parser that succeeds and records the end of a rule it is known in which of
      its parts the rule stands (`Shows.bind` … `Shows.signed`);
    * by rule induction the part can be exchanged for any other tokens with the same
      tree (`rule_seats`): each rule passes on what its part allows;
    * tokens in parentheses have the tree of the tokens (`Derivable.enclosed`), and in
      the text no run goes across the places where the rule began and ended
      (`Cursor.Moves.cuts`). -/

namespace LiveArith

open LiveArith.Grammar LiveArith.Parse LiveArith.Token

/-! ## Phrases at some level -/

/-- At some level the tokens are the phrase with the tree. -/
def Derivable (scope : Scope) (phrase : Phrase) (ts : List Token) (t : Tree) : Prop :=
  ∃ n, Derives scope phrase n ts t

namespace Derivable

variable {scope : Scope} {ts us : List Token} {l r t : Tree}

/-- Two phrases have a level in common. -/
theorem both {phrase phrase' : Phrase} (h : Derivable scope phrase ts l)
    (h' : Derivable scope phrase' us r) :
    ∃ n, Derives scope phrase n ts l ∧ Derives scope phrase' n us r := by
  obtain ⟨n, hn⟩ := h
  obtain ⟨m, hm⟩ := h'
  exact ⟨max n m, derives_mono hn (Nat.le_max_left n m), derives_mono hm (Nat.le_max_right n m)⟩

/-- A term and the chain of sums that goes on from it. -/
theorem expression (h : Derivable scope .term ts l) (h' : Derivable scope (.moreTerms l) us t) :
    Derivable scope .expression (ts ++ us) t := by
  obtain ⟨n, hn, hn'⟩ := both h h'
  exact ⟨n + 1, .expression hn hn'⟩

/-- A factor and the chain of products that goes on from it. -/
theorem term (h : Derivable scope .factor ts l) (h' : Derivable scope (.moreFactors l) us t) :
    Derivable scope .term (ts ++ us) t := by
  obtain ⟨n, hn, hn'⟩ := both h h'
  exact ⟨n, .term hn hn'⟩

/-- A base and its exponent. -/
theorem power (h : Derivable scope .base ts l) (h' : Derivable scope .factor us r) :
    Derivable scope .factor (ts ++ .mark '^' :: us) (.binary l .power r) := by
  obtain ⟨n, hn, hn'⟩ := both h h'
  exact ⟨n + 1, .power hn hn'⟩

/-- A chain of sums goes on with one more term. -/
theorem nextTerm {op : Operator} (hop : op ∈ Operator.additive) (h : Derivable scope .term ts r)
    (h' : Derivable scope (.moreTerms (.binary l op r)) us t) :
    Derivable scope (.moreTerms l) (.mark op.symbol :: ts ++ us) t := by
  obtain ⟨n, hn, hn'⟩ := both h h'
  exact ⟨n + 1, .nextTerm hop hn hn'⟩

/-- A chain of products goes on with one more factor. -/
theorem nextFactor {op : Operator} (hop : op ∈ Operator.multiplicative)
    (h : Derivable scope .factor ts r)
    (h' : Derivable scope (.moreFactors (.binary l op r)) us t) :
    Derivable scope (.moreFactors l) (.mark op.symbol :: ts ++ us) t := by
  obtain ⟨n, hn, hn'⟩ := both h h'
  exact ⟨n + 1, .nextFactor hop hn hn'⟩

/-- A `+` before a factor leaves its tree as it is. -/
theorem plus (h : Derivable scope .factor ts t) :
    Derivable scope .factor (.mark '+' :: ts) t :=
  h.imp' (· + 1) fun _ => .plus

/-- A `-` before a factor negates its tree. -/
theorem minus (h : Derivable scope .factor ts t) :
    Derivable scope .factor (.mark '-' :: ts) (.negate t) :=
  h.imp' (· + 1) fun _ => .minus

/-- A function and its argument. -/
theorem call {letters : List Char} {f : Builtin}
    (hf : scope.meaning? (String.ofList letters) = some (.builtin f))
    (h : Derivable scope .factor ts t) :
    Derivable scope .factor (.word letters :: ts) (.call f t) :=
  h.imp' (· + 1) fun _ => .call hf

/-- A base is a factor. -/
theorem bare (h : Derivable scope .base ts t) : Derivable scope .factor ts t :=
  h.imp' (· + 1) fun _ => .bare

/-- Parentheses leave the tree of an expression as it is. -/
theorem group (h : Derivable scope .expression ts t) :
    Derivable scope .base (.mark '(' :: ts ++ [.mark ')']) t :=
  h.imp fun _ => .group

/-- A factor is a term, and a term is an expression. -/
theorem factor_term (h : Derivable scope .factor ts t) : Derivable scope .term ts t := by
  have ht := h.term ⟨0, .lastFactor⟩
  rwa [List.append_nil] at ht

/-- A term is an expression. -/
theorem term_expression (h : Derivable scope .term ts t) : Derivable scope .expression ts t := by
  have he := h.expression ⟨0, .lastTerm⟩
  rwa [List.append_nil] at he

end Derivable

/-- The phrase that a rule reads. -/
def Parse.Rule.phrase : Rule → Phrase
  | .expression => .expression
  | .term => .term
  | .factor => .factor

/-- What a rule reads may be put in parentheses. -/
theorem Derivable.enclosed {scope : Scope} {ts : List Token} {t : Tree} (rule : Rule)
    (h : Derivable scope rule.phrase ts t) :
    Derivable scope rule.phrase (.mark '(' :: ts ++ [.mark ')']) t := by
  cases rule with
  | expression => exact (group h).bare.factor_term.term_expression
  | term => exact (group h.term_expression).bare.factor_term
  | factor => exact (group h.factor_term.term_expression).bare

namespace Parse

open LiveArith.Parse.Parser LiveArith.Cursor

variable {α β : Type} {scope : Scope} {c c' : Cursor}

/-! ## In which part a rule ends -/

/-- The parser succeeds, and on the way a rule ends that covers the characters from `start` up
    to `stop`. -/
structure Shows (part : Rule) (start stop : Nat) (p : Parser α) (c : Cursor) (a : α)
    (c' : Cursor) : Prop where
  result_eq : (p c).result = .ok (a, c')
  mem : .closed part start stop ∈ (p c).steps

namespace Shows

variable {part : Rule} {start stop : Nat} {a : α} {b : β} {t : Tree}

theorem of_eq {p q : Parser α} {d : Cursor} (h : Shows part start stop p c a c')
    (he : p c = q d) : Shows part start stop q d a c' :=
  ⟨he ▸ h.result_eq, he ▸ h.mem⟩

/-- What a sequence shows, one of its parts shows. -/
theorem bind {p : Parser α} {f : α → Parser β} (h : Shows part start stop (p >>= f) c b c') :
    ∃ a d, (p c).result = .ok (a, d) ∧ (f a d).result = .ok (b, c') ∧
      (Shows part start stop p c a d ∨ Shows part start stop (f a) d b c') := by
  obtain ⟨hr, hm⟩ := h
  obtain ⟨a, d, hp, hf⟩ := bind_eq_ok.1 hr
  rw [bind_of_ok f hp] at hm
  refine ⟨a, d, hp, hf, ?_⟩
  rcases List.mem_append.1 hm with hm | hm
  · exact Or.inl ⟨hp, hm⟩
  · exact Or.inr ⟨hf, hm⟩

/-- What only makes a result of what was read shows nothing itself. -/
theorem bind_pure {p : Parser α} {φ : α → β}
    (h : Shows part start stop (p >>= fun a => pure (φ a)) c b c') :
    ∃ a, Shows part start stop p c a c' ∧ b = φ a := by
  obtain ⟨a, d, hp, hf, hs | hs⟩ := h.bind
  · obtain ⟨rfl, rfl⟩ := Prod.mk.inj (Except.ok.inj hf)
    exact ⟨a, hs, rfl⟩
  · exact absurd hs.mem List.not_mem_nil

/-- A rule shows what its body shows, and itself. -/
theorem within {rule : Rule} {room : Nat} {body : Parser α}
    (h : Shows part start stop (within rule room body) c a c') :
    Shows part start stop body c a c' ∨
      (part = rule ∧ start = c.position ∧ stop = c'.position) := by
  obtain ⟨hr, hm⟩ := h
  have hbody := within_eq_ok.1 hr
  rw [within_of_ok hbody] at hm
  rcases List.mem_cons.1 hm with hm | hm
  · exact nomatch hm
  rcases List.mem_append.1 hm with hm | hm
  · exact Or.inl ⟨hbody, hm⟩
  · obtain ⟨rfl, rfl, rfl⟩ := Step.closed.inj (List.mem_singleton.1 hm)
    exact Or.inr ⟨rfl, rfl, rfl⟩

theorem not_exhausted : ¬ Shows part start stop (exhausted : Parser α) c a c' :=
  fun h => exhausted_ne_ok h.result_eq

theorem not_unexpected : ¬ Shows part start stop (unexpected : Parser α) c a c' :=
  fun h => unexpected_ne_ok h.result_eq

variable {p q : Parser Tree}

/-- What a chain shows comes behind one of its operators. -/
theorem chain {ops : List Operator} {left : Tree} {more : Operator → Parser Tree}
    (h : Shows part start stop (chain ops left more) c t c') :
    ∃ op c₁, op ∈ ops ∧ Moves c c₁ ∧ c.tokens = .mark op.symbol :: c₁.tokens ∧
      Shows part start stop (more op) c₁ t c' := by
  rcases takeOperator_cases ops c with ⟨op, c₁, ht, hop, hc⟩ | ⟨ht, -⟩
  · have moved := Travels.takeOperator ops c (some op) c₁ (by rw [ht])
    exact ⟨op, c₁, hop, moved, hc, h.of_eq (bind_of_eq _ ht)⟩
  · exact absurd (h.of_eq (q := pure left) (bind_of_eq _ ht)).mem List.not_mem_nil

/-- A fold is its operand with the rest of the chain after it. -/
theorem fold {room : Nat} {left : Tree} {tail : Tree → Parser Tree} {op : Operator}
    (h : Shows part start stop (fold room left p tail op) c t c') :
    Shows part start stop (p >>= fun r => tail (.binary left op r)) c t c' :=
  ⟨h.result_eq, (List.mem_cons.1 h.mem).resolve_left nofun⟩

/-- A mark that is looked for is taken, or the cursor is past the spaces before it. -/
theorem take {ch : Char} (hm : ch ∈ marks) {f : Bool → Parser α}
    (h : Shows part start stop (take ch >>= f) c a c') :
    (∃ c₁, Moves c c₁ ∧ c.tokens = .mark ch :: c₁.tokens ∧
        Shows part start stop (f true) c₁ a c') ∨
      (c.tokens.head? ≠ some (.mark ch) ∧ Shows part start stop (f false) c.skipSpaces a c') := by
  rcases take_cases ch (isMark_of_mem_marks hm) c with ⟨c₁, ht, hc⟩ | ⟨ht, hne⟩
  · have moved := Travels.take hm c true c₁ (by rw [ht])
    exact Or.inl ⟨c₁, moved, hc, h.of_eq (bind_of_eq _ ht)⟩
  · exact Or.inr ⟨hne, h.of_eq (bind_of_eq _ ht)⟩

/-- What a power shows stands in its exponent. -/
theorem powerOf {u : Tree} (h : Shows part start stop (powerOf p u) c t c') :
    ∃ c₁ r, Moves c c₁ ∧ c.tokens = .mark '^' :: c₁.tokens ∧ Shows part start stop p c₁ r c' ∧
      t = .binary u .power r := by
  rcases h.take (by decide) with ⟨c₁, moved, hc, h⟩ | ⟨-, h⟩
  · obtain ⟨r, hr, rfl⟩ := h.bind_pure
    exact ⟨c₁, r, moved, hc, hr, rfl⟩
  · exact absurd h.mem List.not_mem_nil

/-- What a group shows stands in its expression. -/
theorem group (h : Shows part start stop (group p) c t c') :
    ∃ c₁, Shows part start stop p c t c₁ ∧ c₁.tokens = .mark ')' :: c'.tokens := by
  obtain ⟨u, d, -, hr, hs | hs⟩ := h.bind
  · rcases take_cases ')' (by decide) d with ⟨c₂, ht, hd⟩ | ⟨ht, -⟩
    · rw [bind_of_eq _ ht] at hr
      obtain ⟨rfl, rfl⟩ := Prod.mk.inj (Except.ok.inj hr)
      exact ⟨d, hs, hd⟩
    · rw [bind_of_eq _ ht] at hr
      exact absurd hr unexpected_ne_ok
  · rcases hs.take (by decide) with ⟨c₂, -, -, htaken⟩ | ⟨-, hmissing⟩
    · exact absurd htaken.mem List.not_mem_nil
    · exact absurd hmissing not_unexpected

/-- A number shows nothing: it is no rule. -/
theorem not_number : ¬ Shows part start stop Parse.number c t c' := by
  rintro ⟨-, hm⟩
  rw [number_apply] at hm
  cases hv : Literal.read? (c.run Literal.isFigure) with
  | some v =>
      rw [hv] at hm
      exact nomatch List.mem_singleton.1 hm
  | none =>
      rw [hv] at hm
      exact absurd hm List.not_mem_nil

/-- A name shows nothing: it is no rule. -/
theorem not_name {m : Meaning} : ¬ Shows part start stop (Parse.name scope) c m c' := by
  rintro ⟨-, hm⟩
  rw [name_apply] at hm
  cases hv : scope.meaning? (String.ofList (c.run Scope.isLetter)) with
  | some m =>
      rw [hv] at hm
      cases m <;> exact nomatch List.mem_singleton.1 hm
  | none =>
      rw [hv] at hm
      exact absurd hm List.not_mem_nil

/-- What a call shows stands in its argument. -/
theorem named (h : Shows part start stop (named scope p) c t c') :
    ∃ f r, scope.meaning? (String.ofList (c.run Scope.isLetter)) = some (.builtin f) ∧
      Shows part start stop p (c.skip Scope.isLetter) r c' ∧ t = .call f r := by
  obtain ⟨m, d, hm, -, hs | hs⟩ := h.bind
  · exact absurd hs not_name
  · obtain ⟨m', hm', he⟩ := (name_eq_ok _ _).1 hm
    obtain ⟨rfl, rfl⟩ := Prod.mk.inj he
    cases m with
    | cell d => exact absurd hs.mem List.not_mem_nil
    | builtin f =>
        obtain ⟨r, hr, rfl⟩ := hs.bind_pure
        exact ⟨f, r, hm', hr, rfl⟩

/-- Where a rule can end in a base: in a group, or in the argument of a call. -/
inductive InBase (part : Rule) (start stop : Nat) (scope : Scope) (expression factor : Parser Tree)
    (c : Cursor) : Tree → Cursor → Prop where
  | group {c₁ c₂ t c'} : Moves c c₁ → c.tokens = .mark '(' :: c₁.tokens →
      Shows part start stop expression c₁ t c₂ → c₂.tokens = .mark ')' :: c'.tokens →
      InBase part start stop scope expression factor c t c'
  | call {letters f c₁ r c'} : Moves c c₁ → c.tokens = .word letters :: c₁.tokens →
      scope.meaning? (String.ofList letters) = some (.builtin f) →
      Shows part start stop factor c₁ r c' →
      InBase part start stop scope expression factor c (.call f r) c'

/-- What a base shows stands in a group or in an argument. -/
theorem base (h : Shows part start stop (base scope p q) c t c') :
    InBase part start stop scope p q c t c' := by
  rcases h.take (by decide) with ⟨c₁, moved, hc, h⟩ | ⟨-, h⟩
  · obtain ⟨c₂, hs, hc₂⟩ := h.group
    exact .group moved hc hs hc₂
  -- without a parenthesis the next character decides, and only in a call does a rule end
  have hnext := h.of_eq (q := if c.skipSpaces.lookahead.any Literal.isFigure then Parse.number
    else if c.skipSpaces.lookahead.any Scope.isLetter then Parse.named scope q
    else Parser.unexpected) (d := c.skipSpaces) rfl
  cases sight c.lookahead_skipSpaces with
  | ended look ht =>
      rw [look] at hnext
      exact absurd hnext not_unexpected
  | figure look ht =>
      rw [if_pos look] at hnext
      exact absurd hnext not_number
  | letter look look' ht =>
      rw [look, if_neg Bool.false_ne_true, if_pos look'] at hnext
      obtain ⟨f, r, hf, hr, rfl⟩ := hnext.named
      rw [c.tokens_skipSpaces] at ht
      exact .call (.run .letters (.spaces .refl)) ht hf hr
  | mark ch hm look ht =>
      rw [look, Option.any_some, hm.2.1, Option.any_some, hm.2.2] at hnext
      exact absurd hnext not_unexpected

/-- Where a rule can end in a factor: in the factor after a sign, in a base, or in the exponent
    of one. -/
inductive InSigned (part : Rule) (start stop : Nat) (scope : Scope)
    (expression factor : Parser Tree) (c : Cursor) : Tree → Cursor → Prop where
  | plus {c₁ t c'} : Moves c c₁ → c.tokens = .mark '+' :: c₁.tokens →
      Shows part start stop factor c₁ t c' →
      InSigned part start stop scope expression factor c t c'
  | minus {c₁ t c'} : Moves c c₁ → c.tokens = .mark '-' :: c₁.tokens →
      Shows part start stop factor c₁ t c' →
      InSigned part start stop scope expression factor c (.negate t) c'
  | base {c₁ u c₂ t c'} : Moves c c₁ → c₁.tokens = c.tokens →
      Shows part start stop (Parse.base scope expression factor) c₁ u c₂ →
      (Parse.powerOf factor u c₂).result = .ok (t, c') →
      InSigned part start stop scope expression factor c t c'
  | exponent {c₁ u c₂ c₃ r c'} : Moves c c₁ → c₁.tokens = c.tokens →
      (Parse.base scope expression factor c₁).result = .ok (u, c₂) → Moves c₂ c₃ →
      c₂.tokens = .mark '^' :: c₃.tokens → Shows part start stop factor c₃ r c' →
      InSigned part start stop scope expression factor c (.binary u .power r) c'

/-- What a factor shows stands behind its sign, in its base or in its exponent. -/
theorem signed (h : Shows part start stop (signed scope p q) c t c') :
    InSigned part start stop scope p q c t c' := by
  rcases h.take (by decide) with ⟨c₁, moved, hc, h⟩ | ⟨-, h⟩
  · exact .plus moved hc h
  rcases h.take (by decide) with ⟨c₁, moved, hc, h⟩ | ⟨-, h⟩
  · rw [c.tokens_skipSpaces] at hc
    obtain ⟨u, hu, rfl⟩ := h.bind_pure
    exact .minus (.trans (.spaces .refl) moved) hc hu
  · have moved : Moves c c.skipSpaces.skipSpaces := .spaces (.spaces .refl)
    have htokens : c.skipSpaces.skipSpaces.tokens = c.tokens := by
      rw [tokens_skipSpaces, tokens_skipSpaces]
    obtain ⟨u, c₂, hu, hr, hs | hs⟩ := h.bind
    · exact .base moved htokens hs hr
    · obtain ⟨c₃, r, moved', hc₃, hexponent, rfl⟩ := hs.powerOf
      exact .exponent moved htokens hu moved' hc₃ hexponent

end Shows

/-! ## What stands around a part -/

/-- In the phrase that is read from `c` to `c'` the part from `d` to `d'` stands, and other tokens
    of the part with the same tree may be there in place of its own. -/
structure Sits (scope : Scope) (part : Phrase) (d d' : Cursor) (phrase : Phrase) (c : Cursor)
    (t : Tree) (c' : Cursor) : Prop where
  before : Moves c d
  within : Moves d d'
  exchange : ∃ us ts vs u, c.tokens = us ++ d.tokens ∧ d.tokens = ts ++ d'.tokens ∧
    d'.tokens = vs ++ c'.tokens ∧ Derivable scope part ts u ∧
      ∀ ts', Derivable scope part ts' u → Derivable scope phrase (us ++ ts' ++ vs) t

/-- What a rule has read from `start` up to `stop` stands in the phrase. -/
def Seated (scope : Scope) (part : Rule) (start stop : Nat) (phrase : Phrase) (c : Cursor)
    (t : Tree) (c' : Cursor) : Prop :=
  ∃ d d', d.position = start ∧ d'.position = stop ∧ Sits scope part.phrase d d' phrase c t c'

namespace Seated

variable {part rule : Rule} {start stop : Nat} {phrase inner : Phrase} {t u : Tree}
  {c₁ c₂ : Cursor}

/-- A phrase stands in itself. -/
theorem self (part : Rule) {n : Nat} (h : Reads scope part.phrase n c t c') (moved : Moves c c') :
    Seated scope part c.position c'.position part.phrase c t c' := by
  obtain ⟨⟨ts, hts, hd⟩, -⟩ := h
  refine ⟨c, c', rfl, rfl, .refl, moved, [], ts, [], t, rfl, hts, rfl, ⟨n, hd⟩, fun ts' hts' => ?_⟩
  rwa [List.nil_append, List.append_nil]

/-- What stands in a part of a phrase stands in the phrase. -/
theorem lift (h : Seated scope part start stop inner c₁ u c₂) (us vs : List Token)
    (moved : Moves c c₁) (hus : c.tokens = us ++ c₁.tokens) (hvs : c₂.tokens = vs ++ c'.tokens)
    (hd : ∀ ts, Derivable scope inner ts u → Derivable scope phrase (us ++ ts ++ vs) t) :
    Seated scope part start stop phrase c t c' := by
  obtain ⟨d, d', hstart, hstop, hbefore, hwithin, us', ts, vs', v, hus', hts, hvs', hv, hall⟩ := h
  refine ⟨d, d', hstart, hstop, moved.trans hbefore, hwithin, us ++ us', ts, vs' ++ vs, v, ?_, hts,
    ?_, hv, fun ts' hts' => ?_⟩
  · rw [hus, hus', List.append_assoc]
  · rw [hvs', hvs, List.append_assoc]
  · have hphrase := hd _ (hall ts' hts')
    simp only [List.append_assoc] at hphrase ⊢
    exact hphrase

/-- What stands in the last part of a phrase, after other tokens. -/
theorem after (h : Seated scope part start stop inner c₁ u c') (us : List Token)
    (moved : Moves c c₁) (hus : c.tokens = us ++ c₁.tokens)
    (hd : ∀ ts, Derivable scope inner ts u → Derivable scope phrase (us ++ ts) t) :
    Seated scope part start stop phrase c t c' := by
  refine h.lift us [] moved hus rfl fun ts hts => ?_
  rw [List.append_nil]
  exact hd ts hts

end Seated

/-- Wherever a rule ends in a phrase that was read, what it has read stands in the phrase; among
    the bases is the call, which is a factor and stops as one. -/
def Seats (scope : Scope) : Phrase → Nat → Prop
  | .base, n => ∀ part start stop c t c', Shows part start stop (rule scope .base n) c t c' →
      Seated scope part start stop .base c t c' ∨
        Stops .factor c' ∧ Seated scope part start stop .factor c t c'
  | phrase, n => ∀ part start stop c t c', Shows part start stop (rule scope phrase n) c t c' →
      Seated scope part start stop phrase c t c'

section Chains

variable {n : Nat} {operand : Phrase} {part : Rule} {start stop : Nat}
  (hread : ∀ c t c', (rule scope operand n c).result = .ok (t, c') → Reads scope operand n c t c')
  (ho : ∀ c t c', Shows part start stop (rule scope operand n) c t c' →
    Seated scope part start stop operand c t c')

include hread ho

/-- Of an operand and what follows it, after other tokens, a rule ends in the one or the other. -/
theorem operand_seats {rest : Tree → Phrase} {whole : Phrase} {t : Tree} {c₁ : Cursor}
    (front : List Token)
    (hrest : ∀ l c t c', Stops operand c → (rule scope (rest l) n c).result = .ok (t, c') →
      Reads scope (rest l) n c t c')
    (hs : ∀ l c t c', Shows part start stop (rule scope (rest l) n) c t c' →
      Seated scope part start stop (rest l) c t c')
    (hd : ∀ {ts us l}, Derivable scope operand ts l → Derivable scope (rest l) us t →
      Derivable scope whole (front ++ ts ++ us) t)
    (moved : Moves c c₁) (hc : c.tokens = front ++ c₁.tokens)
    (h : Shows part start stop (rule scope operand n >>= fun l => rule scope (rest l) n) c₁ t c') :
    Seated scope part start stop whole c t c' := by
  obtain ⟨l, c₂, hl, htail, hshow⟩ := h.bind
  obtain ⟨⟨ts, hts, hoperand⟩, hstop⟩ := hread c₁ l c₂ hl
  obtain ⟨⟨us, hus, hfollows⟩, -⟩ := hrest l c₂ t c' hstop htail
  rcases hshow with hshow | hshow
  · -- the rest was read from where the operand stopped, and its tokens stay
    exact (ho c₁ l c₂ hshow).lift front us moved hc hus fun ts' hts' => hd hts' ⟨n, hfollows⟩
  · -- the operand joins the tokens before
    refine (hs l c₂ t c' hshow).after (front ++ ts)
      (moved.trans (rule_travels scope operand n c₁ l c₂ hl)) ?_ fun us' hus' =>
        hd ⟨n, hoperand⟩ hus'
    rw [hc, hts, List.append_assoc]

/-- In a chain a rule ends in an operand or in what follows it. -/
theorem chain_seats {ops : List Operator} {more : Tree → Phrase} {left t : Tree}
    (hmore : ∀ l c t c', Stops operand c → (rule scope (more l) n c).result = .ok (t, c') →
      Reads scope (more l) n c t c')
    (hm : ∀ l c t c', Shows part start stop (rule scope (more l) n) c t c' →
      Seated scope part start stop (more l) c t c')
    (hnext : ∀ {op l r ts us t}, op ∈ ops → Derivable scope operand ts r →
      Derivable scope (more (.binary l op r)) us t →
      Derivable scope (more l) (.mark op.symbol :: ts ++ us) t)
    (h : Shows part start stop (chain ops left (fold n left (rule scope operand n) fun t =>
      rule scope (more t) n)) c t c') : Seated scope part start stop (more left) c t c' := by
  obtain ⟨op, c₁, hop, moved, hc, h⟩ := h.chain
  exact operand_seats hread ho [.mark op.symbol] (fun r => hmore (.binary left op r))
    (fun r => hm (.binary left op r)) (fun hts hus => hnext hop hts hus) moved hc h.fold

end Chains

/-- What is shown in an expression stands in its first term or in the chain behind it. -/
theorem seats_expression {n : Nat} (ht : Seats scope .term n)
    (hs : ∀ left, Seats scope (.moreTerms left) n) : Seats scope .expression (n + 1) := by
  intro part start stop c t c' h
  have hreads := rule_sound scope .expression (n + 1) c t c' h.result_eq
  have moved := rule_travels scope .expression (n + 1) c t c' h.result_eq
  rw [rule_expression_succ] at h
  rcases h.within with h | ⟨rfl, rfl, rfl⟩
  · exact operand_seats (rule_sound scope .term n) (ht part start stop) []
      (fun l => rule_sound scope (.moreTerms l) n) (fun l => hs l part start stop)
      Derivable.expression .refl rfl h
  · exact .self .expression hreads moved

/-- What is shown in a term stands in its first factor or in the chain behind it. -/
theorem seats_term {n : Nat} (hf : Seats scope .factor n)
    (hp : ∀ left, Seats scope (.moreFactors left) n) : Seats scope .term n := by
  intro part start stop c t c' h
  have hreads := rule_sound scope .term n c t c' h.result_eq
  have moved := rule_travels scope .term n c t c' h.result_eq
  rw [rule_term] at h
  rcases h.within with h | ⟨rfl, rfl, rfl⟩
  · exact operand_seats (rule_sound scope .factor n) (hf part start stop) []
      (fun l => rule_sound scope (.moreFactors l) n) (fun l => hp l part start stop)
      Derivable.term .refl rfl h
  · exact .self .term hreads moved

/-- What is shown in a base stands in a group or in an argument. -/
theorem seats_base {n : Nat} (he : Seats scope .expression n) (hf : Seats scope .factor n) :
    Seats scope .base n := by
  intro part start stop c t c' h
  rw [rule_base] at h
  cases h.base with
  | @group c₁ c₂ _ _ moved hc hshow hclose =>
      refine Or.inl ((he _ _ _ c₁ t c₂ hshow).lift [.mark '('] [.mark ')'] moved hc hclose
        fun ts hts => hts.group)
  | @call letters f c₁ r _ moved hc hm hshow =>
      -- the argument is a factor, and so is the call: it stops where the argument did
      refine Or.inr ⟨(rule_sound scope .factor n c₁ r c' hshow.result_eq).stops, ?_⟩
      exact (hf _ _ _ c₁ r c' hshow).after [.word letters] moved hc fun ts hts => hts.call hm

/-- What stands in a base stands in the factor that the base and its exponent make. -/
theorem powerOf_seats {n start stop : Nat} {part : Rule} {u t : Tree} {c₂ : Cursor}
    (h : Seated scope part start stop .base c u c₂ ∨
      Stops .factor c₂ ∧ Seated scope part start stop .factor c u c₂)
    (hpower : (powerOf (rule scope .factor n) u c₂).result = .ok (t, c')) :
    Seated scope part start stop .factor c t c' := by
  rcases powerOf_eq_ok hpower with ⟨c₃, e, c₄, hc₂, he, heq⟩ | ⟨heq, -⟩
  · obtain ⟨rfl, rfl⟩ := Prod.mk.inj heq
    obtain ⟨⟨us, hus, hd⟩, -⟩ := rule_sound scope .factor n c₃ e c' he
    rcases h with hbase | ⟨hstop, -⟩
    · refine hbase.lift [] (.mark '^' :: us) .refl rfl ?_ fun ts hts => hts.power ⟨n, hd⟩
      rw [hc₂, hus, List.cons_append]
    · -- the argument of a call would have taken the exponent
      exact absurd hc₂ (Stops.ne_power hstop)
  · obtain ⟨rfl, rfl⟩ := Prod.mk.inj heq
    have hend : c₂.tokens = [] ++ c₂.skipSpaces.tokens := c₂.tokens_skipSpaces.symm
    rcases h with hbase | ⟨-, hcall⟩
    · refine hbase.lift [] [] .refl rfl hend fun ts hts => ?_
      rw [List.append_nil]
      exact hts.bare
    · refine hcall.lift [] [] .refl rfl hend fun ts hts => ?_
      rwa [List.append_nil]

/-- What is shown in a factor stands behind its sign, in its base or in its exponent. -/
theorem seats_factor {n : Nat} (hb : Seats scope .base n) (hf : Seats scope .factor n) :
    Seats scope .factor (n + 1) := by
  intro part start stop c t c' h
  have hreads := rule_sound scope .factor (n + 1) c t c' h.result_eq
  have moved := rule_travels scope .factor (n + 1) c t c' h.result_eq
  rw [rule_factor_succ] at h
  rcases h.within with h | ⟨rfl, rfl, rfl⟩
  · cases h.signed with
    | @plus c₁ _ _ moved₁ hc hshow =>
        exact (hf _ _ _ c₁ t c' hshow).after [.mark '+'] moved₁ hc fun ts hts => hts.plus
    | @minus c₁ u _ moved₁ hc hshow =>
        exact (hf _ _ _ c₁ u c' hshow).after [.mark '-'] moved₁ hc fun ts hts => hts.minus
    | @base c₁ u c₂ _ _ moved₁ hc hshow hpower =>
        have hpower := powerOf_seats (hb _ _ _ c₁ u c₂ hshow) hpower
        exact hpower.after [] moved₁ hc.symm fun ts hts => hts
    | @exponent c₁ u c₂ c₃ r _ moved₁ hc hu moved₃ hc₂ hshow =>
        have moved₂ := rule_travels scope .base n c₁ u c₂ hu
        rcases rule_sound scope .base n c₁ u c₂ hu with ⟨⟨ts, hts, hd⟩, -⟩ | hcall
        · refine (hf _ _ _ c₃ r c' hshow).after (ts ++ [.mark '^'])
            ((moved₁.trans moved₂).trans moved₃) ?_ fun us hus => ?_
          · rw [← hc, hts, hc₂, List.append_assoc, List.singleton_append]
          · rw [List.append_assoc, List.singleton_append]
            exact Derivable.power ⟨n, hd⟩ hus
        · exact absurd hc₂ hcall.ne_power
  · exact .self .factor hreads moved

/-- What is shown in a chain of sums stands in one of its terms or in the chain behind it. -/
theorem seats_moreTerms {n : Nat} (ht : Seats scope .term n)
    (hs : ∀ left, Seats scope (.moreTerms left) n) (left : Tree) :
    Seats scope (.moreTerms left) (n + 1) := by
  intro part start stop c t c' h
  rw [rule_moreTerms_succ] at h
  exact chain_seats (rule_sound scope .term n) (ht part start stop)
    (fun l => rule_sound scope (.moreTerms l) n) (fun l => hs l part start stop)
    Derivable.nextTerm h

/-- What is shown in a chain of products stands in a factor or in the chain behind it. -/
theorem seats_moreFactors {n : Nat} (hf : Seats scope .factor n)
    (hp : ∀ left, Seats scope (.moreFactors left) n) (left : Tree) :
    Seats scope (.moreFactors left) (n + 1) := by
  intro part start stop c t c' h
  rw [rule_moreFactors_succ] at h
  exact chain_seats (rule_sound scope .factor n) (hf part start stop)
    (fun l => rule_sound scope (.moreFactors l) n) (fun l => hp l part start stop)
    Derivable.nextFactor h

/-- **SEATS.** Wherever a rule ends in a phrase that was read, what it has read can be exchanged
    for other tokens of its phrase with the same tree. -/
theorem rule_seats (scope : Scope) : ∀ phrase n, Seats scope phrase n := by
  refine rule_induction ?expression_zero ?moreTerms_zero ?moreFactors_zero ?factor_zero
    (fun n => seats_expression) (fun n => seats_moreTerms) (fun n => seats_moreFactors)
    (fun n => seats_factor) (fun n => seats_term) (fun n => seats_base)
  case expression_zero =>
    intro part start stop c t c' h
    rw [rule_expression_zero] at h
    exact absurd (within_eq_ok.1 h.result_eq) exhausted_ne_ok
  case moreTerms_zero =>
    intro left part start stop c t c' h
    rw [rule_moreTerms_zero] at h
    obtain ⟨op, c₁, -, -, -, h⟩ := h.chain
    exact absurd h Shows.not_exhausted
  case moreFactors_zero =>
    intro left part start stop c t c' h
    rw [rule_moreFactors_zero] at h
    obtain ⟨op, c₁, -, -, -, h⟩ := h.chain
    exact absurd h Shows.not_exhausted
  case factor_zero =>
    intro part start stop c t c' h
    rw [rule_factor_zero] at h
    exact absurd (within_eq_ok.1 h.result_eq) exhausted_ne_ok

/-! ## Whole texts -/

/-- Behind the expression of a text no rule is read. -/
theorem Shows.not_ending {part : Rule} {start stop : Nat} {t u : Tree} :
    ¬ Shows part start stop (ending u) c t c' := by
  rintro ⟨-, hm⟩
  rw [ending_apply] at hm
  split at hm <;> exact absurd hm List.not_mem_nil

/-- What a rule has read of a whole text stands in the expression of the text. -/
theorem formula_seated {n start stop : Nat} {part : Rule} {t : Tree}
    (h : Shows part start stop (formula scope n) c t c') :
    ∃ c₁, Seated scope part start stop .expression c t c₁ ∧ c₁.tokens = [] := by
  rw [formula_eq] at h
  obtain ⟨u, c₁, -, hend, hs | hs⟩ := h.bind
  · obtain ⟨rfl, hnil, -⟩ := ending_eq_ok.1 hend
    exact ⟨c₁, rule_seats scope .expression n part start stop c u c₁ hs, hnil⟩
  · exact absurd hs Shows.not_ending

end Parse

/-! ## Texts -/

namespace Token

section Around

variable {before after : List Char} (hbefore : ∀ c ∈ before, c = ' ')
  (hafter : ∀ c ∈ after, c = ' ')

include hbefore hafter

/-- Parentheses about a part of a text are tokens about the tokens of the part. -/
theorem scan_enclosed (front middle back : List Char) :
    scan (front ++ before ++ ('(' :: middle ++ [')']) ++ after ++ back) =
      scan front ++ (mark '(' :: scan (before ++ middle ++ after) ++ [mark ')']) ++ scan back := by
  have hmiddle : scan (before ++ middle ++ after) = scan middle := by
    rw [scan_append_spaces hafter, scan_spaces_append hbefore]
  have htext : front ++ before ++ ('(' :: middle ++ [')']) ++ after ++ back =
      (front ++ before) ++ '(' :: (middle ++ ')' :: (after ++ back)) := by
    simp only [List.append_assoc, List.cons_append, List.nil_append]
  rw [htext, scan_append_mark (by decide), scan_append_spaces hbefore,
    scan_append_mark (by decide), scan_spaces_append hafter, hmiddle]
  simp only [List.append_assoc, List.cons_append, List.nil_append]

omit hafter in
/-- A sign before a part of a text is a token before the tokens of the part. -/
theorem scan_signed (front : List Char) {middle back : List Char}
    (hj : ¬ Joined (before ++ middle ++ after) back) :
    scan (front ++ before ++ ('+' :: middle) ++ after ++ back) =
      scan front ++ (mark '+' :: scan (before ++ middle ++ after)) ++ scan back := by
  have hrest : scan (middle ++ (after ++ back)) =
      scan (before ++ middle ++ after) ++ scan back := by
    rw [← scan_append_of_not_joined _ hj, List.append_assoc, List.append_assoc,
      scan_spaces_append hbefore]
  have htext : front ++ before ++ ('+' :: middle) ++ after ++ back =
      (front ++ before) ++ '+' :: (middle ++ (after ++ back)) := by
    simp only [List.append_assoc, List.cons_append]
  rw [htext, scan_append_mark (by decide), scan_append_spaces hbefore, hrest]
  simp only [List.append_assoc, List.cons_append]

end Around

end Token

/-- The characters between two places that a parser comes to make tokens of their own. -/
theorem Cursor.Moves.cuts {text : List Char} {c d : Cursor} (h : Moves (start text) c)
    (h' : Moves c d) :
    c.rest = (text.take d.position).drop c.position ++ d.rest ∧ text.drop d.position = d.rest ∧
      ¬ Joined ((text.take d.position).drop c.position) d.rest := by
  obtain ⟨passed, hrest, hpos⟩ := h'.passes
  obtain ⟨front, hc⟩ := h.stands (stands_start text)
  obtain ⟨front', hd⟩ := (h.trans h').stands (stands_start text)
  -- the text before the second place is that before the first and what was passed
  have hlen : front'.length = (front ++ passed).length := by
    rw [← hd.position_eq, hpos, hc.position_eq, List.length_append]
  have hsplit : front' ++ d.rest = (front ++ passed) ++ d.rest := by
    rw [← hd.text_eq, hc.text_eq, hrest, List.append_assoc]
  obtain ⟨rfl, -⟩ := List.append_inj hsplit hlen
  have hpassed : (text.take d.position).drop c.position = passed := by
    rw [hd.text_eq, hd.position_eq, List.take_left, hc.position_eq, List.drop_left]
  rw [hpassed]
  refine ⟨hrest, ?_, fun hj => hd.seam (hj.prepend front)⟩
  rw [hd.text_eq, hd.position_eq, List.drop_left]

/-- Of what stands in the expression of a whole text, the tokens are those of its characters, and
    they can be exchanged. -/
theorem Parse.Seated.stretch {scope : Scope} {part : Rule} {start stop : Nat} {text : List Char}
    {t : Tree} {c' : Cursor} (h : Seated scope part start stop .expression (.start text) t c')
    (hend : c'.tokens = []) :
    let passed := (text.take stop).drop start
    ¬ Joined passed (text.drop stop) ∧ ∃ u, Derivable scope part.phrase (scan passed) u ∧
      ∀ ts, Derivable scope part.phrase ts u →
        Derivable scope .expression (scan (text.take start) ++ ts ++ scan (text.drop stop)) t := by
  obtain ⟨d, d', rfl, rfl, hbefore, hwithin, us, ts, vs, u, hus, hts, hvs, hu, hall⟩ := h
  obtain ⟨hrest, hback, hj⟩ := hbefore.cuts hwithin
  intro passed
  obtain ⟨-, hfront⟩ := Cursor.scan_of_moves hbefore
  -- no run goes across the two places, so the tokens are divided as the text is
  have hus' : us = scan (text.take d.position) := by
    rw [Cursor.tokens_start, hfront] at hus
    exact (List.append_cancel_right hus).symm
  have hts' : ts = scan passed := by
    rw [Cursor.tokens, hrest, scan_append_of_not_joined _ hj] at hts
    exact (List.append_cancel_right hts).symm
  have hvs' : vs = scan (text.drop d'.position) := by
    rw [hend, List.append_nil, Cursor.tokens] at hvs
    rw [hback, hvs]
  subst hus' hts' hvs'
  rw [hback]
  rw [hback] at hall
  exact ⟨hj, u, hu, hall⟩

/-! ## Builds -/

/-- The build came to the tree, or it ran out of levels. -/
def Report.ComesTo (r : Report) (t : Tree) : Prop := r.tree? = some t ∨ r.RanOut

namespace Draft

/-- A text whose tokens are an expression at some level comes to its tree. -/
theorem comesTo_of_derivable {d : Draft} {text : List Char} {t : Tree} (s : Store)
    (h : Derivable d.scope .expression (scan text) t) :
    ((d.withSource (String.ofList text)).build s).ComesTo t := by
  obtain ⟨n, hn⟩ := h
  have htext : (d.withSource (String.ofList text)).source.toList = text := String.toList_ofList
  rw [← htext] at hn
  rcases build_or_ranOut (d := d.withSource (String.ofList text)) s hn with hb | hr
  · exact Or.inl (by rw [Report.tree?, hb]; rfl)
  · exact Or.inr hr

/-- **PARENTHESES AND SIGNS.** Take a text that builds and whatever a rule has read of it, without
    the spaces around.  With parentheses about that the text comes to the same tree, and with a `+`
    before it as well if the rule is that of a factor. -/
theorem build_enclosed {d : Draft} {s : Store} {f : Formula} {rule : Rule} {start stop : Nat}
    {before middle after : List Char} (hf : (d.build s).outcome = .ok f)
    (hcall : .closed rule start stop ∈ (d.parseWithin maxDepth).steps)
    (hspan : (d.source.toList.take stop).drop start = before ++ middle ++ after)
    (hbefore : ∀ c ∈ before, c = ' ') (hafter : ∀ c ∈ after, c = ' ') (s' : Store) :
    let around (inner : List Char) := d.withSource (String.ofList
      (d.source.toList.take start ++ before ++ inner ++ after ++ d.source.toList.drop stop))
    ((around ('(' :: middle ++ [')'])).build s').ComesTo f.root ∧
      (rule = .factor → ((around ('+' :: middle)).build s').ComesTo f.root) := by
  intro around
  obtain ⟨c, hc⟩ : ∃ c, (d.parseWithin maxDepth).result = .ok (f.root, c) :=
    formula_eq_ok_iff.2 ((buildWithin_eq_ok_iff s f).1 hf).2
  -- what the rule has read stands in the expression of the text, at its places
  obtain ⟨c₁, hseated, hend⟩ := formula_seated ⟨hc, hcall⟩
  obtain ⟨hj, u, hu, hall⟩ := hseated.stretch hend
  rw [hspan] at hj hu
  constructor
  · refine comesTo_of_derivable s' ?_
    rw [scan_enclosed hbefore hafter]
    exact hall _ (hu.enclosed rule)
  · rintro rfl
    refine comesTo_of_derivable s' ?_
    rw [scan_signed hbefore _ hj]
    exact hall _ hu.plus

/-- A factor with a sign and an exponent, with spaces around and within. -/
theorem build_enclosed_signedPower :
    let x : Tree := .cell ⟨0⟩
    let y : Tree := .cell ⟨1⟩
    let f : Formula := ⟨"x* -y ^x ", .binary x .multiply (.negate (.binary y .power x))⟩
    ((twoNames.withSource "x* -y ^x ").build .empty).outcome = .ok f ∧
      .closed .factor 2 9 ∈ ((twoNames.withSource "x* -y ^x ").parseWithin maxDepth).steps ∧
      ((twoNames.withSource "x* (-y ^x) ").build .empty).tree? = some f.root ∧
      ((twoNames.withSource "x* +-y ^x ").build .empty).tree? = some f.root := by
  intro x y f
  have hf : ((twoNames.withSource "x* -y ^x ").build .empty).outcome = .ok f := rfl
  have hcall : .closed .factor 2 9 ∈ ((twoNames.withSource "x* -y ^x ").parseWithin
    maxDepth).steps := by decide
  have hspan : ("x* -y ^x ".toList.take 9).drop 2 = [' '] ++ "-y ^x".toList ++ [' '] := by decide
  have hspace : ∀ c ∈ [' '], c = ' ' := List.forall_mem_singleton.2 rfl
  obtain ⟨hgroup, hsign⟩ := build_enclosed hf hcall hspan hspace hspace .empty
  have houtGroup : ((twoNames.withSource "x* (-y ^x) ").build .empty).outcome =
    .ok ⟨"x* (-y ^x) ", f.root⟩ := by rfl
  have houtSign : ((twoNames.withSource "x* +-y ^x ").build .empty).outcome =
    .ok ⟨"x* +-y ^x ", f.root⟩ := by rfl
  exact ⟨hf, hcall, hgroup.resolve_right (Report.not_ranOut_of_ok houtGroup),
    (hsign rfl).resolve_right (Report.not_ranOut_of_ok houtSign)⟩

end Draft

end LiveArith
