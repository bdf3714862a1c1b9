import LiveArith.Proofs.Progress

/-! # Retelling — the log of a build tells its tree

    A build that succeeds records each number and name as it is read, and each rule
    as it is opened.  The leaves are recorded in the order in which the tree has
    them, and the rules that were opened can be counted in the tree and the text.
    The route:

    * what a part of a parse has to do with the records of it (`Told`), and how the
      parts of a phrase make up the whole (`Told.followed` … `Told.name`);
    * what a parser that succeeds has read and recorded (`Tells`), for sequences
      (`Tells.bind`) and each making of a rule;
    * by rule induction what each phrase has recorded (`rule_told`). -/

namespace LiveArith

open LiveArith.Grammar LiveArith.Parse LiveArith.Token

/-! ## What the records are compared with -/

namespace Tree

/-- The operators of the tree, from left to right. -/
def operators : Tree → List Operator
  | constant _ => []
  | cell _ => []
  | negate t => t.operators
  | binary l op r => l.operators ++ op :: r.operators
  | call _ t => t.operators

/-- The number of sums and differences. -/
def sums (t : Tree) : Nat := t.operators.countP (· ∈ Operator.additive)

/-- The number of products, quotients, powers and calls. -/
def products (t : Tree) : Nat :=
  t.operators.countP (· ∈ [.multiply, .divide, .power]) + t.calls.length

/-- The lines tell the tree: its numbers, a name of each of its cells, and its functions, each
    before its argument. -/
inductive Retold (scope : Scope) : Tree → List String → Prop where
  | constant {v} :
      Retold scope (constant v) ["Parsed number " ++ NumberText.render NumberText.plain v]
  | cell {c name} : scope.find? name = some c →
      Retold scope (cell c) ["Resolved variable '" ++ name ++ "'"]
  | negate {t lines} : Retold scope t lines → Retold scope (negate t) lines
  | binary {l op r lines lines'} : Retold scope l lines → Retold scope r lines' →
      Retold scope (binary l op r) (lines ++ lines')
  | call {f t lines} : Retold scope t lines →
      Retold scope (call f t) (("Resolved function '" ++ f.name ++ "'") :: lines)

end Tree

namespace Token

/-- An operand ends with the token: with a number, a variable or a closing parenthesis. -/
def closes (scope : Scope) : Token → Bool
  | number _ => true
  | word letters => (scope.find? (String.ofList letters)).isSome
  | mark c => c = ')'

/-- An operand has ended after the tokens, or had before and there are none. -/
def ended (scope : Scope) (before : Bool) (ts : List Token) : Bool :=
  ts.foldl (fun _ t => t.closes scope) before

/-- The signs among the tokens that come where no operand has ended; `before` says if one has
    before the first token. -/
def unarySigns (scope : Scope) : Bool → List Token → Nat
  | _, [] => 0
  | before, t :: ts =>
    (if before = false ∧ (t = mark '+' ∨ t = mark '-') then 1 else 0) +
      unarySigns scope (t.closes scope) ts

/-- The unary signs of two parts add up.  Whether the second begins with one depends on how the
    first ended. -/
theorem unarySigns_append (scope : Scope) (us : List Token) : ∀ (before : Bool) (ts : List Token),
    unarySigns scope before (ts ++ us) =
      unarySigns scope before ts + unarySigns scope (ended scope before ts) us := by
  intro before ts
  induction ts generalizing before with
  | nil => exact (Nat.zero_add _).symm
  | cons t ts ih =>
      rw [List.cons_append, unarySigns, unarySigns, ih, Nat.add_assoc]
      rfl

theorem ended_append (scope : Scope) (before : Bool) (ts us : List Token) :
    ended scope before (ts ++ us) = ended scope (ended scope before ts) us :=
  List.foldl_append

/-- A mark is a token as often as it is a character. -/
theorem count_mark_scan {c : Char} (h : IsMark c) (text : List Char) :
    (scan text).count (mark c) = text.count c := by
  induction text using text_induction with
  | nil => rw [scan_nil]; rfl
  | space rest ih => rw [scan_space, ih, List.count_cons_of_ne (Ne.symm h.1)]
  | run k run rest hr ih =>
      have hrun : run.count c = 0 := by
        refine List.count_eq_zero.2 fun hc => ?_
        exact nomatch (k.holds_of_isMark h).symm.trans (hr.all c hc)
      rw [scan_run k hr, List.count_cons_of_ne (k.token_ne_mark run c), ih, List.count_append, hrun,
        Nat.zero_add]
  | mark d rest hd ih =>
      rw [scan_isMark hd, List.count_cons, List.count_cons, ih]
      congr 2
      simp

end Token

namespace Parse

/-- The line of the step of a leaf. -/
def Step.leafLine? : Step → Option String
  | .number v => (Step.number v).message?
  | .variableName name c => (Step.variableName name c).message?
  | .functionName f => (Step.functionName f).message?
  | .opened _ _ _ | .closed _ _ _ | .folding _ _ _ | .exhausted _ => none

/-- The lines of the leaves among the steps. -/
def leafLines (steps : List Step) : List String := steps.filterMap Step.leafLine?

/-- The number of times that the steps open a rule. -/
def openings (part : Rule) (steps : List Step) : Nat :=
  (steps.filterMap Step.opened?).count part

section Steps

variable (part rule : Rule) (p q n : Nat) (steps steps' : List Step)

theorem leafLines_append : leafLines (steps ++ steps') = leafLines steps ++ leafLines steps' :=
  List.filterMap_append

theorem openings_append :
    openings part (steps ++ steps') = openings part steps + openings part steps' := by
  rw [openings, List.filterMap_append, List.count_append]
  rfl

/-- What a rule records about its body. -/
def enclose : List Step :=
  .opened rule p n :: (steps ++ [.closed rule p q])

/-- Opening and closing a rule tells no leaf. -/
theorem leafLines_enclose : leafLines (enclose rule p q n steps) = leafLines steps := by
  show leafLines (steps ++ [Step.closed rule p q]) = leafLines steps
  rw [leafLines_append]
  exact List.append_nil _

/-- Opening a rule counts once, for that rule. -/
theorem openings_enclose : openings part (enclose rule p q n steps) =
    openings part steps + if rule = part then 1 else 0 := by
  have hclosed : openings part [Step.closed rule p q] = 0 := rfl
  have hopened : openings part (enclose rule p q n steps) =
      (rule :: (steps ++ [Step.closed rule p q]).filterMap Step.opened?).count part := rfl
  have hbody : ((steps ++ [Step.closed rule p q]).filterMap Step.opened?).count part =
      openings part (steps ++ [Step.closed rule p q]) := rfl
  rw [hopened, List.count_cons, hbody, openings_append, hclosed, Nat.add_zero]
  simp

theorem leafLines_folding (op : Operator) :
    leafLines (.folding op p n :: steps) = leafLines steps := rfl

end Steps

end Parse

/-! ## Counting -/

/-- How often the steps open each rule: expressions as often as there are opening parentheses
    among the tokens and `e` times more, terms `k` times more than that, and factors once more
    for each unary sign and `m` times more than that; an operand has ended after the tokens. -/
structure Counts (scope : Scope) (before : Bool) (e k m : Nat) (ts : List Token)
    (steps : List Step) : Prop where
  ended : ended scope before ts = true
  expressions : openings .expression steps = ts.count (.mark '(') + e
  terms : openings .term steps = openings .expression steps + k
  factors : openings .factor steps = openings .term steps + unarySigns scope before ts + m

namespace Counts

variable {scope : Scope} {before : Bool} {e k m e' k' m' : Nat} {ts us : List Token}
  {steps steps' : List Step}

/-- No token and no step. -/
theorem nil : Counts scope true 0 0 0 [] [] :=
  ⟨rfl, rfl, rfl, rfl⟩

/-- Parts behind one another count together. -/
theorem append (h : Counts scope before e k m ts steps)
    (h' : Counts scope true e' k' m' us steps') :
    Counts scope before (e + e') (k + k') (m + m') (ts ++ us) (steps ++ steps') := by
  obtain ⟨hd, he, ht, hf⟩ := h
  obtain ⟨hd', he', ht', hf'⟩ := h'
  refine ⟨?_, ?_, ?_, ?_⟩
  · rw [ended_append, hd, hd']
  · rw [openings_append, List.count_append]
    omega
  · rw [openings_append, openings_append]
    omega
  · rw [openings_append, openings_append, unarySigns_append, hd]
    omega

/-- A rule that is opened counts towards itself and against the rules that open with it. -/
theorem enclose {rule : Rule} {p q n : Nat} (h : Counts scope before e k m ts steps)
    (he : e' = e + if rule = .expression then 1 else 0)
    (hk : k' + (if rule = .expression then 1 else 0) = k + if rule = .term then 1 else 0)
    (hm : m' + (if rule = .term then 1 else 0) = m + if rule = .factor then 1 else 0) :
    Counts scope before e' k' m' ts (enclose rule p q n steps) := by
  obtain ⟨hd, hexpressions, hterms, hfactors⟩ := h
  refine ⟨hd, ?_, ?_, ?_⟩
  · rw [openings_enclose]
    omega
  · rw [openings_enclose, openings_enclose]
    omega
  · rw [openings_enclose, openings_enclose]
    omega

/-- A token that ends no operand: a parenthesis takes the place of one expression, and a sign,
    where no operand has ended, that of one factor. -/
theorem cons {t : Token} (h : Counts scope false e k m ts steps) (hc : t.closes scope = false)
    (he : e = e' + if t = .mark '(' then 1 else 0)
    (hm : m = m' + if before = false ∧ (t = .mark '+' ∨ t = .mark '-') then 1 else 0) :
    Counts scope before e' k m' (t :: ts) steps := by
  obtain ⟨hd, hexpressions, hterms, hfactors⟩ := h
  refine ⟨?_, ?_, hterms, ?_⟩
  · rw [← hd, ← hc]
    rfl
  · rw [List.count_cons, hexpressions, he]
    simp only [beq_iff_eq]
    omega
  · rw [unarySigns, hc, hfactors, hm]
    omega

/-- After an operand an operator is no sign, and a new operand begins. -/
theorem operator (op : Operator) (h : Counts scope false e k m ts steps) :
    Counts scope true e k m (.mark op.symbol :: ts) steps := by
  have hopen : Token.mark op.symbol ≠ .mark '(' := by cases op <;> decide
  refine h.cons (by cases op <;> rfl) ?_ rfl
  rw [if_neg hopen, Nat.add_zero]

/-- A step that opens no rule. -/
theorem step {step : Step} (h : Counts scope before e k m ts steps) (hs : step.opened? = none) :
    Counts scope before e k m ts (step :: steps) := by
  have hopenings : ∀ part, openings part (step :: steps) = openings part steps := by
    intro part
    rw [openings, List.filterMap_cons_none hs]
    rfl
  obtain ⟨hd, hexpressions, hterms, hfactors⟩ := h
  refine ⟨hd, ?_, ?_, ?_⟩
  · rw [hopenings, hexpressions]
  · rw [hopenings, hopenings, hterms]
  · rw [hopenings, hopenings, hfactors]

/-- A closing parenthesis opens no rule. -/
theorem closing : Counts scope true 0 0 0 [.mark ')'] [] :=
  ⟨rfl, rfl, rfl, rfl⟩

/-- The parentheses of a group take the place of one expression. -/
theorem group (h : Counts scope false (e + 1) k m ts steps) :
    Counts scope false e k m (.mark '(' :: ts ++ [.mark ')']) steps := by
  have hgroup : Counts scope false e k m (.mark '(' :: ts ++ [.mark ')']) (steps ++ []) :=
    (h.cons rfl rfl rfl).append closing
  rwa [List.append_nil] at hgroup

/-- A number or a variable. -/
theorem leaf {t : Token} {step : Step} (hc : t.closes scope = true) (hm : ∀ c, t ≠ .mark c)
    (hs : step.opened? = none) : Counts scope false 0 0 0 [t] [step] := by
  have hread : Counts scope false 0 0 0 [t] [] := by
    refine ⟨hc, ?_, rfl, ?_⟩
    · rw [List.count_cons_of_ne (hm '(')]
      rfl
    · rw [unarySigns, if_neg (fun h => h.2.elim (hm _) (hm _))]
      rfl
  exact hread.step hs

end Counts

/-! ## What the parts of a phrase record -/

/-- The steps tell the tree of the phrase: the lines of their leaves are its lines, and they open
    `e` expressions, `k` terms and `m` factors more than its nodes and its text account for. -/
structure Told (scope : Scope) (e k m : Nat) (ts : List Token) (t : Tree) (steps : List Step) :
    Prop where
  lines : t.Retold scope (leafLines steps)
  counts : Counts scope false e (t.sums + k) (t.products + m) ts steps

/-- The steps tell what the tree has more than the tree before it. -/
structure ToldAfter (scope : Scope) (left : Tree) (ts : List Token) (t : Tree)
    (steps : List Step) : Prop where
  lines : ∀ front, left.Retold scope front → t.Retold scope (front ++ leafLines steps)
  counts : ∃ k m, t.sums = left.sums + k ∧ t.products = left.products + m ∧
    Counts scope true 0 k m ts steps

/-- What the steps of a phrase tell. -/
def Grammar.Phrase.Told (scope : Scope) :
    Phrase → List Token → Tree → List Step → Prop
  | .expression => LiveArith.Told scope 1 0 0
  | .term => LiveArith.Told scope 0 1 0
  | .factor => LiveArith.Told scope 0 0 1
  | .base => LiveArith.Told scope 0 0 0
  | .moreTerms left | .moreFactors left => ToldAfter scope left

namespace Tree

variable (l r : Tree) {op : Operator}

/-- A sum counts once more than its operands have sums. -/
theorem sums_binary (op : Operator) :
    (binary l op r).sums = l.sums + (r.sums + if op ∈ Operator.additive then 1 else 0) := by
  rw [sums, operators, List.countP_append, List.countP_cons]
  simp [sums]

/-- A product or power counts once more than its operands have them. -/
theorem products_binary (op : Operator) :
    (binary l op r).products =
      l.products + (r.products + if op ∈ Operator.additive then 0 else 1) := by
  have hop : decide (op ∈ [Operator.multiply, .divide, .power]) =
      !decide (op ∈ Operator.additive) := by cases op <;> rfl
  rw [products, operators, calls, List.countP_append, List.countP_cons, hop, List.length_append]
  simp only [products]
  split <;> split <;> simp_all <;> omega

end Tree

namespace Told

variable {scope : Scope} {ts us : List Token} {l r t : Tree} {steps steps' : List Step}
  {p q n : Nat}

/-- The rest of a chain tells what the whole has more than its first operand. -/
theorem followed {e k m : Nat} (h : Told scope e k m ts l steps)
    (h' : ToldAfter scope l us t steps') :
    Told scope e k m (ts ++ us) t (steps ++ steps') := by
  obtain ⟨k', m', hk, hm, hcounts⟩ := h'.counts
  constructor
  · rw [leafLines_append]
    exact h'.lines _ h.lines
  · have hsum := h.counts.append hcounts
    rw [Nat.add_right_comm, ← hk, Nat.add_right_comm, ← hm] at hsum
    exact hsum

/-- A rule is told by its body and its own opening. -/
theorem enclose {rule : Rule} {e k m e' k' m' : Nat} (h : Told scope e k m ts t steps)
    (he : e' = e + if rule = .expression then 1 else 0)
    (hk : k' + (if rule = .expression then 1 else 0) = k + if rule = .term then 1 else 0)
    (hm : m' + (if rule = .term then 1 else 0) = m + if rule = .factor then 1 else 0) :
    Told scope e' k' m' ts t (enclose rule p q n steps) :=
  ⟨by rw [leafLines_enclose]; exact h.lines, h.counts.enclose he (by omega) (by omega)⟩

/-- A `+` is told by one more opening of a factor. -/
theorem plus (h : Told scope 0 0 1 ts t steps) : Told scope 0 0 0 (.mark '+' :: ts) t steps :=
  ⟨h.lines, h.counts.cons rfl rfl rfl⟩

/-- A `-` is told by one more opening of a factor. -/
theorem minus (h : Told scope 0 0 1 ts t steps) :
    Told scope 0 0 0 (.mark '-' :: ts) (.negate t) steps :=
  ⟨.negate h.lines, h.counts.cons rfl rfl rfl⟩

/-- A call is told by its function and then by its argument. -/
theorem call {letters : List Char} {f : Builtin}
    (hf : scope.meaning? (String.ofList letters) = some (.builtin f))
    (h : Told scope 0 0 1 ts t steps) :
    Told scope 0 0 0 (.word letters :: ts) (.call f t) (.functionName f :: steps) := by
  have hproducts : (Tree.call f t).products = t.products + 1 := by
    rw [Tree.products, Tree.products, Tree.calls, List.length_cons]
    rfl
  constructor
  · exact .call h.lines
  · have hcloses : (Token.word letters).closes scope = false := by
      rw [Token.closes, (Scope.find?_of_meaning?_builtin hf).1]
      rfl
    rw [hproducts]
    exact (h.counts.cons hcloses rfl rfl).step rfl

/-- A power is told by its base and then by its exponent. -/
theorem power (h : Told scope 0 0 0 ts l steps) (h' : Told scope 0 0 1 us r steps') :
    Told scope 0 0 0 (ts ++ .mark '^' :: us) (.binary l .power r) (steps ++ steps') := by
  constructor
  · rw [leafLines_append]
    exact .binary h.lines h'.lines
  · rw [Tree.sums_binary, Tree.products_binary]
    exact h.counts.append (h'.counts.operator .power)

/-- A group is told by the opening of its expression. -/
theorem group (h : Told scope 1 0 0 ts t steps) :
    Told scope 0 0 0 (.mark '(' :: ts ++ [.mark ')']) t steps :=
  ⟨h.lines, h.counts.group⟩

/-- A number is told by its leaf. -/
theorem number (scope : Scope) (run : List Char) (v : Float) :
    Told scope 0 0 0 [.number run] (.constant v) [.number v] :=
  ⟨.constant, .leaf rfl nofun rfl⟩

/-- A variable is told by its leaf. -/
theorem name {letters : List Char} {c : Cell}
    (hc : scope.meaning? (String.ofList letters) = some (.cell c)) :
    Told scope 0 0 0 [.word letters] (.cell c) [.variableName (String.ofList letters) c] := by
  have hfind := Scope.find?_of_meaning? hc
  refine ⟨.cell hfind, .leaf ?_ nofun rfl⟩
  rw [Token.closes, hfind]
  rfl

end Told

namespace ToldAfter

variable {scope : Scope} {left r t : Tree} {ts us : List Token} {steps steps' : List Step}

/-- A chain that is at its end. -/
theorem last : ToldAfter scope left [] left [] :=
  ⟨fun front h => by rwa [show leafLines [] = [] from rfl, List.append_nil],
    0, 0, rfl, rfl, .nil⟩

/-- One more operand of a chain, and the rest of the chain. -/
theorem next {op : Operator} {p n : Nat}
    (h : Told scope 0 (if op ∈ Operator.additive then 1 else 0)
      (if op ∈ Operator.additive then 0 else 1) ts r steps)
    (h' : ToldAfter scope (.binary left op r) us t steps') :
    ToldAfter scope left (.mark op.symbol :: (ts ++ us)) t
      (.folding op p n :: (steps ++ steps')) := by
  obtain ⟨k, m, hk, hm, hcounts⟩ := h'.counts
  constructor
  · intro front hfront
    rw [leafLines_folding, leafLines_append, ← List.append_assoc]
    exact h'.lines _ (.binary hfront h.lines)
  · rw [Tree.sums_binary, Nat.add_assoc] at hk
    rw [Tree.products_binary, Nat.add_assoc] at hm
    have hsum : Counts scope true 0 _ _ (.mark op.symbol :: (ts ++ us)) (steps ++ steps') :=
      (h.counts.operator op).append hcounts
    exact ⟨_, _, hk, hm, hsum.step rfl⟩

end ToldAfter

/-! ## What a parser reads and records -/

namespace Parse

open LiveArith.Parse.Parser

variable {α β : Type} {scope : Scope} {c : Cursor} {e k m n : Nat}

/-- Where the parser succeeds, the tokens it has taken, what it gives and its steps are so
    related. -/
def Tells (R : List Token → α → List Step → Prop) (p : Parser α) (c : Cursor) : Prop :=
  ∀ a c', (p c).result = .ok (a, c') →
    ∃ ts, c.tokens = ts ++ c'.tokens ∧ R ts a (p c).steps

namespace Tells

variable {R : List Token → α → List Step → Prop} {R' : List Token → β → List Step → Prop}

theorem pure {a : α} (h : R [] a []) : Tells R (Pure.pure a : Parser α) c := by
  rintro b c' hb
  obtain ⟨rfl, rfl⟩ := Prod.mk.inj (Except.ok.inj hb)
  exact ⟨[], rfl, h⟩

theorem unexpected : Tells R (Parser.unexpected : Parser α) c :=
  fun _ _ h => absurd h unexpected_ne_ok

theorem exhausted : Tells R (Parser.exhausted : Parser α) c :=
  fun _ _ h => absurd h exhausted_ne_ok

/-- **SEQUENCES.** Tokens and steps of the first part come before those of the second. -/
theorem bind {p : Parser α} {f : α → Parser β} (h : Tells R p c)
    (hf : ∀ ts a steps c', R ts a steps →
      Tells (fun us b steps' => R' (ts ++ us) b (steps ++ steps')) (f a) c') :
    Tells R' (p >>= f) c := by
  intro b c'' hb
  obtain ⟨a, c', ha, hb⟩ := bind_eq_ok.1 hb
  obtain ⟨ts, hts, hr⟩ := h a c' ha
  obtain ⟨us, hus, hr'⟩ := hf ts a _ c' hr b c'' hb
  refine ⟨ts ++ us, by rw [hts, hus, List.append_assoc], ?_⟩
  rw [bind_of_ok f ha]
  exact hr'

/-- A mark is taken, or only spaces are passed. -/
theorem take {ch : Char} (hm : IsMark ch) {f : Bool → Parser α}
    (h : ∀ c', Tells (fun ts => R (.mark ch :: ts)) (f true) c')
    (h' : Tells R (f false) c.skipSpaces) : Tells R (Parser.take ch >>= f) c := by
  intro a c'' ha
  rcases take_cases ch hm c with ⟨c', ht, htokens⟩ | ⟨ht, -⟩
  · rw [bind_of_eq f ht] at ha ⊢
    obtain ⟨ts, hts, hr⟩ := h c' a c'' ha
    exact ⟨.mark ch :: ts, by rw [htokens, hts, List.cons_append], hr⟩
  · rw [bind_of_eq f ht] at ha ⊢
    rw [← c.tokens_skipSpaces]
    exact h' a c'' ha

/-- A chain tells what comes behind its operators. -/
theorem chain {R : List Token → Tree → List Step → Prop} {ops : List Operator} {left : Tree}
    {more : Operator → Parser Tree} (h : R [] left [])
    (h' : ∀ op ∈ ops, ∀ c', Tells (fun ts => R (.mark op.symbol :: ts)) (more op) c') :
    Tells R (chain ops left more) c := by
  intro t c'' ht
  rcases takeOperator_cases ops c with ⟨op, c', hc, hop, htokens⟩ | ⟨hc, -⟩
  · rw [Parse.chain, bind_of_eq _ hc] at ht ⊢
    obtain ⟨ts, hts, hr⟩ := h' op hop c' t c'' ht
    exact ⟨.mark op.symbol :: ts, by rw [htokens, hts, List.cons_append], hr⟩
  · rw [Parse.chain, bind_of_eq _ hc] at ht ⊢
    rw [← c.tokens_skipSpaces]
    exact pure h t c'' ht

/-- A fold tells its operand and then the rest of the chain. -/
theorem fold {op : Operator} {left : Tree} {operand : Parser Tree} {tail : Tree → Parser Tree}
    (h : ∀ c, Tells (Told scope 0 (if op ∈ Operator.additive then 1 else 0)
      (if op ∈ Operator.additive then 0 else 1)) operand c)
    (h' : ∀ t c, Tells (ToldAfter scope t) (tail t) c) :
    Tells (fun ts => ToldAfter scope left (.mark op.symbol :: ts))
      (fold n left operand tail op) c := by
  have hcount : Tells (fun ts _ steps => ts = [] ∧ steps = [.folding op c.position n])
      (countFold op n) c := by
    rintro _ c' hc
    obtain ⟨-, rfl⟩ := Prod.mk.inj (Except.ok.inj hc)
    exact ⟨[], rfl, rfl, rfl⟩
  rw [fold_eq]
  refine hcount.bind fun _ _ _ c₁ hc => ?_
  obtain ⟨rfl, rfl⟩ := hc
  refine (h c₁).bind fun ts r steps c₂ hr => ?_
  intro t c₃ ht
  obtain ⟨us, hus, ht'⟩ := h' _ c₂ t c₃ ht
  have hnext := ToldAfter.next (p := c.position) (n := n) hr ht'
  exact ⟨us, hus, hnext⟩

/-- A first operand with the rest of its chain. -/
theorem chained {operand : Parser Tree} {tail : Tree → Parser Tree}
    (h : Tells (Told scope e k m) operand c) (h' : ∀ t c, Tells (ToldAfter scope t) (tail t) c) :
    Tells (Told scope e k m) (operand >>= tail) c := by
  refine h.bind fun ts l steps c₁ hl t c₂ ht => ?_
  obtain ⟨us, hus, ht'⟩ := h' l c₁ t c₂ ht
  exact ⟨us, hus, hl.followed ht'⟩

/-- A rule records its opening and its close around its body. -/
theorem within {R R' : List Token → α → List Step → Prop} {rule : Rule} {body : Parser α}
    (h : Tells R body c)
    (hr : ∀ ts a steps p q, R ts a steps → R' ts a (enclose rule p q n steps)) :
    Tells R' (within rule n body) c := by
  intro a c' ha
  have hbody := within_eq_ok.1 ha
  obtain ⟨ts, hts, hsteps⟩ := h a c' hbody
  refine ⟨ts, hts, ?_⟩
  rw [within_of_ok hbody]
  exact hr ts a _ _ _ hsteps

/-- A power tells its base and then its exponent. -/
theorem powerOf {ts : List Token} {l : Tree} {steps : List Step} {q : Parser Tree}
    (h : Told scope 0 0 0 ts l steps) (h' : ∀ c, Tells (Told scope 0 0 1) q c) :
    Tells (fun us t steps' => Told scope 0 0 0 (ts ++ us) t (steps ++ steps'))
      (powerOf q l) c := by
  refine take (by decide) (fun c₁ => (h' c₁).bind fun us r steps' c₂ hr => ?_) ?_
  · refine pure ?_
    rw [List.append_nil, List.append_nil]
    exact h.power hr
  · refine pure ?_
    rwa [List.append_nil, List.append_nil]

/-- A group tells its expression. -/
theorem group {p : Parser Tree} (h : Tells (Told scope 1 0 0) p c) :
    Tells (fun ts => Told scope 0 0 0 (.mark '(' :: ts)) (group p) c := by
  refine h.bind fun ts t steps c₁ ht => take (by decide) (fun c₂ => pure ?_) unexpected
  rw [List.append_nil]
  exact ht.group

/-- A number tells its leaf. -/
theorem number (ht : c.tokens =
      .number (c.run Literal.isFigure) :: (c.skip Literal.isFigure).tokens) :
    Tells (Told scope 0 0 0) number c := by
  intro t c' h
  obtain ⟨v, hv, hr⟩ := (number_eq_ok c).1 h
  obtain ⟨rfl, rfl⟩ := Prod.mk.inj hr
  refine ⟨[_], ht, ?_⟩
  rw [number_apply, hv]
  exact .number scope _ v

/-- A name tells a variable, or with its argument a call. -/
theorem named {q : Parser Tree} (h : ∀ c, Tells (Told scope 0 0 1) q c)
    (ht : c.tokens = .word (c.run Scope.isLetter) :: (c.skip Scope.isLetter).tokens) :
    Tells (Told scope 0 0 0) (named scope q) c := by
  have hname : Tells (fun ts meaning steps => ts = [.word (c.run Scope.isLetter)] ∧
      (name scope c).steps = steps ∧
        scope.meaning? (String.ofList (c.run Scope.isLetter)) = some meaning)
      (name scope) c := by
    intro meaning c' hm
    obtain ⟨meaning', hmeaning, hr⟩ := (name_eq_ok scope c).1 hm
    obtain ⟨rfl, rfl⟩ := Prod.mk.inj hr
    exact ⟨[_], ht, rfl, rfl, hmeaning⟩
  refine hname.bind fun ts meaning steps c₁ hr => ?_
  obtain ⟨rfl, rfl, hmeaning⟩ := hr
  rw [name_apply, hmeaning]
  cases meaning with
  | cell d =>
      refine pure ?_
      exact .name hmeaning
  | builtin f =>
      refine (h c₁).bind fun us t steps' c₂ ht' => pure ?_
      rw [List.append_nil, List.append_nil]
      exact ht'.call hmeaning

/-- What stands without parentheses tells its leaf or its call. -/
theorem unopened {q : Parser Tree} (h : ∀ c, Tells (Told scope 0 0 1) q c)
    (hs : c.lookahead ≠ some ' ') : Tells (Told scope 0 0 0) (unopened scope q) c := by
  rw [Tells, Parse.unopened, bind_of_eq _ (p := lookahead) rfl]
  cases Cursor.sight hs with
  | ended look ht =>
      rw [look]
      exact unexpected
  | figure look ht =>
      rw [if_pos look]
      exact number ht
  | letter look look' ht =>
      rw [if_neg (by simp [look]), if_pos look']
      exact named h ht
  | mark ch hm look ht =>
      rw [look, Option.any_some, hm.2.1, Option.any_some, hm.2.2]
      exact unexpected

/-- A base tells what stands in it. -/
theorem base {p q : Parser Tree} (h : ∀ c, Tells (Told scope 1 0 0) p c)
    (h' : ∀ c, Tells (Told scope 0 0 1) q c) : Tells (Told scope 0 0 0) (base scope p q) c := by
  rw [base_eq]
  exact take (by decide) (fun c' => group (h c')) (unopened h' c.lookahead_skipSpaces)

/-- A factor tells its sign, its base and its exponent. -/
theorem signed {p q : Parser Tree} (h : ∀ c, Tells (Told scope 0 0 0) (Parse.base scope p q) c)
    (h' : ∀ c, Tells (Told scope 0 0 1) q c) :
    Tells (Told scope 0 0 0) (signed scope p q) c := by
  refine take (by decide) (fun c₁ t c' ht => ?_) (take (by decide) (fun c₁ => ?_) ?_)
  · obtain ⟨ts, hts, hr⟩ := h' c₁ t c' ht
    exact ⟨ts, hts, hr.plus⟩
  · refine (h' c₁).bind fun ts t steps c₂ ht => pure ?_
    rw [List.append_nil, List.append_nil]
    exact ht.minus
  · exact (h _).bind fun ts t steps c₁ ht => powerOf ht h'

/-- The end of a text has nothing to tell. -/
theorem ending {R : List Token → Tree → List Step → Prop} {t : Tree} (h : R [] t []) :
    Tells R (ending t) c := by
  intro u c' hu
  obtain ⟨rfl, -, rfl⟩ := ending_eq_ok.1 hu
  refine ⟨[], c.tokens_skipSpaces.symm, ?_⟩
  rw [ending_apply]
  split <;> exact h

end Tells

/-! ## The rules -/

/-- **RETELLING.** The parser of a phrase tells its tree. -/
theorem rule_told (scope : Scope) :
    ∀ phrase n c, Tells (phrase.Told scope) (rule scope phrase n) c := by
  refine rule_induction ?expression_zero ?moreTerms_zero ?moreFactors_zero ?factor_zero
    ?expression_succ ?moreTerms_succ ?moreFactors_succ ?factor_succ ?term ?base
  all_goals simp only [Phrase.Told]
  case expression_zero =>
    intro c
    rw [rule_expression_zero]
    exact .within (R := fun _ _ _ => False) .exhausted fun _ _ _ _ _ h => h.elim
  case moreTerms_zero =>
    intro left c
    rw [rule_moreTerms_zero]
    exact .chain .last fun _ _ _ => .exhausted
  case moreFactors_zero =>
    intro left c
    rw [rule_moreFactors_zero]
    exact .chain .last fun _ _ _ => .exhausted
  case factor_zero =>
    intro c
    rw [rule_factor_zero]
    exact .within (R := fun _ _ _ => False) .exhausted fun _ _ _ _ _ h => h.elim
  case expression_succ =>
    intro n ht hs c
    rw [rule_expression_succ]
    exact .within (.chained (ht c) hs) fun _ _ _ _ _ h => h.enclose rfl rfl rfl
  case moreTerms_succ =>
    intro n ht hs left c
    rw [rule_moreTerms_succ]
    -- the term after a plus or a minus opens one term more than its factors account for
    refine .chain .last fun op hop c' => .fold (fun c => ?_) hs
    rw [if_pos hop, if_pos hop]
    exact ht c
  case moreFactors_succ =>
    intro n hf hp left c
    rw [rule_moreFactors_succ]
    -- and the factor after another operator of a chain one factor more
    refine .chain .last fun op hop c' => .fold (fun c => ?_) hp
    have hnot : op ∉ Operator.additive := by revert hop; cases op <;> decide
    rw [if_neg hnot, if_neg hnot]
    exact hf c
  case factor_succ =>
    intro n hb hf c
    rw [rule_factor_succ]
    exact (Tells.signed hb hf).within fun _ _ _ _ _ h => h.enclose rfl rfl rfl
  case term =>
    intro n hf hp c
    rw [rule_term]
    exact .within (.chained (hf c) hp) fun _ _ _ _ _ h => h.enclose rfl rfl rfl
  case base =>
    intro n he hf c
    rw [rule_base]
    exact .base he hf

/-- What builds has told its tree with all its tokens. -/
theorem formula_told (scope : Scope) (n : Nat) (c : Cursor) :
    Tells (Told scope 1 0 0) (formula scope n) c := by
  rw [formula_eq]
  refine (rule_told scope .expression n c).bind fun ts t steps c₁ ht => .ending ?_
  rwa [List.append_nil, List.append_nil]

end Parse

namespace Draft

/-- **RETELLING.** The log of a build that succeeds tells its tree: the numbers, a name of each
    cell and the functions, each before its argument.  Expressions were opened once and once for
    each opening parenthesis, terms once more for each sum, and factors once more for each
    product, quotient, power and call and for each sign. -/
theorem build_retold {d : Draft} {s : Store} {f : Formula} (h : (d.build s).outcome = .ok f) :
    ∃ steps, (d.build s).log.filterMap Record.step? = d.log.filterMap Record.step? ++ steps ∧
      f.root.Retold d.scope (leafLines steps) ∧
      openings .expression steps = 1 + d.source.toList.count '(' ∧
      openings .term steps = openings .expression steps + f.root.sums ∧
      openings .factor steps = openings .term steps + f.root.products +
        unarySigns d.scope false (scan d.source.toList) := by
  obtain ⟨-, hderives⟩ := (buildWithin_eq_ok_iff s f).1 h
  obtain ⟨c, hc⟩ := formula_eq_ok_iff.2 hderives
  obtain ⟨ts, hts, htold⟩ := formula_told d.scope maxDepth _ f.root c hc
  obtain ⟨c₁, -, hnil, rfl⟩ := formula_eq_ok.1 hc
  rw [Cursor.tokens_skipSpaces, hnil, List.append_nil, Cursor.tokens_start] at hts
  subst hts
  obtain ⟨hlines, -, hexpressions, hterms, hfactors⟩ := htold
  rw [count_mark_scan (by decide)] at hexpressions
  exact ⟨_, filterMap_step?_log d s, hlines, hexpressions.trans (Nat.add_comm _ _), hterms,
    hfactors.trans (Nat.add_right_comm _ _ _)⟩

/-- A difference with a call and a sign in its group. -/
theorem build_retold_signedArgument :
    let f : Formula := ⟨"x-sin(+y)", .binary (.cell ⟨0⟩) .subtract (.call .sin (.cell ⟨1⟩))⟩
    ((twoNames.withSource "x-sin(+y)").build .empty).outcome = .ok f ∧
      ∃ steps, ((twoNames.withSource "x-sin(+y)").build .empty).log.filterMap Record.step? = steps ∧
        f.root.Retold twoNames.scope (leafLines steps) ∧
        openings .expression steps = 2 ∧ openings .term steps = 3 ∧ openings .factor steps = 5 := by
  intro f
  have hf : ((twoNames.withSource "x-sin(+y)").build .empty).outcome = .ok f := rfl
  obtain ⟨steps, hsteps, hlines, hexpressions, hterms, hfactors⟩ := build_retold hf
  refine ⟨hf, steps, hsteps, hlines, hexpressions, ?_, ?_⟩
  · rw [hterms, hexpressions]
    rfl
  · rw [hfactors, hterms, hexpressions]
    decide +kernel

end Draft

end LiveArith
