import LiveArith.Parse.Runs
import LiveArith.Proofs.Motion
import LiveArith.Proofs.Language

/-! # Lockstep — two runs side by side

    Facts about two texts, or about one text and two limits, compare two runs of
    one parser.  Such a comparison says which cursors correspond and what two runs
    from such cursors come to.  The route:

    * numbers and names are read alike, as runs that mean something (`leaf_figures`,
      `leaf_letters`);
    * a run ends after its start and after every place it records (`Forward`);
    * a `Lockstep` is a comparison that sequences keep and the primitives have;
    * every making of a rule keeps it (`Related.chain` … `Related.signed`), and by
      rule induction each rule stands in it to itself (`rule_keeps`), and so does
      the parser of whole texts (`formula_keeps`). -/

namespace LiveArith

/-- A run of characters only moves the cursor on. -/
theorem Cursor.position_le_skip (c : Cursor) (p : Char → Bool) :
    c.position ≤ (c.skip p).position :=
  Nat.le_add_right _ _

/-- The error of a run is at the place that it is given. -/
theorem ParseError.position_ofRun (k : Token.RunKind) (run : String) (p : Nat) :
    (ofRun k run p).position = p := by
  cases k <;> rfl

namespace Parse

open LiveArith.Grammar LiveArith.Parse.Parser LiveArith.Token

variable {α β : Type} {scope : Scope} {k : RunKind} {c : Cursor}

/-! ## Leaves -/

/-- A run that means something is read to it. -/
theorem leaf_of_some {step : Step} {a : k.Value}
    (h : reading? scope k (c.run k.holds) = some (step, a)) :
    leaf scope k c = ⟨[step], .ok (a, c.skip k.holds)⟩ := by
  rw [leaf, h]

/-- A run that means nothing is an error where it begins. -/
theorem leaf_of_none (h : reading? scope k (c.run k.holds) = none) :
    leaf scope k c =
      ⟨[], .error (.ofRun k (String.ofList (c.run k.holds)) c.position)⟩ := by
  rw [leaf, h]

/-- The leaf of a run of figures is a number. -/
theorem leaf_figures (scope : Scope) : leaf scope .figures = number := by
  funext c
  rw [number_apply]
  cases h : Literal.read? (c.run Literal.isFigure) with
  | none => exact leaf_of_none (congrArg (Option.map _) h)
  | some v => exact leaf_of_some (congrArg (Option.map _) h)

/-- The leaf of a run of letters is a name. -/
theorem leaf_letters (scope : Scope) : leaf scope .letters = name scope := by
  funext c
  rw [name_apply]
  cases h : scope.meaning? (String.ofList (c.run Scope.isLetter)) with
  | none => exact leaf_of_none (congrArg (Option.map _) h)
  | some m => cases m <;> exact leaf_of_some (congrArg (Option.map _) h)

/-- The step of a leaf: it tells neither a place nor a room. -/
def Step.IsLeaf : Step → Prop
  | .number _ | .variableName _ _ | .functionName _ => True
  | .opened _ _ _ | .closed _ _ _ | .folding _ _ _ | .exhausted _ => False

/-- Reading a run records a leaf. -/
theorem isLeaf_of_reading? {run : List Char} {step : Step} {a : k.Value}
    (h : reading? scope k run = some (step, a)) : step.IsLeaf := by
  cases k with
  | figures =>
      obtain ⟨v, -, hv⟩ := Option.map_eq_some_iff.1 h
      rw [← (Prod.mk.inj hv).1]
      exact True.intro
  | letters =>
      obtain ⟨m, -, hm⟩ := Option.map_eq_some_iff.1 h
      rw [← (Prod.mk.inj hm).1]
      cases m <;> exact True.intro

/-! ## Where a run ends -/

/-- Where the run ended: at the cursor it left, or at the place of its error. -/
def Run.stop (r : Run α) : Nat :=
  match r.result with
  | .ok (_, c) => c.position
  | .error e => e.position

/-- A run that succeeds ends at the cursor it leaves. -/
theorem Run.stop_of_ok {r : Run α} {a : α} {c : Cursor} (h : r.result = .ok (a, c)) :
    r.stop = c.position := by
  rw [Run.stop, h]

/-- A run that fails ends at the place of its error. -/
theorem Run.stop_of_error {r : Run α} {e : ParseError} (h : r.result = .error e) :
    r.stop = e.position := by
  rw [Run.stop, h]

/-- The place that a step records; the step of a leaf records none. -/
def Step.place : Step → Nat
  | .opened _ position _ => position
  | .closed _ _ stop => stop
  | .folding _ position _ => position
  | .exhausted position => position
  | .number _ | .variableName _ _ | .functionName _ => 0

/-- A leaf records no place. -/
theorem Step.IsLeaf.place_eq {step : Step} (h : step.IsLeaf) : step.place = 0 := by
  cases step <;> first | rfl | exact h.elim

/-- The runs of the parser end after their start and after every place they record. -/
def Forward (p : Parser α) : Prop :=
  ∀ c, c.position ≤ (p c).stop ∧ ∀ step ∈ (p c).steps, step.place ≤ (p c).stop

namespace Forward

/-- A parser that records at most the place where it starts has only to end after that. -/
theorem of_steps {p : Parser α} (hs : ∀ c, ∀ step ∈ (p c).steps, step.place ≤ c.position)
    (h : ∀ c, c.position ≤ (p c).stop) : Forward p :=
  fun c => ⟨h c, fun step hstep => Nat.le_trans (hs c step hstep) (h c)⟩

theorem pure (a : α) : Forward (Pure.pure a : Parser α) :=
  of_steps (fun _ => nofun) fun _ => Nat.le_refl _

/-- Looking ahead stays where it is. -/
theorem lookahead : Forward Parser.lookahead :=
  of_steps (fun _ => nofun) fun _ => Nat.le_refl _

/-- A failure is reported where it is. -/
theorem unexpected : Forward (Parser.unexpected : Parser α) :=
  of_steps (fun _ => nofun) fun _ => Nat.le_refl _

/-- Spaces are only gone past. -/
theorem skipSpaces : Forward Parser.skipSpaces :=
  of_steps (fun _ => nofun) fun c => c.position_le_skip _

/-- Running out of levels is reported where it is. -/
theorem exhausted : Forward (Parser.exhausted : Parser α) := by
  refine of_steps (fun c step hstep => ?_) fun _ => Nat.le_refl _
  rw [List.mem_singleton.1 hstep]
  exact Nat.le_refl _

/-- A leaf goes past its run, or is an error where it begins. -/
theorem leaf (scope : Scope) (k : RunKind) : Forward (leaf scope k) := by
  refine of_steps (fun c step hstep => ?_) fun c => ?_
  · cases h : reading? scope k (c.run k.holds) with
    | none =>
        rw [leaf_of_none h] at hstep
        exact nomatch hstep
    | some r =>
        rw [leaf_of_some h] at hstep
        rw [List.mem_singleton.1 hstep, (isLeaf_of_reading? h).place_eq]
        exact Nat.zero_le _
  · cases h : reading? scope k (c.run k.holds) with
    | none =>
        rw [leaf_of_none h]
        exact Nat.le_of_eq (ParseError.position_ofRun k _ _).symm
    | some r =>
        rw [leaf_of_some h]
        exact c.position_le_skip _

/-- A sequence goes forward if its parts do. -/
theorem bind {p : Parser α} {f : α → Parser β} (hp : Forward p) (hf : ∀ a, Forward (f a)) :
    Forward (p >>= f) := by
  intro c
  obtain ⟨hstart, hsteps⟩ := hp c
  cases h : (p c).result with
  | error e =>
      rw [bind_of_error f h]
      rw [Run.stop_of_error h] at hstart hsteps
      exact ⟨hstart, hsteps⟩
  | ok r =>
      obtain ⟨a, c'⟩ := r
      obtain ⟨hstart', hsteps'⟩ := hf a c'
      rw [bind_of_ok f h]
      rw [Run.stop_of_ok h] at hstart hsteps
      refine ⟨Nat.le_trans hstart hstart', fun step hstep => ?_⟩
      rcases List.mem_append.1 hstep with hm | hm
      · exact Nat.le_trans (hsteps step hm) hstart'
      · exact hsteps' step hm

/-- A rule goes forward if its body does, and records its own start and end. -/
theorem within {rule : Rule} {room : Nat} {p : Parser α} (hp : Forward p) :
    Forward (within rule room p) := by
  intro c
  obtain ⟨hstart, hsteps⟩ := hp c
  cases h : (p c).result with
  | error e =>
      rw [within_of_error h]
      rw [Run.stop_of_error h] at hstart hsteps
      refine ⟨hstart, fun step hstep => ?_⟩
      rcases List.mem_cons.1 hstep with rfl | hm
      · exact hstart
      · exact hsteps step hm
  | ok r =>
      obtain ⟨a, c'⟩ := r
      rw [within_of_ok h]
      rw [Run.stop_of_ok h] at hstart hsteps
      refine ⟨hstart, fun step hstep => ?_⟩
      rcases List.mem_cons.1 hstep with rfl | hm
      · exact hstart
      rcases List.mem_append.1 hm with hm | hm
      · exact hsteps step hm
      · rw [List.mem_singleton.1 hm]
        exact Nat.le_refl _

end Forward

/-! ## Comparisons of two runs -/

/-- No space stands before either cursor's next token. -/
def Sighted (c d : Cursor) : Prop :=
  c.lookahead ≠ some ' ' ∧ d.lookahead ≠ some ' '

/-- Takes the character at the cursor if it is `ch`. -/
def here (ch : Char) : Parser Bool := fun c =>
  if c.lookahead = some ch then ⟨[], .ok (true, c.drop 1)⟩ else ⟨[], .ok (false, c)⟩

/-- Takes the character at the cursor if it is the symbol of one of the operators. -/
def operatorHere (ops : List Operator) : Parser (Option Operator) := fun c =>
  match ops.find? fun op => c.lookahead == some op.symbol with
  | some op => ⟨[], .ok (some op, c.drop 1)⟩
  | none => ⟨[], .ok (none, c)⟩

/-- A base that no parenthesis opens: the next character tells its kind. -/
def unopened (scope : Scope) (factor : Parser Tree) : Parser Tree := do
  let next ← lookahead
  if next.any Literal.isFigure then number
  else if next.any Scope.isLetter then named scope factor
  else unexpected

/-- Counts the level of a fold. -/
def countFold (op : Operator) (room : Nat) : Parser Unit := fun c =>
  ⟨[.folding op c.position room], .ok ((), c)⟩

theorem take_eq (ch : Char) : take ch = skipSpaces >>= fun _ => here ch := rfl

theorem takeOperator_eq (ops : List Operator) :
    takeOperator ops = skipSpaces >>= fun _ => operatorHere ops := rfl

theorem base_eq (scope : Scope) (expression factor : Parser Tree) :
    base scope expression factor =
      take '(' >>= fun opened => if opened then group expression else unopened scope factor := rfl

theorem fold_eq (room : Nat) (left : Tree) (operand : Parser Tree) (tail : Tree → Parser Tree)
    (op : Operator) :
    fold room left operand tail op =
      countFold op room >>= fun _ => operand >>= fun t => tail (.binary left op t) := rfl

/-- A comparison of two runs.  `place` says which cursors correspond, `counts` and `opens`
    which rooms the two runs may record, and `holds Q` what they come to; `Q` is what the
    comparison knows of a common result and the two cursors after it. -/
structure Lockstep (scope : Scope) where
  place : Cursor → Cursor → Prop
  counts : Nat → Nat → Prop
  opens : Rule → Nat → Nat → Prop
  holds : {α : Type} → (α → Cursor → Cursor → Prop) → Run α → Run α → Prop
  holds_pure : ∀ {α : Type} {Q : α → Cursor → Cursor → Prop} {a : α} {c d : Cursor}, Q a c d →
    holds Q ⟨[], .ok (a, c)⟩ ⟨[], .ok (a, d)⟩
  holds_bind : ∀ {α β : Type} {Q : α → Cursor → Cursor → Prop} {S : β → Cursor → Cursor → Prop}
    {p q : Parser α} {f g : α → Parser β} {c d : Cursor}, holds Q (p c) (q d) →
    (∀ a c' d', Q a c' d' → holds S (f a c') (g a d')) → (∀ a, Forward (f a)) →
    holds S ((p >>= f) c) ((q >>= g) d)
  holds_within : ∀ {rule : Rule} {n m : Nat} {p q : Parser Tree} {c d : Cursor},
    opens rule n m → place c d → holds (fun _ => place) (p c) (q d) →
    holds (fun _ => place) (within rule n p c) (within rule m q d)
  holds_countFold : ∀ {op : Operator} {n m : Nat} {c d : Cursor}, counts n m → place c d →
    holds (fun _ => place) (countFold op n c) (countFold op m d)
  holds_skipSpaces : ∀ {c d : Cursor}, place c d →
    holds (fun _ c d => place c d ∧ Sighted c d) (skipSpaces c) (skipSpaces d)
  lookahead_eq : ∀ {c d : Cursor}, place c d → Sighted c d → c.lookahead = d.lookahead
  holds_mark : ∀ {α : Type} {Q : α → Cursor → Cursor → Prop} {a : α} {ch : Char} {c d : Cursor},
    ch ∈ marks → place c d → c.lookahead = some ch → d.lookahead = some ch →
    (place (c.drop 1) (d.drop 1) → Q a (c.drop 1) (d.drop 1)) →
    holds Q ⟨[], .ok (a, c.drop 1)⟩ ⟨[], .ok (a, d.drop 1)⟩
  holds_unexpected : ∀ {α : Type} {Q : α → Cursor → Cursor → Prop} {c d : Cursor}, place c d →
    Sighted c d → holds Q (unexpected c) (unexpected d)
  holds_leaf : ∀ {k : RunKind} {c d : Cursor}, place c d → Sighted c d →
    c.lookahead.any k.holds = true → holds (fun _ => place) (leaf scope k c) (leaf scope k d)

namespace Lockstep

variable (L : Lockstep scope)

/-- From cursors of which `P` holds the two parsers come to what the comparison says, and the
    first of them goes forward. -/
structure Related (P : Cursor → Cursor → Prop) (Q : α → Cursor → Cursor → Prop)
    (p q : Parser α) : Prop where
  holds : ∀ {c d}, P c d → L.holds Q (p c) (q d)
  forward : Forward p

/-- The two parsers bring corresponding cursors to corresponding cursors. -/
abbrev Keeps (p q : Parser α) : Prop :=
  L.Related L.place (fun _ => L.place) p q

/-- Corresponding cursors past the spaces. -/
def Seen (c d : Cursor) : Prop :=
  L.place c d ∧ Sighted c d

namespace Related

variable {L} {P : Cursor → Cursor → Prop} {Q : α → Cursor → Cursor → Prop}
  {S : β → Cursor → Cursor → Prop}

theorem pure {a : α} (h : ∀ c d, P c d → Q a c d) :
    L.Related P Q (Pure.pure a) (Pure.pure a) :=
  ⟨fun hP => L.holds_pure (h _ _ hP), .pure a⟩

/-- Sequences are related if their parts are, the second from where the first come to. -/
theorem bind {p q : Parser α} {f g : α → Parser β} (h : L.Related P Q p q)
    (hf : ∀ a, L.Related (Q a) S (f a) (g a)) : L.Related P S (p >>= f) (q >>= g) :=
  ⟨fun hP => L.holds_bind (h.holds hP) (fun a _ _ hQ => (hf a).holds hQ) fun a => (hf a).forward,
    h.forward.bind fun a => (hf a).forward⟩

/-- What is related from some pairs of cursors is related from fewer of them. -/
theorem mono {p q : Parser α} (h : L.Related P Q p q) {P' : Cursor → Cursor → Prop}
    (hP : ∀ {c d}, P' c d → P c d) : L.Related P' Q p q :=
  ⟨fun h' => h.holds (hP h'), h.forward⟩

/-- Behind the spaces both see the same. -/
theorem skipSpaces : L.Related L.place (fun _ => L.Seen) skipSpaces skipSpaces :=
  ⟨L.holds_skipSpaces, .skipSpaces⟩

/-- Where both see the same they fail alike. -/
theorem unexpected : L.Related L.Seen Q Parser.unexpected Parser.unexpected :=
  ⟨fun h => L.holds_unexpected h.1 h.2, .unexpected⟩

/-- After a mark that is looked for in vain the cursors are past the spaces. -/
theorem take {ch : Char} (hm : ch ∈ marks) :
    L.Related L.place (fun taken c d => L.place c d ∧ (taken = false → Sighted c d))
      (take ch) (take ch) := by
  rw [take_eq]
  refine skipSpaces.bind fun _ => ⟨fun {c d} h => ?_, .of_steps (fun c => ?_) fun c => ?_⟩
  · have hlook := L.lookahead_eq h.1 h.2
    by_cases hc : c.lookahead = some ch
    · rw [here, here, if_pos hc, if_pos (hlook ▸ hc)]
      exact L.holds_mark hm h.1 hc (hlook ▸ hc) fun hplace => ⟨hplace, nofun⟩
    · rw [here, here, if_neg hc, if_neg (hlook ▸ hc)]
      exact L.holds_pure ⟨h.1, fun _ => h.2⟩
  · rw [here]
    split <;> exact nofun
  · rw [here]
    split
    · exact Nat.le_add_right _ _
    · exact Nat.le_refl _

/-- Both take the same operator. -/
theorem takeOperator (ops : List Operator) :
    L.Keeps (takeOperator ops) (takeOperator ops) := by
  rw [takeOperator_eq]
  refine skipSpaces.bind fun _ => ⟨fun {c d} h => ?_, .of_steps (fun c => ?_) fun c => ?_⟩
  · have hlook := L.lookahead_eq h.1 h.2
    rw [operatorHere, operatorHere, ← hlook]
    cases hf : ops.find? fun op => c.lookahead == some op.symbol with
    | none => exact L.holds_pure h.1
    | some op =>
        have hc : c.lookahead = some op.symbol := by simpa using List.find?_some hf
        exact L.holds_mark (symbol_mem_marks op) h.1 hc (hlook ▸ hc) id
  · rw [operatorHere]
    split <;> exact nofun
  · rw [operatorHere]
    split
    · exact Nat.le_add_right _ _
    · exact Nat.le_refl _

/-- Both count a fold, with rooms that may be compared. -/
theorem countFold (op : Operator) {n m : Nat} (h : L.counts n m) :
    L.Keeps (countFold op n) (countFold op m) := by
  refine ⟨L.holds_countFold h, .of_steps (fun c step hstep => ?_) fun _ => Nat.le_refl _⟩
  rw [List.mem_singleton.1 hstep]
  exact Nat.le_refl _

variable {p q p' q' : Parser Tree}

/-- Rules are related if their bodies are, opened with rooms that may be compared. -/
theorem within {rule : Rule} {n m : Nat} (hr : L.opens rule n m) (h : L.Keeps p q) :
    L.Keeps (within rule n p) (within rule m q) :=
  ⟨fun hP => L.holds_within hr hP (h.holds hP), h.forward.within⟩

/-- Chains are related if what comes behind their operators is. -/
theorem chain {ops : List Operator} {left : Tree} {more more' : Operator → Parser Tree}
    (h : ∀ op, L.Keeps (more op) (more' op)) :
    L.Keeps (chain ops left more) (chain ops left more') := by
  refine (takeOperator ops).bind fun found => ?_
  cases found with
  | none => exact pure fun _ _ hP => hP
  | some op => exact h op

/-- Folds are related if their operands and the rests of their chains are. -/
theorem fold {n m : Nat} (hc : L.counts n m) {left : Tree} {tail tail' : Tree → Parser Tree}
    (op : Operator) (h : L.Keeps p q) (ht : ∀ t, L.Keeps (tail t) (tail' t)) :
    L.Keeps (fold n left p tail op) (fold m left q tail' op) := by
  rw [fold_eq, fold_eq]
  exact (countFold op hc).bind fun _ => h.bind fun t => ht _

/-- Powers are related if their exponents are. -/
theorem powerOf (t : Tree) (h : L.Keeps p q) : L.Keeps (powerOf p t) (powerOf q t) := by
  refine (take (by decide)).bind fun taken => ?_
  cases taken with
  | true =>
      refine mono ?_ And.left
      exact h.bind fun u => pure fun _ _ hP => hP
  | false => exact pure fun _ _ hP => hP.1

/-- Groups are related if the expressions in them are. -/
theorem group (h : L.Keeps p q) : L.Keeps (group p) (group q) := by
  refine h.bind fun t => (take (by decide)).bind fun taken => ?_
  cases taken with
  | true => exact pure fun _ _ hP => hP.1
  | false =>
      refine mono unexpected fun hP => ?_
      exact ⟨hP.1, hP.2 rfl⟩

/-- A run of a kind, at cursors where one begins. -/
theorem leaf (k : RunKind) :
    L.Related (fun c d => L.Seen c d ∧ c.lookahead.any k.holds = true) (fun _ => L.place)
      (leaf scope k) (leaf scope k) :=
  ⟨fun hP => L.holds_leaf hP.1.1 hP.1.2 hP.2, .leaf scope k⟩

/-- Variables and calls are related if the arguments are. -/
theorem named (h : L.Keeps p q) :
    L.Related (fun c d => L.Seen c d ∧ c.lookahead.any Scope.isLetter = true)
      (fun _ => L.place) (named scope p) (named scope q) := by
  have hname := leaf (L := L) .letters
  rw [leaf_letters] at hname
  refine hname.bind fun meaning => ?_
  cases meaning with
  | cell e => exact pure fun _ _ hP => hP
  | builtin f => exact h.bind fun t => pure fun _ _ hP => hP

/-- What stands without parentheses is related if the arguments are. -/
theorem unopened (h : L.Keeps p q) :
    L.Related L.Seen (fun _ => L.place) (unopened scope p) (unopened scope q) := by
  have hnumber := leaf (L := L) .figures
  rw [leaf_figures] at hnumber
  refine ⟨fun {c d} hseen => ?_, Forward.lookahead.bind fun next => ?_⟩
  · rw [Parse.unopened, Parse.unopened, bind_of_eq _ (p := lookahead) rfl,
      bind_of_eq _ (p := lookahead) rfl, ← L.lookahead_eq hseen.1 hseen.2]
    cases hfigure : c.lookahead.any Literal.isFigure with
    | true => exact hnumber.holds ⟨hseen, hfigure⟩
    | false =>
        cases hletter : c.lookahead.any Scope.isLetter with
        | true => exact h.named.holds ⟨hseen, hletter⟩
        | false => exact L.holds_unexpected hseen.1 hseen.2
  · split
    · exact hnumber.forward
    · split
      · exact h.named.forward
      · exact .unexpected

/-- Bases are related if what can stand in them is. -/
theorem base (h : L.Keeps p q) (h' : L.Keeps p' q') :
    L.Keeps (base scope p p') (base scope q q') := by
  rw [base_eq, base_eq]
  refine (take (by decide)).bind fun taken => ?_
  cases taken with
  | true => exact mono h.group And.left
  | false =>
      refine mono h'.unopened fun hP => ?_
      exact ⟨hP.1, hP.2 rfl⟩

/-- Factors are related if their bases are, and what their signs stand before. -/
theorem signed (h : L.Keeps (Parse.base scope p p') (Parse.base scope q q'))
    (h' : L.Keeps p' q') : L.Keeps (signed scope p p') (signed scope q q') := by
  refine (take (by decide)).bind fun plus => mono ?_ And.left
  cases plus with
  | true => exact h'
  | false =>
      refine (take (by decide)).bind fun minus => mono ?_ And.left
      cases minus with
      | true => exact h'.bind fun t => pure fun _ _ hP => hP
      | false => exact h.bind fun t => h'.powerOf t

/-- Both texts end, or neither does. -/
theorem ending (t : Tree) : L.Keeps (ending t) (ending t) := by
  refine skipSpaces.bind fun _ => ⟨fun {c d} hseen => ?_, Forward.lookahead.bind fun next => ?_⟩
  · rw [bind_of_eq _ (p := lookahead) rfl, bind_of_eq _ (p := lookahead) rfl,
      ← L.lookahead_eq hseen.1 hseen.2]
    cases c.lookahead with
    | none => exact L.holds_pure hseen.1
    | some ch => exact L.holds_unexpected hseen.1 hseen.2
  · cases next with
    | none => exact .pure t
    | some ch => exact .unexpected

end Related

/-! ## The rules beside themselves -/

/-- **LOCKSTEP.** A comparison that allows equal rooms and sees a level run out on both sides
    alike holds of each rule beside itself. -/
theorem rule_keeps (hcounts : ∀ n, L.counts n n) (hopens : ∀ rule n, L.opens rule n n)
    (hexhausted : L.Keeps (exhausted : Parser Tree) exhausted) :
    ∀ phrase n, L.Keeps (rule scope phrase n) (rule scope phrase n) := by
  refine rule_induction ?expression_zero ?moreTerms_zero ?moreFactors_zero ?factor_zero
    ?expression_succ ?moreTerms_succ ?moreFactors_succ ?factor_succ ?term ?base
  case expression_zero =>
    rw [rule_expression_zero]
    exact hexhausted.within (hopens _ _)
  case moreTerms_zero =>
    intro left
    rw [rule_moreTerms_zero]
    exact .chain fun _ => hexhausted
  case moreFactors_zero =>
    intro left
    rw [rule_moreFactors_zero]
    exact .chain fun _ => hexhausted
  case factor_zero =>
    rw [rule_factor_zero]
    exact hexhausted.within (hopens _ _)
  case expression_succ =>
    intro n ht hs
    rw [rule_expression_succ]
    exact (ht.bind hs).within (hopens _ _)
  case moreTerms_succ =>
    intro n ht hs left
    rw [rule_moreTerms_succ]
    exact .chain fun op => .fold (hcounts _) op ht hs
  case moreFactors_succ =>
    intro n hf hp left
    rw [rule_moreFactors_succ]
    exact .chain fun op => .fold (hcounts _) op hf hp
  case factor_succ =>
    intro n hb hf
    rw [rule_factor_succ]
    exact (Related.signed hb hf).within (hopens _ _)
  case term =>
    intro n hf hp
    rw [rule_term]
    exact (hf.bind hp).within (hopens _ _)
  case base =>
    intro n he hf
    rw [rule_base]
    exact he.base hf

/-- The parser of whole texts is related to itself if the rules are. -/
theorem formula_keeps (hcounts : ∀ n, L.counts n n) (hopens : ∀ rule n, L.opens rule n n)
    (hexhausted : L.Keeps (exhausted : Parser Tree) exhausted) (n : Nat) :
    L.Keeps (formula scope n) (formula scope n) := by
  rw [formula_eq]
  exact (L.rule_keeps hcounts hopens hexhausted .expression n).bind .ending

end Lockstep

end Parse

end LiveArith
