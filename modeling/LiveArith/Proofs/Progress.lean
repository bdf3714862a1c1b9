import LiveArith.Proofs.Allowance
import LiveArith.Proofs.Enclosing

/-! # Progress — a parse goes forward and opens few rules

    An expression begins with a term and a term with a factor, and none of them has
    read anything by then; still no rule is opened without end, for what is opened
    is paid for by what is read.  The route:

    * the places that a run tells, in order (`Run.places`);
    * `Run.Advances c before after`: from `c` on these places never go back, and with
      `before` credits and three more for each character it passes, the run pays one
      for each rule it opens and has `after` left;
    * sequences hand their credits on (`Run.Advances.bind`), a mark that is taken adds
      three (`Advances.take`), and by rule induction each phrase begins with its
      `Phrase.rank` and leaves three (`rule_advances`);
    * the tokens of an operand are at least one, so a rule that succeeds has passed
      more than spaces (`rule_passes`), and a turn of a chain passes two characters. -/

namespace LiveArith

open LiveArith.Grammar LiveArith.Parse LiveArith.Token

/-- Two ordered lists that meet in one place are ordered together. -/
theorem pairwise_le_append (ps : List Nat) {qs : List Nat} {m : Nat}
    (h : (ps ++ [m]).Pairwise (· ≤ ·)) (h' : (m :: qs).Pairwise (· ≤ ·)) :
    (ps ++ qs).Pairwise (· ≤ ·) := by
  obtain ⟨hps, -, hlast⟩ := List.pairwise_append.1 h
  obtain ⟨hfirst, hqs⟩ := List.pairwise_cons.1 h'
  refine List.pairwise_append.2 ⟨hps, hqs, fun p hp q hq => ?_⟩
  exact Nat.le_trans (hlast p hp m List.mem_cons_self) (hfirst q hq)

/-- A run of characters that begins at the cursor moves it on. -/
theorem Cursor.position_lt_skip {c : Cursor} {p : Char → Bool} (h : c.lookahead.any p = true) :
    c.position < (c.skip p).position := by
  obtain ⟨q, rest⟩ := c
  cases rest with
  | nil => exact nomatch h
  | cons ch rest =>
      have hch : p ch = true := h
      show q < q + ((ch :: rest).takeWhile p).length
      rw [List.takeWhile_cons_of_pos hch, List.length_cons]
      omega

/-- Where tokens were taken, more than spaces was passed. -/
theorem Cursor.Moves.passes_ne_space {c c' : Cursor} (h : Moves c c') {ts : List Token}
    (hts : c.tokens = ts ++ c'.tokens) (hne : ts ≠ []) :
    ∃ passed, c.rest = passed ++ c'.rest ∧ c'.position = c.position + passed.length ∧
      ∃ ch ∈ passed, ch ≠ ' ' := by
  obtain ⟨passed, hrest, hposition⟩ := h.passes
  refine ⟨passed, hrest, hposition, ?_⟩
  by_contra hspaces
  have hall : ∀ ch ∈ passed, ch = ' ' := by
    intro ch hch
    by_contra hch'
    exact hspaces ⟨ch, hch, hch'⟩
  have htokens : c.tokens = c'.tokens := by
    rw [Cursor.tokens, hrest, scan_spaces_append hall, Cursor.tokens]
  rw [htokens] at hts
  exact hne (List.self_eq_append_left.1 hts)

namespace Grammar

/-- The rules that a phrase opens before it reads; what the rest of a chain opens was paid for
    by the operand before it. -/
def Phrase.rank : Phrase → Nat
  | .expression => 3
  | .term => 2
  | .factor => 1
  | .base => 0
  | .moreTerms _ | .moreFactors _ => 3

end Grammar

namespace Parse

open LiveArith.Parse.Parser LiveArith.Cursor

variable {α β : Type} {scope : Scope} {c : Cursor}

/-! ## What a run tells -/

/-- The place that a step tells, if it tells one. -/
def Step.place? : Step → Option Nat
  | .opened _ p _ => some p
  | .closed _ _ stop => some stop
  | .folding _ p _ => some p
  | .exhausted p => some p
  | .number _ | .variableName _ _ | .functionName _ => none

/-- The rule that a step opens, if it opens one. -/
def Step.opened? : Step → Option Rule
  | .opened rule _ _ => some rule
  | .closed _ _ _ | .folding _ _ _ | .exhausted _ => none
  | .number _ | .variableName _ _ | .functionName _ => none

theorem Step.IsLeaf.place?_eq {step : Step} (h : step.IsLeaf) : step.place? = none := by
  cases step <;> first | rfl | exact False.elim h

theorem Step.IsLeaf.opened?_eq {step : Step} (h : step.IsLeaf) : step.opened? = none := by
  cases step <;> first | rfl | exact False.elim h

/-- Without a step no place is told. -/
theorem places_nil (q : Nat) : ∀ step ∈ ([] : List Step), ∀ p ∈ step.place?, p = q :=
  fun _ hstep => absurd hstep List.not_mem_nil

/-- The places of a run in order: where it begins, those that its steps tell, and where it
    ends. -/
def Run.places (start : Nat) (r : Run α) : List Nat :=
  start :: (r.steps.filterMap Step.place? ++ [r.stop])

/-- The rules that the run opens, in order. -/
def Run.opened (r : Run α) : List Rule := r.steps.filterMap Step.opened?

/-- The credits that are left after the run; a run that fails needs none. -/
def Run.credit (after : α → Nat) (r : Run α) : Nat :=
  match r.result with
  | .ok (a, _) => after a
  | .error _ => 0

/-- From the cursor on the run goes forward, and `before` credits and three for each character
    it passes pay for the rules it opens, and for what it has left. -/
structure Run.Advances (c : Cursor) (before : Nat) (after : α → Nat) (r : Run α) : Prop where
  moves : ∀ a c', r.result = .ok (a, c') → Moves c c'
  ordered : (r.places c.position).Pairwise (· ≤ ·)
  stop_le : r.stop ≤ c.position + c.rest.length
  pays : r.opened.length + r.credit after + 3 * c.position ≤ 3 * r.stop + before

namespace Run.Advances

variable {before before' : Nat} {after : α → Nat} {r : Run α}

/-- A run that tells no place but the one where it begins. -/
theorem of_places (hmoves : ∀ a c', r.result = .ok (a, c') → Moves c c')
    (hplace : ∀ step ∈ r.steps, ∀ p ∈ step.place?, p = c.position) (hle : c.position ≤ r.stop)
    (hstop : r.stop ≤ c.position + c.rest.length)
    (hpays : r.opened.length + r.credit after + 3 * c.position ≤ 3 * r.stop + before) :
    r.Advances c before after := by
  refine ⟨hmoves, ?_, hstop, hpays⟩
  have hall : ∀ p ∈ c.position :: r.steps.filterMap Step.place?, p = c.position := by
    intro p hp
    rcases List.mem_cons.1 hp with rfl | hp
    · rfl
    · obtain ⟨step, hstep, hs⟩ := List.mem_filterMap.1 hp
      exact hplace step hstep p hs
  rw [Run.places, ← List.cons_append]
  refine List.pairwise_append.2 ⟨?_, List.pairwise_singleton _ _, ?_⟩
  · refine List.pairwise_of_forall_mem_list fun p hp q hq => ?_
    rw [hall p hp, hall q hq]
  · intro p hp q hq
    rw [hall p hp, List.mem_singleton.1 hq]
    exact hle

/-- A run that succeeds and tells no place but the one where it begins. -/
theorem of_ok {steps : List Step} {a : α} {c' : Cursor} (h : Moves c c')
    (hplace : ∀ step ∈ steps, ∀ p ∈ step.place?, p = c.position)
    (hpays : (steps.filterMap Step.opened?).length + after a + 3 * c.position ≤
      3 * c'.position + before) :
    Run.Advances c before after ⟨steps, .ok (a, c')⟩ := by
  obtain ⟨hle, hlen⟩ := h.bounds
  refine of_places (fun b d hr => ?_) hplace hle ?_ hpays
  · obtain ⟨-, rfl⟩ := Prod.mk.inj (Except.ok.inj hr)
    exact h
  · exact hlen ▸ Nat.le_add_right _ _

/-- A run that fails where it begins and opens no rule. -/
theorem of_error {steps : List Step} {e : ParseError} (he : e.position = c.position)
    (hplace : ∀ step ∈ steps, ∀ p ∈ step.place?, p = c.position)
    (hopens : steps.filterMap Step.opened? = []) :
    Run.Advances c before after ⟨steps, .error e⟩ := by
  refine of_places nofun hplace (Nat.le_of_eq he.symm) ?_ ?_
  · exact he ▸ Nat.le_add_right _ _
  · show (steps.filterMap Step.opened?).length + 0 + 3 * c.position ≤ 3 * e.position + before
    rw [hopens, he, List.length_nil]
    omega

/-- More credits do no harm. -/
theorem mono (h : r.Advances c before after) (hb : before ≤ before') :
    r.Advances c before' after :=
  ⟨h.moves, h.ordered, h.stop_le, Nat.le_trans h.pays (Nat.add_le_add_left hb _)⟩

/-- **SEQUENCES.** What the first part has left is what the second part begins with. -/
theorem bind {p : Parser α} {f : α → Parser β} {final : β → Nat}
    (h : (p c).Advances c before after)
    (hf : ∀ a c', (p c).result = .ok (a, c') → (f a c').Advances c' (after a) final) :
    ((p >>= f) c).Advances c before final := by
  have hpays := h.pays
  have hordered := h.ordered
  have hle := h.stop_le
  cases hp : (p c).result with
  | error e =>
      have hcredit : (p c).credit after = 0 := by rw [Run.credit, hp]
      rw [Run.places, Run.stop_of_error hp] at hordered
      rw [Run.stop_of_error hp] at hpays hle
      rw [bind_of_error f hp]
      refine ⟨nofun, hordered, hle, ?_⟩
      show (p c).opened.length + 0 + 3 * c.position ≤ 3 * e.position + before
      omega
  | ok x =>
      obtain ⟨a, c'⟩ := x
      have hf := hf a c' hp
      have hmoves := h.moves a c' hp
      have hpays' := hf.pays
      have hcredit : (p c).credit after = after a := by rw [Run.credit, hp]
      rw [Run.places, Run.stop_of_ok hp] at hordered
      rw [Run.stop_of_ok hp] at hpays
      rw [bind_of_ok f hp]
      refine ⟨fun b d hb => hmoves.trans (hf.moves b d hb), ?_, ?_, ?_⟩
      · rw [Run.places, List.filterMap_append, List.append_assoc]
        exact pairwise_le_append (c.position :: _) hordered hf.ordered
      · exact Nat.le_trans hf.stop_le (Nat.le_of_eq hmoves.bounds.2)
      · have hopened : (((p c).steps ++ (f a c').steps).filterMap Step.opened?).length =
            (p c).opened.length + (f a c').opened.length := by
          rw [List.filterMap_append, List.length_append]
          rfl
        show (((p c).steps ++ (f a c').steps).filterMap Step.opened?).length +
          (f a c').credit final + 3 * c.position ≤ 3 * (f a c').stop + before
        omega

end Run.Advances

/-! ## The makings of a rule -/

/-- From every cursor the parser goes forward and pays for the rules it opens. -/
def Advances (before : Nat) (p : Parser α) (after : α → Nat) : Prop :=
  ∀ c, (p c).Advances c before after

namespace Advances

variable {before : Nat} {after : α → Nat}

/-- What reads nothing hands on its credits. -/
theorem pure (a : α) (h : after a ≤ before) : Advances before (Pure.pure a : Parser α) after := by
  refine fun c => .of_ok .refl (places_nil _) ?_
  show 0 + after a + 3 * c.position ≤ 3 * c.position + before
  omega

/-- What is read leaves three credits. -/
theorem done (t : Tree) : Advances 3 (Pure.pure t : Parser Tree) fun _ => 3 :=
  pure t (Nat.le_refl 3)

theorem unexpected : Advances before (Parser.unexpected : Parser α) after :=
  fun _ => .of_error rfl (places_nil _) rfl

theorem exhausted : Advances before (Parser.exhausted : Parser α) after := by
  refine fun c => .of_error rfl (fun step hstep p hp => ?_) rfl
  rw [List.mem_singleton.1 hstep] at hp
  exact (Option.some.inj hp).symm

/-- A sequence pays with what its first part hands on. -/
theorem bind {p : Parser α} {f : α → Parser β} {final : β → Nat} (h : Advances before p after)
    (hf : ∀ a, Advances (after a) (f a) final) : Advances before (p >>= f) final :=
  fun c => (h c).bind fun a c' _ => hf a c'

/-- With more credits the same can be paid. -/
theorem mono {p : Parser α} {before' : Nat} (h : Advances before p after)
    (hb : before ≤ before') : Advances before' p after :=
  fun c => (h c).mono hb

/-- A rule costs one credit. -/
theorem within {rule : Rule} {room : Nat} {p : Parser α} (h : Advances before p after) :
    Advances (before + 1) (within rule room p) after := by
  intro c
  -- the step that opens the rule tells where the body begins, the one that closes it where it ends
  have hopen : (note (.opened rule c.position room) c).Advances c (before + 1) fun _ => before := by
    refine .of_ok .refl (fun step hstep p hp => ?_) ?_
    · rw [List.mem_singleton.1 hstep] at hp
      exact (Option.some.inj hp).symm
    · show 1 + before + _ ≤ _
      omega
  have hwithin : Parser.within rule room p c = (note (.opened rule c.position room) >>= fun _ =>
      p >>= fun a => do note (.closed rule c.position (← position)); return a) c := rfl
  rw [hwithin]
  refine hopen.bind fun _ c' hc' => ?_
  obtain ⟨-, rfl⟩ := Prod.mk.inj (Except.ok.inj hc')
  refine (h c).bind fun a d _ => .of_ok .refl (fun step hstep p hp => ?_) ?_
  · rw [List.mem_singleton.1 hstep] at hp
    exact (Option.some.inj hp).symm
  · show 0 + after a + _ ≤ _
    omega

/-- A mark that is taken adds three credits. -/
theorem take {ch : Char} (hm : ch ∈ marks) (before : Nat) :
    Advances before (take ch) fun taken => if taken then before + 3 else before := by
  intro c
  have hskip : Moves c c.skipSpaces := .spaces .refl
  have hle := hskip.bounds.1
  by_cases look : c.skipSpaces.lookahead = some ch
  · have htake : Parser.take ch c = ⟨[], .ok (true, c.skipSpaces.drop 1)⟩ := if_pos look
    rw [htake]
    refine .of_ok (hskip.mark hm look) (places_nil _) ?_
    show 0 + (before + 3) + 3 * c.position ≤ 3 * (c.skipSpaces.position + 1) + before
    omega
  · have htake : Parser.take ch c = ⟨[], .ok (false, c.skipSpaces)⟩ := if_neg look
    rw [htake]
    refine .of_ok hskip (places_nil _) ?_
    show 0 + before + 3 * c.position ≤ 3 * c.skipSpaces.position + before
    omega

/-- An operator is a character, which is worth three credits. -/
theorem takeOperator (ops : List Operator) (before : Nat) :
    Advances before (takeOperator ops) fun found =>
      if found.isSome then before + 3 else before := by
  intro c
  have hskip : Moves c c.skipSpaces := .spaces .refl
  have hle := hskip.bounds.1
  cases hf : ops.find? fun op => c.skipSpaces.lookahead == some op.symbol with
  | none =>
      have htake : Parser.takeOperator ops c = ⟨[], .ok (none, c.skipSpaces)⟩ := by
        simp only [Parser.takeOperator, hf]
      rw [htake]
      refine .of_ok hskip (places_nil _) ?_
      show 0 + before + 3 * c.position ≤ 3 * c.skipSpaces.position + before
      omega
  | some op =>
      have look : c.skipSpaces.lookahead = some op.symbol := by simpa using List.find?_some hf
      have htake : Parser.takeOperator ops c = ⟨[], .ok (some op, c.skipSpaces.drop 1)⟩ := by
        simp only [Parser.takeOperator, hf]
      rw [htake]
      refine .of_ok (hskip.mark (symbol_mem_marks op) look) (places_nil _) ?_
      show 0 + (before + 3) + 3 * c.position ≤ 3 * (c.skipSpaces.position + 1) + before
      omega

/-- A run of characters adds three credits, as it has at least one character. -/
theorem leaf {k : RunKind} {c : Cursor} (h : c.lookahead.any k.holds = true) :
    (leaf scope k c).Advances c before fun _ => before + 3 := by
  cases hr : reading? scope k (c.run k.holds) with
  | none =>
      rw [leaf_of_none hr]
      exact .of_error (ParseError.position_ofRun k _ _) (places_nil _) rfl
  | some r =>
      have hleaf := isLeaf_of_reading? hr
      rw [leaf_of_some hr]
      refine .of_ok (.run k .refl) (fun step hstep p hp => ?_) ?_
      · rw [List.mem_singleton.1 hstep, hleaf.place?_eq] at hp
        exact nomatch hp
      · have hlt := c.position_lt_skip h
        have hopens : [r.1].filterMap Step.opened? = [] :=
          List.filterMap_cons_none hleaf.opened?_eq
        rw [hopens, List.length_nil]
        omega

variable {p q : Parser Tree}

/-- Behind an operator a chain has three credits more. -/
theorem chain {ops : List Operator} {left : Tree} {more : Operator → Parser Tree}
    (h : ∀ op, Advances 6 (more op) fun _ => 3) : Advances 3 (chain ops left more) fun _ => 3 := by
  refine (takeOperator ops 3).bind fun found => ?_
  cases found with
  | none => exact done left
  | some op => exact h op

/-- A fold pays for its operand and goes on with three credits. -/
theorem fold {n m : Nat} {left : Tree} {tail : Tree → Parser Tree} (op : Operator)
    (hm : m ≤ 3) (h : Advances m p fun _ => 3) (ht : ∀ t, Advances 3 (tail t) fun _ => 3) :
    Advances 6 (fold n left p tail op) fun _ => 3 := by
  intro c
  have hcount : (countFold op n c).Advances c 6 fun _ => 6 := by
    refine .of_ok .refl (fun step hstep p hp => ?_) ?_
    · rw [List.mem_singleton.1 hstep] at hp
      exact (Option.some.inj hp).symm
    · show 0 + 6 + _ ≤ _
      omega
  rw [fold_eq]
  refine hcount.bind fun _ c' _ => ?_
  exact bind (h.mono (by omega)) (fun t => ht _) c'

/-- The `^` pays for its exponent. -/
theorem powerOf (t : Tree) (h : Advances 1 p fun _ => 3) :
    Advances 3 (powerOf p t) fun _ => 3 := by
  refine (take (by decide) 3).bind fun taken => ?_
  cases taken with
  | true =>
      have hexponent : Advances 6 p fun _ => 3 := h.mono (by decide)
      exact hexponent.bind fun u => done _
  | false => exact done t

/-- The expression in a group pays for itself. -/
theorem group (h : Advances 3 p fun _ => 3) : Advances 3 (group p) fun _ => 3 := by
  refine h.bind fun t => (take (by decide) 3).bind fun taken => ?_
  cases taken with
  | true => exact pure t (Nat.le_add_right 3 3)
  | false => exact unexpected

/-- A base pays with the parenthesis or the run that it begins with. -/
theorem unopened (h : Advances 1 q fun _ => 3) : Advances 0 (unopened scope q) fun _ => 3 := by
  intro c
  rw [Parse.unopened, bind_of_eq _ (p := lookahead) rfl]
  by_cases hf : c.lookahead.any Literal.isFigure = true
  · rw [if_pos hf, ← leaf_figures scope]
    exact leaf (k := .figures) hf
  rw [if_neg hf]
  by_cases hl : c.lookahead.any Scope.isLetter = true
  · have hname : (Parse.leaf scope .letters c).Advances c 0 fun _ => 3 := leaf hl
    rw [if_pos hl, Parse.named, ← leaf_letters scope]
    refine hname.bind fun meaning c' _ => ?_
    cases meaning with
    | cell d => exact done _ c'
    | builtin f =>
        have hargument : Advances 3 q fun _ => 3 := h.mono (by decide)
        exact hargument.bind (fun t => done _) c'
  · rw [if_neg hl]
    exact unexpected c

/-- A base pays with the characters that it reads. -/
theorem base (h : Advances 3 p fun _ => 3) (h' : Advances 1 q fun _ => 3) :
    Advances 0 (base scope p q) fun _ => 3 := by
  rw [base_eq]
  refine (take (by decide) 0).bind fun taken => ?_
  cases taken with
  | true => exact h.group
  | false => exact h'.unopened

/-- A sign pays for the factor behind it, and a base for itself. -/
theorem signed (h : Advances 0 (Parse.base scope p q) fun _ => 3) (h' : Advances 1 q fun _ => 3) :
    Advances 0 (signed scope p q) fun _ => 3 := by
  have hoperand : Advances 3 q fun _ => 3 := h'.mono (by decide)
  refine (take (by decide) 0).bind fun plus => ?_
  cases plus with
  | true => exact hoperand
  | false =>
      refine (take (by decide) 0).bind fun minus => ?_
      cases minus with
      | true => exact hoperand.bind fun t => done _
      | false => exact h.bind fun t => h'.powerOf t

/-- The end of a text costs nothing. -/
theorem ending (t : Tree) : Advances 3 (ending t) fun _ => 3 := by
  have hskip : Advances 3 skipSpaces fun _ => 3 := by
    intro c
    have hspaces : Moves c c.skipSpaces := .spaces .refl
    have hle := hspaces.bounds.1
    refine .of_ok hspaces (places_nil _) ?_
    show 0 + 3 + 3 * c.position ≤ 3 * c.skipSpaces.position + 3
    omega
  have hlook : Advances 3 lookahead fun _ => 3 := by
    refine fun c => .of_ok .refl (places_nil _) ?_
    show 0 + 3 + 3 * c.position ≤ 3 * c.position + 3
    omega
  refine hskip.bind fun _ => hlook.bind fun next => ?_
  cases next with
  | none => exact done t
  | some ch => exact unexpected

end Advances

/-! ## The rules -/

/-- **PROGRESS.** The parser of a phrase goes forward, begins with the credits of its rank and
    leaves three. -/
theorem rule_advances (scope : Scope) :
    ∀ phrase n, Advances phrase.rank (rule scope phrase n) fun _ => 3 := by
  refine rule_induction ?expression_zero ?moreTerms_zero ?moreFactors_zero ?factor_zero
    ?expression_succ ?moreTerms_succ ?moreFactors_succ ?factor_succ ?term ?base
  all_goals simp only [Phrase.rank]
  case expression_zero =>
    rw [rule_expression_zero]
    exact Advances.exhausted.within
  case moreTerms_zero =>
    intro left
    rw [rule_moreTerms_zero]
    exact .chain fun _ => .exhausted
  case moreFactors_zero =>
    intro left
    rw [rule_moreFactors_zero]
    exact .chain fun _ => .exhausted
  case factor_zero =>
    rw [rule_factor_zero]
    exact Advances.exhausted.within
  case expression_succ =>
    intro n ht hs
    rw [rule_expression_succ]
    exact (ht.bind hs).within
  case moreTerms_succ =>
    intro n ht hs left
    rw [rule_moreTerms_succ]
    exact .chain fun op => .fold op (by decide) ht hs
  case moreFactors_succ =>
    intro n hf hp left
    rw [rule_moreFactors_succ]
    exact .chain fun op => .fold op (by decide) hf hp
  case factor_succ =>
    intro n hb hf
    rw [rule_factor_succ]
    exact (hb.signed hf).within
  case term =>
    intro n hf hp
    rw [rule_term]
    exact (hf.bind hp).within
  case base =>
    intro n he hf
    rw [rule_base]
    exact he.base hf

/-- A whole text pays for its rules with three credits and three for each character. -/
theorem formula_advances (scope : Scope) (n : Nat) : Advances 3 (formula scope n) fun _ => 3 := by
  rw [formula_eq]
  exact (rule_advances scope .expression n).bind .ending

/-! ## What is passed -/

/-- Every phrase has a token, but for the rest of a chain that is at its end. -/
theorem derives_ne_nil {phrase : Phrase} {n : Nat} {ts : List Token} {t : Tree}
    (h : Derives scope phrase n ts t) :
    ts ≠ [] ∨ phrase = .moreTerms t ∨ phrase = .moreFactors t := by
  induction h with
  | expression _ _ ih _ | term _ _ ih _ =>
      obtain ih | ih | ih := ih
      · exact Or.inl (List.append_ne_nil_of_left_ne_nil ih _)
      · exact nomatch ih
      · exact nomatch ih
  | bare _ ih =>
      obtain ih | ih | ih := ih
      · exact Or.inl ih
      · exact nomatch ih
      · exact nomatch ih
  | power => exact Or.inl (List.append_ne_nil_of_right_ne_nil _ (List.cons_ne_nil _ _))
  | lastTerm => exact Or.inr (Or.inl rfl)
  | lastFactor => exact Or.inr (Or.inr rfl)
  | _ => exact Or.inl (List.cons_ne_nil _ _)

/-- A rule that succeeds has passed more than spaces. -/
theorem rule_passes (part : Rule) {n : Nat} {t : Tree} {c' : Cursor}
    (h : (rule scope part.phrase n c).result = .ok (t, c')) :
    ∃ passed, c.rest = passed ++ c'.rest ∧ c'.position = c.position + passed.length ∧
      ∃ ch ∈ passed, ch ≠ ' ' := by
  have hreads : Reads scope part.phrase n c t c' := by
    cases part with
    | expression => exact rule_sound scope .expression n c t c' h
    | term => exact rule_sound scope .term n c t c' h
    | factor => exact rule_sound scope .factor n c t c' h
  obtain ⟨⟨ts, hts, hd⟩, -⟩ := hreads
  refine (rule_travels scope part.phrase n c t c' h).passes_ne_space hts ?_
  rcases derives_ne_nil hd with hne | he | he
  · exact hne
  · cases part <;> exact nomatch he
  · cases part <;> exact nomatch he

/-- A turn of a chain passes its operator and something of its operand. -/
theorem turn_passes {ops : List Operator} {op : Operator} {c₁ c₂ : Cursor} {n : Nat} {t : Tree}
    (part : Rule) (hop : (takeOperator ops c).result = .ok (some op, c₁))
    (ht : (rule scope part.phrase n c₁).result = .ok (t, c₂)) : c.position + 2 ≤ c₂.position := by
  have hpays := (Advances.takeOperator ops 0 c).pays
  have hcredit : (takeOperator ops c).credit
      (fun found => if found.isSome then 0 + 3 else 0) = 3 := by rw [Run.credit, hop]; rfl
  rw [Run.stop_of_ok hop] at hpays
  obtain ⟨passed, -, hposition, ch, hch, -⟩ := rule_passes part ht
  have hpassed := List.length_pos_of_mem hch
  omega

end Parse

/-- The step of the parse that a record tells. -/
def Record.step? : Record → Option Step
  | .parsing step => some step
  | .registering _ _ | .building _ | .built _ _ => none

namespace Draft

/-- The steps that a build records are those of its parse. -/
theorem filterMap_step?_log (d : Draft) (s : Store) :
    (d.build s).log.filterMap Record.step? =
      d.log.filterMap Record.step? ++ (d.parseWithin maxDepth).steps := by
  have hsteps : ((d.parseWithin maxDepth).steps.map Record.parsing).filterMap Record.step? =
      (d.parseWithin maxDepth).steps := by
    rw [List.filterMap_map]
    exact List.filterMap_some
  have hbuilding : (Record.building d.source).step? = none := rfl
  cases hp : (d.parseWithin maxDepth).result with
  | error e =>
      rw [build, buildWithin_of_error s hp, List.filterMap_append,
        List.filterMap_cons_none hbuilding, hsteps]
  | ok x =>
      obtain ⟨t, c⟩ := x
      have hbuilt : [Record.built t s].filterMap Record.step? = [] := rfl
      rw [build, buildWithin_of_ok s hp, List.filterMap_append, List.filterMap_append, hbuilt,
        List.append_nil, List.filterMap_cons_none hbuilding, hsteps]

/-- **PROGRESS.** The places of a build never go back and do not leave the text.  Every rule that
    succeeds has passed a character that is not a space, and every turn of the loop of a chain
    passes two characters.  The log tells of at most three opened rules for each character and
    three more, whether or not the text builds. -/
theorem build_progress (d : Draft) (s : Store) :
    ((d.parseWithin maxDepth).places 0).Pairwise (· ≤ ·) ∧
    (∀ p ∈ (d.parseWithin maxDepth).places 0, p ≤ d.source.toList.length) ∧
    (∀ (part : Rule) (n : Nat) (c : Cursor) (t : Tree) (c' : Cursor),
      (rule d.scope part.phrase n c).result = .ok (t, c') →
        ∃ passed, c.rest = passed ++ c'.rest ∧ c'.position = c.position + passed.length ∧
          ∃ ch ∈ passed, ch ≠ ' ') ∧
    (∀ (part : Rule) (n : Nat) (ops : List Operator) (op : Operator) (c c₁ : Cursor) (t : Tree)
      (c₂ : Cursor), (Parser.takeOperator ops c).result = .ok (some op, c₁) →
        (rule d.scope part.phrase n c₁).result = .ok (t, c₂) → c.position + 2 ≤ c₂.position) ∧
    ∃ steps, (d.build s).log.filterMap Record.step? = d.log.filterMap Record.step? ++ steps ∧
      (steps.filterMap Step.opened?).length ≤ 3 * (d.source.toList.length + 1) := by
  have h : (d.parseWithin maxDepth).Advances (.start d.source.toList) 3 fun _ => 3 :=
    formula_advances d.scope maxDepth (.start d.source.toList)
  have hordered : ((d.parseWithin maxDepth).places 0).Pairwise (· ≤ ·) := h.ordered
  have hstop : (d.parseWithin maxDepth).stop ≤ d.source.toList.length :=
    Nat.zero_add d.source.toList.length ▸ h.stop_le
  refine ⟨hordered, fun p hp => ?_, fun part _ _ _ _ => rule_passes part,
    fun part _ _ _ _ _ _ _ => turn_passes part, _, filterMap_step?_log d s, ?_⟩
  · -- the end is the last of the places
    refine Nat.le_trans ?_ hstop
    rw [Run.places, ← List.cons_append] at hordered hp
    rcases List.mem_append.1 hp with hp | hp
    · exact (List.pairwise_append.1 hordered).2.2 p hp _ List.mem_cons_self
    · exact Nat.le_of_eq (List.mem_singleton.1 hp)
  · have hpays : (d.parseWithin maxDepth).opened.length +
        (d.parseWithin maxDepth).credit (fun _ => 3) + 3 * 0 ≤
          3 * (d.parseWithin maxDepth).stop + 3 := h.pays
    show (d.parseWithin maxDepth).opened.length ≤ 3 * (d.source.toList.length + 1)
    omega

end Draft

end LiveArith
