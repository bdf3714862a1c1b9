import LiveArith.Metered
import LiveArith.Proofs.Lockstep

/-! # Metering — the counter of levels and the calls that it stands for

    The parser is given its room and hands on less; the machine of `Metered` counts
    its levels up and turns the counter back.  The route:

    * a run of the machine matches a run of the parser (`Matches`): it takes the same
      steps to the same end, and at each moment the counter is what the active calls
      hold (`Moment.Proper`);
    * sequences and calls keep this (`Matches.bind`, `Matches.call`), so by rule
      induction the procedures match the rules (`procedure_matches`). -/

namespace LiveArith

open LiveArith.Grammar LiveArith.Token

namespace Metered

open LiveArith.Parse (Step Rule)

/-! ## Moments -/

section Moments

/-- What holds at a moment.  When a procedure is called the counter is what the active calls
    hold, and with the new call they nest no more than once beyond the limit; when a level is
    counted the counter is one above what they hold; slices are in range; and a procedure returns
    with the counter as it was when it was called. -/
def Moment.Proper (text : List Char) (limit : Nat) (m : Moment) : Prop :=
  match m.event with
  | .called p => m.depth = levels m.calls ∧ nested (⟨p, 0⟩ :: m.calls) ≤ limit + 1
  | .counted => m.depth = levels m.calls + 1
  | .sliced start stop => start ≤ stop ∧ stop ≤ text.length
  | .returned _ entry => m.depth = entry

/-- The counter is beyond the limit at no moment, or at the last one, and then the run fails. -/
def Run.Obeys {α : Type} (limit : Nat) (r : Run α) : Prop :=
  (∀ m ∈ r.moments, m.depth ≤ limit) ∨
    ∃ before m found p, r.moments = before ++ [m] ∧ (∀ m ∈ before, m.depth ≤ limit) ∧
      m.depth = limit + 1 ∧ r.outcome = .error (.unexpectedCharacter found p)

theorem proper_nil {text : List Char} {limit : Nat} :
    ∀ m ∈ ([] : List Moment), m.Proper text limit ∧ m.depth ≤ limit :=
  fun _ hm => absurd hm List.not_mem_nil

/-- Moments within the limit may come before. -/
theorem Run.Obeys.prepend {α : Type} {limit : Nat} {r : Run α} (h : r.Obeys limit)
    {ms : List Moment} (hle : ∀ m ∈ ms, m.depth ≤ limit) (steps : List Step) :
    (⟨steps, ms ++ r.moments, r.outcome⟩ : Run α).Obeys limit := by
  rcases h with hall | ⟨before, m, found, p, hm, hbefore, hdepth, herror⟩
  · exact Or.inl fun m hm => (List.mem_append.1 hm).elim (hle m) (hall m)
  · refine Or.inr ⟨ms ++ before, m, found, p, ?_, fun m hm => ?_, hdepth, herror⟩
    · rw [List.append_assoc, ← hm]
    · exact (List.mem_append.1 hm).elim (hle m) (hbefore m)

/-- A run obeys the limit if a part of it with the same moments and end does. -/
theorem Run.Obeys.of_error {α β : Type} {limit : Nat} {r : Run α} (h : r.Obeys limit)
    {e : ParseError} (herror : r.outcome = .error e) (steps : List Step) :
    (⟨steps, r.moments, .error e⟩ : Run β).Obeys limit := by
  rcases h with hall | ⟨before, m, found, p, hm, hbefore, hdepth, herror'⟩
  · exact Or.inl hall
  · obtain rfl := Outcome.error.inj (herror.symm.trans herror')
    exact Or.inr ⟨before, m, found, p, hm, hbefore, hdepth, rfl⟩

/-- A moment beyond the limit is the last one, and the run fails. -/
theorem Run.Obeys.last {α : Type} {limit : Nat} {r : Run α} (h : r.Obeys limit)
    {before after : List Moment} {m : Moment} (hms : r.moments = before ++ m :: after)
    (hm : limit < m.depth) :
    after = [] ∧ ∃ found p, r.outcome = .error (.unexpectedCharacter found p) := by
  rcases h with hall | ⟨front, last, found, p, hfront, hle, -, herror⟩
  · exact absurd (hall m (by rw [hms]; simp)) (Nat.not_le_of_lt hm)
  · refine ⟨?_, found, p, herror⟩
    rcases List.eq_nil_or_concat after with rfl | ⟨after, x, rfl⟩
    · rfl
    · -- then the moment comes before the last one
      rw [hms, List.concat_eq_append, ← List.cons_append, ← List.append_assoc] at hfront
      obtain ⟨rfl, -⟩ := List.append_inj' hfront rfl
      exact absurd (hle m (by simp)) (Nat.not_le_of_lt hm)

/-- The counter is never more than once beyond the limit. -/
theorem Run.Obeys.depth_le {α : Type} {limit : Nat} {r : Run α} (h : r.Obeys limit) :
    ∀ m ∈ r.moments, m.depth ≤ limit + 1 := by
  intro m hm
  rcases h with hall | ⟨before, last, -, -, hms, hbefore, hlast, -⟩
  · exact Nat.le_succ_of_le (hall m hm)
  · rw [hms] at hm
    rcases List.mem_append.1 hm with hm | hm
    · exact Nat.le_succ_of_le (hbefore m hm)
    · rw [List.mem_singleton.1 hm]
      exact Nat.le_of_eq hlast

/-- The calls hold a level for each expression and factor and one for each fold. -/
theorem levels_eq (calls : List Call) : levels calls = nested calls + folded calls := by
  induction calls with
  | nil => rfl
  | cons call calls ih =>
      have hown : call.procedure.own =
          if call.procedure = .expression ∨ call.procedure = .factor then 1 else 0 := by
        cases call.procedure <;> rfl
      simp only [levels, nested, folded, List.countP_cons, Call.levels, decide_eq_true_eq] at ih ⊢
      omega

end Moments

/-! ## Matching runs -/

section Matching

variable {α β : Type} {text : List Char} {limit : Nat} {scope : Scope}

/-- The counter of the state is what the active calls hold, and the place is in the text. -/
structure State.Sound (text : List Char) (s : State) : Prop where
  depth_eq : s.depth = levels s.calls
  position_le : s.position ≤ text.length

/-- The machine takes the steps of the parser and comes to what it comes to, at a state of which
    `Q` holds; it has proper moments and obeys the limit. -/
structure Matches (text : List Char) (limit : Nat) (r : Parse.Run α) (r' : Run α)
    (Q : α → State → Prop) : Prop where
  steps_eq : r'.steps = r.steps
  proper : ∀ m ∈ r'.moments, m.Proper text limit
  outcome : (∃ a s, r.result = .ok (a, s.cursor text) ∧ r'.outcome = .value a s ∧
      (∀ m ∈ r'.moments, m.depth ≤ limit) ∧ Q a s) ∨
    ∃ e, r.result = .error e ∧ r'.outcome = .error e ∧ r'.Obeys limit

namespace Matches

variable {r : Parse.Run α} {Q : α → State → Prop} {S : β → State → Prop} {s : State}

theorem value {steps : List Step} {a : α} {c : Cursor} (hc : s.cursor text = c) (hQ : Q a s) :
    Matches text limit ⟨steps, .ok (a, c)⟩ ⟨steps, [], .value a s⟩ Q :=
  ⟨rfl, nofun, Or.inl ⟨a, s, by rw [hc], rfl, nofun, hQ⟩⟩

theorem error (e : ParseError) : Matches text limit ⟨[], .error e⟩ ⟨[], [], .error e⟩ Q :=
  ⟨rfl, nofun, Or.inr ⟨e, rfl, rfl, Or.inl nofun⟩⟩

/-- A match says less of the state where less is asked. -/
theorem mono {r' : Run α} {Q' : α → State → Prop} (h : Matches text limit r r' Q)
    (hQ : ∀ a s, Q a s → Q' a s) : Matches text limit r r' Q' := by
  obtain ⟨hsteps, hproper, ⟨a, s, hr, hr', hle, hs⟩ | herror⟩ := h
  · exact ⟨hsteps, hproper, Or.inl ⟨a, s, hr, hr', hle, hQ a s hs⟩⟩
  · exact ⟨hsteps, hproper, Or.inr herror⟩

/-- A sequence matches if its parts do. -/
theorem bind {p : Parse.Parser α} {f : α → Parse.Parser β} {m : Machine α} {g : α → Machine β}
    {c : Cursor} (h : Matches text limit (p c) (m s) Q)
    (hf : ∀ a s', Q a s' → Matches text limit (f a (s'.cursor text)) (g a s') S) :
    Matches text limit ((p >>= f) c) ((m >>= g) s) S := by
  obtain ⟨hsteps, hproper, ⟨a, s', hr, hr', hle, hQ⟩ | ⟨e, hr, hr', hobeys⟩⟩ := h
  · obtain ⟨hsteps', hproper', hout⟩ := hf a s' hQ
    rw [Parse.Parser.bind_of_ok f hr, bind_of_value g hr']
    refine ⟨by rw [hsteps, hsteps'], fun m hm => ?_, ?_⟩
    · exact (List.mem_append.1 hm).elim (hproper m) (hproper' m)
    · -- the first part has not left the limit, so it is left to the second to fail beyond it
      rcases hout with ⟨b, s'', hb, hb', hle', hS⟩ | ⟨e, he, he', hobeys⟩
      · refine Or.inl ⟨b, s'', hb, hb', fun m hm => ?_, hS⟩
        exact (List.mem_append.1 hm).elim (hle m) (hle' m)
      · exact Or.inr ⟨e, he, he', hobeys.prepend hle _⟩
  · rw [Parse.Parser.bind_of_error f hr, bind_of_error g hr']
    exact ⟨hsteps, hproper, Or.inr ⟨e, rfl, rfl, hobeys.of_error hr' _⟩⟩

/-- What both do alike and without moving comes first. -/
theorem bind_same {p : Parse.Parser α} {f : α → Parse.Parser β} {m : Machine α}
    {g : α → Machine β} {steps : List Step} {a : α}
    (hp : p (s.cursor text) = ⟨steps, .ok (a, s.cursor text)⟩)
    (hm : m s = ⟨steps, [], .value a s⟩)
    (h : Matches text limit (f a (s.cursor text)) (g a s) S) :
    Matches text limit ((p >>= f) (s.cursor text)) ((m >>= g) s) S := by
  have hfirst : Matches text limit (p (s.cursor text)) (m s) fun a' s' => a = a' ∧ s = s' := by
    rw [hp, hm]
    exact .value rfl ⟨rfl, rfl⟩
  refine hfirst.bind ?_
  rintro _ _ ⟨rfl, rfl⟩
  exact h

/-- What only the machine does first, if it takes no step. -/
theorem of_silent {m : Machine β} {g : β → Machine α} {b : β} {s' : State} {ms : List Moment}
    (hm : m s = ⟨[], ms, .value b s'⟩)
    (hms : ∀ m ∈ ms, m.Proper text limit ∧ m.depth ≤ limit)
    (h : Matches text limit r (g b s') Q) : Matches text limit r ((m >>= g) s) Q := by
  have hbefore : Matches text limit (⟨[], .ok (b, s'.cursor text)⟩ : Parse.Run β) (m s)
      fun b' s'' => b' = b ∧ s'' = s' := by
    rw [hm]
    exact ⟨rfl, fun m hm => (hms m hm).1,
      Or.inl ⟨b, s', rfl, rfl, fun m hm => (hms m hm).2, rfl, rfl⟩⟩
  -- to the parser the run is that of a sequence whose first part does nothing
  refine hbefore.bind (p := fun _ => ⟨[], .ok (b, s'.cursor text)⟩) (f := fun _ _ => r)
    (c := s.cursor text) ?_
  rintro _ _ ⟨rfl, rfl⟩
  exact h

/-- What only the machine does last, if it takes no step and stays where it is. -/
theorem then_silent {m : Machine α} {g : α → Machine α} {S : α → State → Prop}
    (h : Matches text limit r (m s) Q)
    (hg : ∀ a s', Q a s' → ∃ ms s'', g a s' = ⟨[], ms, .value a s''⟩ ∧
      s''.position = s'.position ∧ (∀ m ∈ ms, m.Proper text limit ∧ m.depth ≤ limit) ∧ S a s'') :
    Matches text limit r ((m >>= g) s) S := by
  have hr : ((show Parse.Parser α from fun _ => r) >>= pure) (s.cursor text) = r := by
    obtain ⟨steps, result⟩ := r
    cases result with
    | error e => exact Parse.Parser.bind_of_error _ rfl
    | ok x => exact (Parse.Parser.bind_of_ok _ rfl).trans (by rw [Parse.Parser.pure_apply]; simp)
  rw [← hr]
  refine bind h fun a s' hQ => ?_
  obtain ⟨ms, s'', heq, hposition, hms, hS⟩ := hg a s' hQ
  rw [heq]
  refine ⟨rfl, fun m hm => (hms m hm).1, Or.inl ⟨a, s'', ?_, rfl, fun m hm => (hms m hm).2, hS⟩⟩
  rw [State.cursor, State.cursor, hposition]
  rfl

end Matches

/-! ## The primitives -/

/-- The state is sound and has the calls of another one. -/
structure State.Stays (text : List Char) (s s' : State) : Prop where
  sound : s'.Sound text
  calls_eq : s'.calls = s.calls

theorem State.Stays.trans {s s' s'' : State} (h : s.Stays text s') (h' : s'.Stays text s'') :
    s.Stays text s'' :=
  ⟨h'.sound, h'.calls_eq.trans h.calls_eq⟩

/-- With the same calls the counter is the same. -/
theorem State.Stays.depth_eq {s s' : State} (h : s.Stays text s') (hs : s.Sound text) :
    s'.depth = s.depth := by
  rw [h.sound.depth_eq, hs.depth_eq, h.calls_eq]

variable {s : State}

theorem State.Sound.refl (h : s.Sound text) : s.Stays text s := ⟨h, rfl⟩

/-- The places of a text are those of its cursors. -/
theorem State.Sound.move (h : s.Sound text) {c : Cursor}
    (hle : c.position ≤ text.length) (hrest : text.drop c.position = c.rest) :
    s.Stays text { s with position := c.position } ∧
      ({ s with position := c.position } : State).cursor text = c :=
  ⟨⟨⟨h.depth_eq, hle⟩, rfl⟩, by rw [State.cursor, hrest]⟩

/-- Behind a run the place is still in the text. -/
theorem State.Sound.skip (h : s.Sound text) (p : Char → Bool) :
    ((s.cursor text).skip p).position ≤ text.length ∧
      text.drop ((s.cursor text).skip p).position = ((s.cursor text).skip p).rest := by
  have hrun : (s.cursor text).run p ++ ((s.cursor text).skip p).rest = text.drop s.position :=
    (s.cursor text).run_append_skip p
  have hposition : ((s.cursor text).skip p).position
      = s.position + ((s.cursor text).run p).length := rfl
  constructor
  · have hlen := congrArg List.length hrun
    have hle := h.position_le
    rw [List.length_append, List.length_drop] at hlen
    omega
  · rw [hposition, ← List.drop_drop, ← hrun, List.drop_left]

/-- Behind a character that stood there the place is still in the text. -/
theorem State.Sound.drop {ch : Char} (hlook : (s.cursor text).lookahead = some ch) :
    ((s.cursor text).drop 1).position ≤ text.length ∧
      text.drop ((s.cursor text).drop 1).position = ((s.cursor text).drop 1).rest := by
  have hlt : s.position < text.length := by
    rw [State.cursor, Cursor.lookahead, List.head?_drop] at hlook
    exact (List.getElem?_eq_some_iff.1 hlook).1
  exact ⟨hlt, (List.drop_drop).symm⟩

/-- The machine goes past a run as the parser does. -/
theorem advance_matches (h : s.Sound text) (p : Char → Bool) :
    Matches text limit ⟨[], .ok ((), (s.cursor text).skip p)⟩ (advance text p s)
      fun _ s' => s.Stays text s' ∧ s'.cursor text = (s.cursor text).skip p := by
  obtain ⟨hle, hrest⟩ := h.skip p
  have hmove := h.move hle hrest
  exact .value hmove.2 hmove

/-- The machine takes a mark as the parser does. -/
theorem take_matches (h : s.Sound text) (ch : Char) :
    Matches text limit (Parse.Parser.take ch (s.cursor text)) (take text ch s)
      fun taken s' => s.Stays text s' ∧
        (taken = false → s'.cursor text = (s.cursor text).skipSpaces) := by
  rw [Parse.take_eq]
  refine .bind (advance_matches h (· == ' ')) fun _ s' hs' => ?_
  obtain ⟨hstays, hcursor⟩ := hs'
  refine .of_silent (m := lookahead text) rfl proper_nil ?_
  by_cases hlook : (s'.cursor text).lookahead = some ch
  · rw [Parse.here, if_pos hlook, if_pos hlook]
    have hmove := hstays.sound.move (State.Sound.drop hlook).1 (State.Sound.drop hlook).2
    refine .of_silent (m := next) rfl proper_nil (.value hmove.2 ⟨hstays.trans hmove.1, ?_⟩)
    exact fun htaken => Bool.noConfusion htaken
  · rw [Parse.here, if_neg hlook, if_neg hlook]
    exact .value rfl ⟨hstays, fun _ => hcursor⟩

/-- Where spaces were skipped there is none. -/
theorem lookahead_ne_space {s' : State} (h : s'.cursor text = (s.cursor text).skipSpaces) :
    (s'.cursor text).lookahead ≠ some ' ' := by
  rw [h]
  exact (s.cursor text).lookahead_skipSpaces

/-- The first operator is looked for, and then the others from where that left off. -/
theorem takeOperator_cons (op : Operator) (ops : List Operator) :
    Parse.Parser.takeOperator (op :: ops) = Parse.Parser.take op.symbol >>= fun taken =>
      if taken then pure (some op) else Parse.operatorHere ops := by
  funext c
  rw [Parse.takeOperator_eq, Parse.Parser.bind_of_eq _ (p := Parse.Parser.skipSpaces) rfl]
  by_cases hlook : c.skipSpaces.lookahead = some op.symbol
  · rw [Parse.Parser.bind_of_eq _ (p := Parse.Parser.take op.symbol) (if_pos hlook), if_pos rfl,
      Parse.operatorHere, List.find?_cons_of_pos (by rw [hlook]; exact beq_self_eq_true _)]
    rfl
  · rw [Parse.Parser.bind_of_eq _ (p := Parse.Parser.take op.symbol) (if_neg hlook),
      if_neg Bool.false_ne_true, Parse.operatorHere, Parse.operatorHere,
      List.find?_cons_of_neg (by rwa [beq_iff_eq])]

/-- Past the spaces the machine finds the operator that stands there. -/
theorem operatorHere_matches (h : s.Sound text) (hlook : (s.cursor text).lookahead ≠ some ' ')
    (ops : List Operator) :
    Matches text limit (Parse.operatorHere ops (s.cursor text)) (takeOperator text ops s)
      fun _ s' => s.Stays text s' := by
  induction ops generalizing s with
  | nil => exact .value rfl h.refl
  | cons op ops ih =>
      have hskip : Parse.operatorHere (op :: ops) (s.cursor text) =
          Parse.Parser.takeOperator (op :: ops) (s.cursor text) := by
        rw [Parse.takeOperator_eq, Parse.Parser.bind_of_eq _ (p := Parse.Parser.skipSpaces) rfl,
          Cursor.skipSpaces_of_lookahead hlook]
      rw [hskip, takeOperator_cons]
      refine .bind (take_matches h op.symbol) fun taken s' hs' => ?_
      cases taken with
      | true => exact .value rfl hs'.1
      | false => exact (ih hs'.1.sound (lookahead_ne_space (hs'.2 rfl))).mono fun _ _ => hs'.1.trans

/-- The machine takes an operator as the parser does. -/
theorem takeOperator_matches (h : s.Sound text) {ops : List Operator} (hne : ops ≠ []) :
    Matches text limit (Parse.Parser.takeOperator ops (s.cursor text))
      (takeOperator text ops s) fun _ s' => s.Stays text s' := by
  obtain ⟨op, ops, rfl⟩ := List.exists_cons_of_ne_nil hne
  rw [takeOperator_cons]
  refine .bind (take_matches h op.symbol) fun taken s' hs' => ?_
  cases taken with
  | true => exact .value rfl hs'.1
  | false =>
      have hlook := lookahead_ne_space (hs'.2 rfl)
      exact (operatorHere_matches hs'.1.sound hlook ops).mono fun _ _ => hs'.1.trans

theorem unexpected_matches {Q : α → State → Prop} :
    Matches text limit (Parse.Parser.unexpected (s.cursor text)) (unexpected text s) Q :=
  .error _

/-- The characters past which the state advanced can be cut out. -/
theorem slice_advance (h : s.Sound text) (p : Char → Bool) :
    slice text s.position { s with position := ((s.cursor text).skip p).position } =
      ⟨[], [⟨.sliced s.position ((s.cursor text).skip p).position, s.depth, s.calls⟩],
        .value ((s.cursor text).run p)
          { s with position := ((s.cursor text).skip p).position }⟩ := by
  have hrange : s.position ≤ ((s.cursor text).skip p).position ∧
      ((s.cursor text).skip p).position ≤ text.length :=
    ⟨(s.cursor text).position_le_skip p, (h.skip p).1⟩
  have hlength : ((s.cursor text).skip p).position - s.position
      = ((s.cursor text).run p).length := Nat.add_sub_cancel_left ..
  have hrun : text.drop s.position = (s.cursor text).run p ++ ((s.cursor text).skip p).rest :=
    ((s.cursor text).run_append_skip p).symm
  refine (if_pos hrange).trans ?_
  rw [hlength, hrun, List.take_left]

/-- A run is read where it begins. -/
theorem leaf_matches (h : s.Sound text) (hdepth : s.depth ≤ limit) (k : RunKind) :
    Matches text limit (Parse.leaf scope k (s.cursor text)) (leaf text scope k s.position s)
      fun _ s' => s.Stays text s' := by
  obtain ⟨hle, hrest⟩ := h.skip k.holds
  have hmove := h.move hle hrest
  refine .of_silent (m := advance text k.holds) rfl proper_nil ?_
  refine .of_silent (slice_advance h k.holds) (fun m hm => ?_) ?_
  · rw [List.mem_singleton.1 hm]
    exact ⟨⟨(s.cursor text).position_le_skip k.holds, hle⟩, hdepth⟩
  cases hreading : Parse.reading? scope k ((s.cursor text).run k.holds) with
  | none =>
      rw [Parse.leaf_of_none hreading]
      exact .error _
  | some r =>
      obtain ⟨step, a⟩ := r
      rw [Parse.leaf_of_some hreading]
      exact .value hmove.2 hmove.1

/-! ## Levels and calls -/

/-- The machine records a rule as the parser does if the counter is what the room says. -/
theorem within_matches {rule : Rule} {room : Nat} {body : Parse.Parser α} {body' : Machine α}
    {Q : α → State → Prop} (hroom : room = limit - s.depth)
    (h : Matches text limit (body (s.cursor text)) (body' s) Q) :
    Matches text limit (Parse.Parser.within rule room body (s.cursor text))
      (within limit rule body' s) Q := by
  subst hroom
  refine .bind_same (p := Parse.Parser.position) (m := position) rfl rfl ?_
  refine .of_silent (m := depth) rfl proper_nil ?_
  refine .bind_same (p := Parse.Parser.note _) (m := note _) rfl rfl ?_
  refine .bind h fun a s' hQ => ?_
  exact .value rfl hQ

/-- Beyond the limit no level can be counted. -/
theorem enter_exhausted (h : s.Sound text) (hdepth : s.depth = limit)
    (grow : List Call → List Call) {Q : Unit → State → Prop} :
    Matches text limit (Parse.Parser.exhausted (s.cursor text)) (enter text limit grow s) Q := by
  have henter : enter text limit grow s = ⟨[.exhausted s.position],
      [⟨.counted, s.depth + 1, s.calls⟩],
      .error (.unexpectedCharacter (s.cursor text).lookahead s.position)⟩ :=
    if_pos (by omega)
  rw [henter]
  refine ⟨rfl, fun m hm => ?_, Or.inr ⟨_, rfl, rfl, Or.inr ⟨[], _, _, _, rfl, nofun, ?_, rfl⟩⟩⟩
  · rw [List.mem_singleton.1 hm]
    exact congrArg (· + 1) h.depth_eq
  · exact congrArg (· + 1) hdepth

/-- Within the limit a level is counted. -/
theorem enter_of_lt (hdepth : s.depth < limit) (grow : List Call → List Call) :
    enter text limit grow s = ⟨[], [⟨.counted, s.depth + 1, s.calls⟩],
      .value () ⟨s.position, s.depth + 1, grow s.calls⟩⟩ :=
  if_neg (by omega)

/-- The moment of a level within the limit is proper. -/
theorem proper_counted (h : s.Sound text) (hdepth : s.depth < limit) :
    ∀ m ∈ [(⟨.counted, s.depth + 1, s.calls⟩ : Moment)],
      m.Proper text limit ∧ m.depth ≤ limit := by
  intro m hm
  rw [List.mem_singleton.1 hm]
  exact ⟨congrArg (· + 1) h.depth_eq, hdepth⟩

/-- The moment of a call is proper. -/
theorem proper_called (h : s.Sound text) (hdepth : s.depth ≤ limit) (p : Procedure) :
    ∀ m ∈ [(⟨.called p, s.depth, s.calls⟩ : Moment)], m.Proper text limit ∧ m.depth ≤ limit := by
  intro m hm
  rw [List.mem_singleton.1 hm]
  refine ⟨⟨h.depth_eq, ?_⟩, hdepth⟩
  -- the folds only add to the levels, so the calls nest no deeper than the counter is
  have hlevels := levels_eq s.calls
  have hs := h.depth_eq
  have hone : nested (⟨p, 0⟩ :: s.calls) ≤ nested s.calls + 1 := by
    rw [nested, List.countP_cons, ← nested]
    split <;> omega
  show nested (⟨p, 0⟩ :: s.calls) ≤ limit + 1
  omega

/-- Beyond the limit no procedure that counts a level can be called. -/
theorem call_exhausted {p : Procedure} (h : s.Sound text) (hdepth : s.depth = limit)
    (hp : p.own = 1) (body : Machine α) {Q : α → State → Prop} :
    Matches text limit (Parse.Parser.exhausted (s.cursor text)) (call text limit p body s) Q := by
  refine .of_silent (m := depth) rfl proper_nil ?_
  refine .of_silent (m := record (.called p)) rfl (proper_called h (Nat.le_of_eq hdepth) p) ?_
  have hbegin : Matches text limit (Parse.Parser.exhausted (s.cursor text))
      (begin text limit p s) fun _ _ => False := by
    have hbegin : begin text limit p = enter text limit (⟨p, 0⟩ :: ·) := if_pos hp
    rw [hbegin]
    exact enter_exhausted h hdepth _
  exact hbegin.bind (p := Parse.Parser.exhausted) (f := fun _ => Parse.Parser.exhausted)
    fun _ _ hfalse => hfalse.elim

/-- The state in which the body of a call begins. -/
def State.push (s : State) (p : Procedure) : State :=
  ⟨s.position, s.depth + p.own, ⟨p, 0⟩ :: s.calls⟩

/-- A new call holds the level that it counts. -/
theorem State.Sound.push (h : s.Sound text) (p : Procedure) : (s.push p).Sound text := by
  refine ⟨?_, h.position_le⟩
  show s.depth + p.own = levels (⟨p, 0⟩ :: s.calls)
  rw [levels, ← h.depth_eq]
  exact Nat.add_comm _ _

/-- The state in which the operand of a fold begins. -/
def State.fold (s : State) : State :=
  ⟨s.position, s.depth + 1, s.calls.modifyHead fun call => { call with folds := call.folds + 1 }⟩

/-- A fold is held by the innermost call. -/
theorem State.Sound.fold (h : s.Sound text) (hne : s.calls ≠ []) : s.fold.Sound text := by
  obtain ⟨call, calls, hcalls⟩ := List.exists_cons_of_ne_nil hne
  refine ⟨?_, h.position_le⟩
  have hdepth := h.depth_eq
  simp only [State.fold, hcalls, List.modifyHead_cons, levels, Call.levels] at hdepth ⊢
  omega

/-- The state of a body that is at its end: its call gives back what it holds. -/
structure State.Ends (text : List Char) (s s' : State) : Prop where
  sound : s'.Sound text
  call : ∃ call : Call, s'.calls = call :: s.calls ∧ call.givesBack = call.levels

/-- A call that is at its end gives back what it holds, and the others stay. -/
theorem leave_of_ends {s' : State} (h : s.Ends text s') :
    ∃ s'', leave s' = ⟨[], [], .value () s''⟩ ∧ s''.position = s'.position ∧
      s.Stays text s'' := by
  obtain ⟨⟨hdepth, hposition⟩, ⟨call, hcalls, hgives⟩⟩ := h
  rw [hcalls, levels] at hdepth
  -- the counter holds what the call gives back, so nothing is cut off at zero
  have hle : call.givesBack ≤ s'.depth := by omega
  refine ⟨⟨s'.position, s'.depth - call.givesBack, s.calls⟩, ?_, rfl, ⟨?_, hposition⟩, rfl⟩
  · rw [leave, hcalls]
    exact if_pos hle
  · show s'.depth - call.givesBack = levels s.calls
    omega

/-- **CALLS** end with the counter as it was, if what they give back is what they hold. -/
theorem call_matches {p : Procedure} {r : Parse.Run α} {body : Machine α} (h : s.Sound text)
    (hdepth : s.depth + p.own ≤ limit)
    (hbody : Matches text limit r (body (s.push p)) fun _ s' => s.Ends text s') :
    Matches text limit r (call text limit p body s) fun _ s' => s.Stays text s' := by
  refine .of_silent (m := depth) rfl proper_nil ?_
  refine .of_silent (m := record (.called p)) rfl (proper_called h (by omega) p) ?_
  have hcall : Matches text limit r ((body >>= fun a => do
      leave
      record (.returned p s.depth)
      return a) (s.push p)) fun _ s' => s.Stays text s' := by
    refine hbody.then_silent fun a s' hs' => ?_
    obtain ⟨s'', hleave, hposition, hstays⟩ := leave_of_ends hs'
    refine ⟨[⟨.returned p s.depth, s''.depth, s''.calls⟩], s'', ?_, hposition, fun m hm => ?_,
      hstays⟩
    · rw [bind_of_value _ (by rw [hleave]), hleave]
      rfl
    · rw [List.mem_singleton.1 hm]
      have heq := hstays.depth_eq h
      exact ⟨heq, heq.trans_le (by omega)⟩
  -- with a level of its own or without, the body begins in the state with the call pushed
  by_cases hp : p.own = 1
  · have hbegin : begin text limit p s =
        ⟨[], [⟨.counted, s.depth + 1, s.calls⟩], .value () (s.push p)⟩ := by
      rw [State.push, hp]
      exact (congrFun (if_pos hp) s).trans (enter_of_lt (by omega) _)
    exact .of_silent hbegin (proper_counted h (by omega)) hcall
  · have hbegin : begin text limit p s = ⟨[], [], .value () (s.push p)⟩ := by
      have hown : p.own = 0 := by
        revert hp
        cases p <;> decide
      rw [State.push, hown]
      exact congrFun (if_neg hp) s
    exact .of_silent hbegin proper_nil hcall

/-- A body that stays where its call began is at its end. -/
theorem State.Stays.ends {p : Procedure} {s' : State} (h : (s.push p).Stays text s') :
    s.Ends text s' :=
  ⟨h.sound, ⟨p, 0⟩, h.calls_eq, by cases p <;> rfl⟩

/-! ## The procedures beside the rules -/

/-- Where `n` levels are left, the machine does what the parser does, and ends with the calls that
    it began with. -/
def Follows (text : List Char) (limit n : Nat) (p : Parse.Parser Tree) (m : Machine Tree) : Prop :=
  ∀ s : State, s.Sound text → s.depth + n = limit →
    Matches text limit (p (s.cursor text)) (m s) fun _ s' => s.Stays text s'

/-- The same of a machine that is told where it starts, at a place where no space comes first. -/
def FollowsFrom (text : List Char) (limit n : Nat) (p : Parse.Parser Tree)
    (m : Nat → Machine Tree) : Prop :=
  ∀ s : State, s.Sound text → s.depth + n = limit → (s.cursor text).lookahead ≠ some ' ' →
    Matches text limit (p (s.cursor text)) (m s.position s) fun _ s' => s.Stays text s'

/-- The same of the loop of a procedure, which counts folds in its call. -/
def Loops (text : List Char) (limit n : Nat) (q : Procedure) (p : Parse.Parser Tree)
    (m : Machine Tree) : Prop :=
  ∀ (s : State) (k : Nat) (calls : List Call), s.Sound text → s.depth + n = limit →
    s.calls = ⟨q, k⟩ :: calls → Matches text limit (p (s.cursor text)) (m s) fun _ s' =>
      s'.Sound text ∧ ∃ k', s'.calls = ⟨q, k'⟩ :: calls

section Makings

variable {n : Nat} {p p' : Parse.Parser Tree} {m m' : Machine Tree}

/-- A rule is followed if its body is. -/
theorem Follows.within {rule : Rule} (h : Follows text limit n p m) :
    Follows text limit n (Parse.Parser.within rule n p) (within limit rule m) :=
  fun s hs hn => within_matches (by omega) (h s hs hn)

/-- A power is followed if its exponent is. -/
theorem Follows.powerOf (h : Follows text limit n p m) (t : Tree) :
    Follows text limit n (Parse.powerOf p t) (powerOf text m t) := by
  intro s hs hn
  refine .bind (take_matches hs '^') fun taken s' hs' => ?_
  have hn' : s'.depth + n = limit := by rw [hs'.1.depth_eq hs, hn]
  cases taken with
  | true =>
      refine .bind (h s' hs'.1.sound hn') fun u s'' hs'' => ?_
      exact .value rfl (hs'.1.trans hs'')
  | false => exact .value rfl hs'.1

/-- The machine reads a number as the parser does. -/
theorem number_matches (hs : s.Sound text) (hn : s.depth ≤ limit) :
    Matches text limit (Parse.number (s.cursor text)) (number text limit scope s.position s)
      fun _ s' => s.Stays text s' := by
  rw [← Parse.leaf_figures scope]
  refine call_matches hs hn ?_
  exact (leaf_matches (hs.push .number) hn .figures).mono fun _ _ => State.Stays.ends

/-- The machine reads a variable or call as the parser does. -/
theorem named_matches (h : Follows text limit n p m) (hs : s.Sound text)
    (hn : s.depth + n = limit) :
    Matches text limit (Parse.named scope p (s.cursor text))
      (named text limit scope s.position m s) fun _ s' => s.Stays text s' := by
  have hle : s.depth ≤ limit := by omega
  refine call_matches hs hle ?_
  have hpush := hs.push .name
  rw [Parse.named, ← Parse.leaf_letters]
  refine .bind (leaf_matches hpush hle .letters) fun meaning s' hs' => ?_
  cases meaning with
  | cell c => exact .value rfl hs'.ends
  | builtin f =>
      have hn' : s'.depth + n = limit := by
        rw [hs'.depth_eq hpush]
        exact hn
      refine .bind (h s' hs'.sound hn') fun t s'' hs'' => ?_
      exact .value rfl (hs'.trans hs'').ends

/-- A group is followed if the expression in it is. -/
theorem Follows.group (h : Follows text limit n p m) :
    Follows text limit n (Parse.group p) (group text m) := by
  intro s hs hn
  refine .bind (h s hs hn) fun t s₁ hs₁ => ?_
  refine .bind (take_matches hs₁.sound ')') fun closed s₂ hs₂ => ?_
  cases closed with
  | true => exact .value rfl (hs₁.trans hs₂.1)
  | false => exact unexpected_matches

/-- Where no space comes first, the start of a number or of a name is where it stands. -/
theorem FollowsFrom.base (h : Follows text limit n p m) (h' : Follows text limit n p' m') :
    FollowsFrom text limit n (Parse.base scope p p') fun start =>
      base text limit scope start m m' := by
  intro s hs hn hlook
  refine .bind (take_matches hs '(') fun opened s₁ hs₁ => ?_
  have hn₁ : s₁.depth + n = limit := by rw [hs₁.1.depth_eq hs, hn]
  cases opened with
  | true => exact (h.group s₁ hs₁.1.sound hn₁).mono fun _ _ => hs₁.1.trans
  | false =>
      -- there were no spaces to skip, so the run begins at `start`
      have hcursor := (hs₁.2 rfl).trans (Cursor.skipSpaces_of_lookahead hlook)
      have hposition : s.position = s₁.position := (congrArg Cursor.position hcursor).symm
      refine .bind_same (p := Parse.Parser.lookahead) (m := lookahead text) rfl rfl ?_
      rw [hposition]
      cases hfigure : (s₁.cursor text).lookahead.any Literal.isFigure with
      | true =>
          exact (number_matches hs₁.1.sound (by omega)).mono fun _ _ => hs₁.1.trans
      | false =>
          cases hletter : (s₁.cursor text).lookahead.any Scope.isLetter with
          | true => exact (named_matches h' hs₁.1.sound hn₁).mono fun _ _ => hs₁.1.trans
          | false => exact unexpected_matches

/-- A factor is followed if its base is, and what its signs stand before. -/
theorem Follows.signedFactor
    (h : FollowsFrom text limit n (Parse.base scope p p') fun start =>
      base text limit scope start m m')
    (h' : Follows text limit n p' m') :
    Follows text limit n (Parse.signed scope p p') (signedFactor text limit scope m m') := by
  intro s hs hn
  refine call_matches hs (by show s.depth + 0 ≤ limit; omega) ?_
  have hpush := hs.push .signedFactor
  refine Matches.mono (Q := fun _ s' => (s.push .signedFactor).Stays text s') ?_
    fun _ _ => State.Stays.ends
  refine .bind (take_matches hpush '+') fun plus s₁ hs₁ => ?_
  have hn₁ : s₁.depth + n = limit := by
    rw [hs₁.1.depth_eq hpush]
    exact hn
  cases plus with
  | true => exact (h' s₁ hs₁.1.sound hn₁).mono fun _ _ => hs₁.1.trans
  | false =>
      refine .bind (take_matches hs₁.1.sound '-') fun minus s₂ hs₂ => ?_
      have hn₂ : s₂.depth + n = limit := by rw [hs₂.1.depth_eq hs₁.1.sound, hn₁]
      have hstays := hs₁.1.trans hs₂.1
      cases minus with
      | true =>
          refine .bind (h' s₂ hs₂.1.sound hn₂) fun t s₃ hs₃ => ?_
          exact .value rfl (hstays.trans hs₃)
      | false =>
          refine .of_silent (m := position) rfl proper_nil ?_
          have hlook := lookahead_ne_space (hs₂.2 rfl)
          refine .bind (h s₂ hs₂.1.sound hn₂ hlook) fun t s₃ hs₃ => ?_
          have hn₃ : s₃.depth + n = limit := by rw [hs₃.depth_eq hs₂.1.sound, hn₂]
          exact (h'.powerOf t s₃ hs₃.sound hn₃).mono fun _ _ =>
            State.Stays.trans (hstays.trans hs₃)

variable {q : Procedure} {ops : List Operator} {left : Tree} {rounds : Nat}

/-- With no level left a loop ends or runs out of levels with its chain. -/
theorem Loops.zero (hne : ops ≠ []) : Loops text limit 0 q
    (Parse.chain ops left fun _ => Parse.Parser.exhausted)
    (folds text limit ops m (rounds + 1) left) := by
  intro s k calls hs hn hcalls
  refine .bind (takeOperator_matches hs hne) fun found s' hs' => ?_
  cases found with
  | none => exact .value rfl ⟨hs'.sound, k, hs'.calls_eq.trans hcalls⟩
  | some op =>
      have hdepth : s'.depth = limit := by rw [hs'.depth_eq hs, ← hn, Nat.add_zero]
      exact Matches.bind (p := Parse.Parser.exhausted) (f := fun _ => Parse.Parser.exhausted)
        (Q := fun _ _ => False) (enter_exhausted hs'.sound hdepth _) fun _ _ h => h.elim

/-- A fold, after its level was counted. -/
theorem Loops.fold {op : Operator} (h : Follows text limit n p m)
    {tail : Tree → Parse.Parser Tree} {tail' : Tree → Machine Tree}
    (ht : ∀ t, Loops text limit n q (tail t) (tail' t)) :
    Loops text limit n q (Parse.fold n left p tail op) (do
      note (.folding op (← position) (limit - (← depth)))
      tail' (.binary left op (← m))) := by
  intro s k calls hs hn hcalls
  have hroom : limit - s.depth = n := by omega
  refine .bind_same (p := Parse.Parser.position) (m := position) rfl rfl ?_
  refine .of_silent (m := depth) rfl proper_nil ?_
  rw [hroom]
  refine .bind_same (p := Parse.Parser.note _) (m := note _) rfl rfl ?_
  refine .bind (h s hs hn) fun t s' hs' => ?_
  have hn' : s'.depth + n = limit := by rw [hs'.depth_eq hs, hn]
  exact ht _ s' k calls hs'.sound hn' (hs'.calls_eq.trans hcalls)

/-- A loop follows its chain if its rounds follow the folds. -/
theorem Loops.succ (hne : ops ≠ []) (h : Follows text limit n p m)
    {tail : Tree → Parse.Parser Tree}
    (ht : ∀ t, Loops text limit n q (tail t) (folds text limit ops m rounds t)) :
    Loops text limit (n + 1) q (Parse.chain ops left (Parse.fold n left p tail))
      (folds text limit ops m (rounds + 1) left) := by
  intro s k calls hs hn hcalls
  refine .bind (takeOperator_matches hs hne) fun found s₁ hs₁ => ?_
  have hcalls₁ : s₁.calls = ⟨q, k⟩ :: calls := hs₁.calls_eq.trans hcalls
  cases found with
  | none => exact .value rfl ⟨hs₁.sound, k, hcalls₁⟩
  | some op =>
      -- the level is counted before the operand is read, for the innermost call
      have hdepth := hs₁.depth_eq hs
      have hcount : countFold text limit s₁ =
        ⟨[], [⟨.counted, s₁.depth + 1, s₁.calls⟩], .value () s₁.fold⟩ :=
          enter_of_lt (by omega) _
      refine .of_silent hcount (proper_counted hs₁.sound (by omega)) ?_
      have hn' : s₁.fold.depth + n = limit := by
        show s₁.depth + 1 + n = limit
        omega
      have hcalls' : s₁.fold.calls = ⟨q, k + 1⟩ :: calls := by rw [State.fold, hcalls₁]; rfl
      have hs' := hs₁.sound.fold (by rw [hcalls₁]; exact List.cons_ne_nil _ _)
      exact Loops.fold h ht s₁.fold (k + 1) calls hs' hn' hcalls'

/-- A procedure that reads one part and goes on in a loop ends with its call at its end, if that
    gives back the folds it has counted. -/
theorem Follows.call_loop (hown : ∀ k, Call.givesBack ⟨q, k⟩ = Call.levels ⟨q, k⟩)
    {tail : Tree → Parse.Parser Tree} {tail' : Tree → Machine Tree}
    (h : Follows text limit n p m) (ht : ∀ t, Loops text limit n q (tail t) (tail' t)) :
    Follows text limit (n + q.own) (p >>= tail) (call text limit q (m >>= tail')) := by
  intro s hs hn
  refine call_matches hs (by omega) ?_
  have hn' : (s.push q).depth + n = limit := by
    show s.depth + q.own + n = limit
    omega
  refine .bind (h (s.push q) (hs.push q) hn') fun t s₁ hs₁ => ?_
  have hn₁ : s₁.depth + n = limit := by rw [hs₁.depth_eq (hs.push q), hn']
  refine (ht t s₁ 0 s.calls hs₁.sound hn₁ hs₁.calls_eq).mono fun u s₂ hs₂ => ?_
  obtain ⟨hsound, k, hcalls⟩ := hs₂
  exact ⟨hsound, ⟨q, k⟩, hcalls, hown k⟩

/-- The call of a factor takes the level of the factor. -/
theorem Follows.call_factor (h : Follows text limit n p m) :
    Follows text limit (n + 1) p (call text limit .factor m) := by
  intro s hs hn
  refine call_matches hs (by show s.depth + 1 ≤ limit; omega) ?_
  refine (h (s.push .factor) (hs.push .factor) ?_).mono fun _ _ => State.Stays.ends
  show s.depth + 1 + n = limit
  omega

end Makings

/-- The machine of a phrase does what its rule does, given a stack for more calls than levels are
    left. -/
def Performs (text : List Char) (limit : Nat) (scope : Scope) (phrase : Phrase) (n : Nat) : Prop :=
  ∀ stack, n < stack →
    match phrase with
    | .expression => Follows text limit n (Parse.rule scope .expression n)
        (expression text limit scope stack)
    | .term => Follows text limit n (Parse.rule scope .term n) (term text limit scope stack)
    | .factor => Follows text limit n (Parse.rule scope .factor n) (factor text limit scope stack)
    | .base => FollowsFrom text limit n (Parse.rule scope .base n) fun start =>
        base text limit scope start (expression text limit scope stack)
          (factor text limit scope stack)
    | .moreTerms left => ∀ rounds, n < rounds →
        Loops text limit n .expression (Parse.rule scope (.moreTerms left) n)
          (folds text limit Operator.additive (term text limit scope stack) rounds left)
    | .moreFactors left => ∀ rounds, n < rounds →
        Loops text limit n .term (Parse.rule scope (.moreFactors left) n)
          (folds text limit Operator.multiplicative (factor text limit scope stack) rounds left)

/-- **PROCEDURES AND RULES.** Each procedure of the machine does what its rule does. -/
theorem procedure_matches (text : List Char) (limit : Nat) (scope : Scope) :
    ∀ phrase n, Performs text limit scope phrase n := by
  refine Parse.rule_induction ?expression_zero ?moreTerms_zero ?moreFactors_zero ?factor_zero
    ?expression_succ ?moreTerms_succ ?moreFactors_succ ?factor_succ ?term ?base
  case expression_zero =>
    intro stack hstack
    obtain ⟨stack, rfl⟩ := Nat.exists_eq_add_one.2 hstack
    show Follows text limit 0 (Parse.rule scope .expression 0)
      (expression text limit scope (stack + 1))
    rw [Parse.rule_expression_zero, expression]
    exact .within fun s hs hn => call_exhausted hs hn rfl _
  case moreTerms_zero =>
    intro left stack hstack rounds hrounds
    obtain ⟨rounds, rfl⟩ := Nat.exists_eq_add_one.2 hrounds
    rw [Parse.rule_moreTerms_zero]
    exact .zero (by decide)
  case moreFactors_zero =>
    intro left stack hstack rounds hrounds
    obtain ⟨rounds, rfl⟩ := Nat.exists_eq_add_one.2 hrounds
    rw [Parse.rule_moreFactors_zero]
    exact .zero (by decide)
  case factor_zero =>
    intro stack hstack
    obtain ⟨stack, rfl⟩ := Nat.exists_eq_add_one.2 hstack
    show Follows text limit 0 (Parse.rule scope .factor 0) (factor text limit scope (stack + 1))
    rw [Parse.rule_factor_zero, factor]
    exact .within fun s hs hn => call_exhausted hs hn rfl _
  case expression_succ =>
    intro n ht hs stack hstack
    obtain ⟨stack, rfl⟩ : ∃ k, stack = k + 1 := ⟨stack - 1, by omega⟩
    have hlt : n < stack := by omega
    show Follows text limit (n + 1) (Parse.rule scope .expression (n + 1))
      (expression text limit scope (stack + 1))
    rw [Parse.rule_expression_succ, expression]
    exact .within (.call_loop (q := .expression) (fun k => Nat.add_comm k 1) (ht stack hlt)
      fun t => hs t stack hlt stack hlt)
  case moreTerms_succ =>
    intro n ht hs left stack hstack rounds hrounds
    obtain ⟨rounds, rfl⟩ : ∃ k, rounds = k + 1 := ⟨rounds - 1, by omega⟩
    rw [Parse.rule_moreTerms_succ]
    exact .succ (by decide) (ht stack (by omega)) fun t => hs t stack (by omega) rounds (by omega)
  case moreFactors_succ =>
    intro n hf hp left stack hstack rounds hrounds
    obtain ⟨rounds, rfl⟩ : ∃ k, rounds = k + 1 := ⟨rounds - 1, by omega⟩
    rw [Parse.rule_moreFactors_succ]
    exact .succ (by decide) (hf stack (by omega)) fun t => hp t stack (by omega) rounds (by omega)
  case factor_succ =>
    intro n hb hf stack hstack
    obtain ⟨stack, rfl⟩ : ∃ k, stack = k + 1 := ⟨stack - 1, by omega⟩
    show Follows text limit (n + 1) (Parse.rule scope .factor (n + 1))
      (factor text limit scope (stack + 1))
    rw [Parse.rule_factor_succ, factor]
    exact .within (.call_factor (.signedFactor (hb stack (by omega)) (hf stack (by omega))))
  case term =>
    intro n hf hp stack hstack
    show Follows text limit n (Parse.rule scope .term n) (term text limit scope stack)
    rw [Parse.rule_term, term, termOf]
    exact .within (.call_loop (q := .term) (fun k => (Nat.zero_add k).symm) (hf stack hstack)
      fun t => hp t stack hstack stack hstack)
  case base =>
    intro n he hf stack hstack
    exact .base (he stack hstack) (hf stack hstack)

/-- **WHOLE TEXTS.** With a stack for one call more than there are levels the machine does what
    the parser does. -/
theorem formula_matches (text : List Char) (limit : Nat) (scope : Scope) {stack : Nat}
    (hstack : limit < stack) :
    Matches text limit (Parse.formula scope limit (.start text))
      (formula text limit scope stack .start) fun _ _ => True := by
  have hstart : State.start.Sound text := ⟨rfl, Nat.zero_le _⟩
  have hexpression := procedure_matches text limit scope .expression limit stack hstack .start
    hstart (Nat.zero_add limit)
  rw [Parse.formula_eq]
  refine hexpression.bind fun t s hs => ?_
  refine .bind (p := Parse.Parser.skipSpaces) (advance_matches hs.sound _) fun _ s' hs' => ?_
  refine .bind_same (p := Parse.Parser.lookahead) (m := lookahead text) rfl rfl ?_
  cases (s'.cursor text).lookahead with
  | none => exact .value rfl True.intro
  | some ch => exact unexpected_matches

end Matching

end Metered

namespace Draft

open LiveArith.Metered

/-- **SAFE PARSING.** The machine that counts its levels takes the steps of a build and comes to
    what it comes to: it does not run out of stack, the counter does not go below zero, and no
    slice is out of range.  When a procedure is called the counter is the number of expressions
    and factors that are active, and of the folds they have counted, and with the new call they
    nest at most 513 times.  The counter is never above 513, and once it is there the build fails
    at once.  A procedure that returns leaves the counter as it was when it was called. -/
theorem meter_safe (d : Draft) :
    d.meter.steps = (d.parseWithin maxDepth).steps ∧
    ((∃ t s, d.meter.outcome = .value t s ∧
        (d.parseWithin maxDepth).result = .ok (t, s.cursor d.source.toList)) ∨
      ∃ e, d.meter.outcome = .error e ∧ (d.parseWithin maxDepth).result = .error e) ∧
    (∀ m ∈ d.meter.moments, m.depth ≤ 513 ∧
      (∀ p, m.event = .called p → m.depth = nested m.calls + folded m.calls ∧
        nested (⟨p, 0⟩ :: m.calls) ≤ 513) ∧
      (∀ p entry, m.event = .returned p entry → m.depth = entry) ∧
      ∀ start stop, m.event = .sliced start stop →
        start ≤ stop ∧ stop ≤ d.source.toList.length) ∧
    ∀ before m after, d.meter.moments = before ++ m :: after → m.depth = 513 →
      after = [] ∧ ∃ found p, d.meter.outcome = .error (.unexpectedCharacter found p) := by
  obtain ⟨hsteps, hproper, hout⟩ :=
    formula_matches d.source.toList maxDepth d.scope (Nat.lt_succ_self maxDepth)
  have hobeys : d.meter.Obeys maxDepth := by
    rcases hout with ⟨t, s, -, -, hle, -⟩ | ⟨e, -, -, hobeys⟩
    · exact Or.inl hle
    · exact hobeys
  refine ⟨hsteps, ?_, fun m hm => ⟨hobeys.depth_le m hm, ?_, ?_, ?_⟩, ?_⟩
  · rcases hout with ⟨t, s, hr, hr', -⟩ | ⟨e, hr, hr', -⟩
    · exact Or.inl ⟨t, s, hr', hr⟩
    · exact Or.inr ⟨e, hr', hr⟩
  · intro p hp
    have h := hproper m hm
    rw [Moment.Proper, hp] at h
    exact ⟨h.1.trans (levels_eq m.calls), h.2⟩
  · intro p entry hp
    have h := hproper m hm
    rwa [Moment.Proper, hp] at h
  · intro start stop hp
    have h := hproper m hm
    rwa [Moment.Proper, hp] at h
  · intro before m after hms hm
    exact hobeys.last hms (hm ▸ Nat.lt_succ_self maxDepth)

end Draft

end LiveArith
