import LiveArith.Proofs.Allowance

/-! # Unlimited — what the limit alters

    There is one parser that counts its levels and refuses none (`Unlimited`).  The
    parser with a limit does what this one does, up to the first level beyond the
    limit, and there it fails.  The route:

    * a run with a limit mirrors a run that counts, or it ends at the place where
      the other one records a level beyond the limit (`mirror`, `rule_below`);
    * with room for all levels of a text nothing is refused (`rule_ample`), so there
      the parser with a limit is the one without (`freely`, `unlimited_iff`);
    * the levels that are allowed tell how far a text is read when the limit is
      reached (`formula_allowed`). -/

namespace LiveArith

open LiveArith.Grammar LiveArith.Parse LiveArith.Token

namespace Parse

open LiveArith.Parse.Parser LiveArith.Cursor

variable {α β : Type} {scope : Scope}

/-! ## The parser without a limit -/

/-- The parser of each phrase, made of the parsers of its parts.  No level is refused: the room
    that it records is the number of levels that are open. -/
def template (scope : Scope) (parse : Phrase → Nat → Parser Tree) : Phrase → Nat → Parser Tree
  | .expression, k => within .expression k do parse (.moreTerms (← parse .term (k + 1))) (k + 1)
  | .term, k => within .term k do parse (.moreFactors (← parse .factor k)) k
  | .factor, k =>
    within .factor k (signed scope (parse .expression (k + 1)) (parse .factor (k + 1)))
  | .base, k => base scope (parse .expression k) (parse .factor k)
  | .moreTerms left, k => chain Operator.additive left <|
      fold (k + 1) left (parse .term (k + 1)) fun t => parse (.moreTerms t) (k + 1)
  | .moreFactors left, k => chain Operator.multiplicative left <|
      fold (k + 1) left (parse .factor (k + 1)) fun t => parse (.moreFactors t) (k + 1)

/-- The parsers of the phrases count levels and refuse none: each is made of the others as the
    template says. -/
def Unlimited (scope : Scope) (parse : Phrase → Nat → Parser Tree) : Prop :=
  ∀ phrase k, parse phrase k = template scope parse phrase k

/-- The number of levels that are open when a parser that counts them has taken the step; a step
    that tells no count gives none. -/
def Step.level : Step → Nat
  | .opened .term _ k => k
  | .opened _ _ k => k + 1
  | .folding _ _ k => k
  | .closed _ _ _ | .exhausted _ | .number _ | .variableName _ _ | .functionName _ => 0

/-- The step with another reading of its room. -/
def Step.mapRoom (φ : Nat → Nat) : Step → Step
  | .opened rule place room => .opened rule place (φ room)
  | .closed rule start stop => .closed rule start stop
  | .folding op place room => .folding op place (φ room)
  | .exhausted place => .exhausted place
  | .number v => .number v
  | .variableName name cell => .variableName name cell
  | .functionName f => .functionName f

theorem Step.mapRoom_id (step : Step) : step.mapRoom id = step := by
  cases step <;> rfl

/-- The place of a step does not depend on how the room is read. -/
theorem Step.place_mapRoom (φ : Nat → Nat) (step : Step) : (step.mapRoom φ).place = step.place := by
  cases step <;> rfl

theorem Step.IsLeaf.level_eq {step : Step} (h : step.IsLeaf) : step.level = 0 := by
  cases step <;> first | rfl | exact h.elim

theorem Step.IsLeaf.mapRoom_eq {step : Step} (h : step.IsLeaf) (φ : Nat → Nat) :
    step.mapRoom φ = step := by
  cases step <;> first | rfl | exact h.elim

/-- No line of the log tells of the room. -/
theorem Step.message?_mapRoom (φ : Nat → Nat) (step : Step) :
    (step.mapRoom φ).message? = step.message? := by
  cases step <;> rfl

/-- The run with another reading of the rooms. -/
def Run.mapRooms (φ : Nat → Nat) (r : Run α) : Run α :=
  ⟨r.steps.map (Step.mapRoom φ), r.result⟩

theorem Run.mapRooms_id (r : Run α) : r.mapRooms id = r := by
  rw [Run.mapRooms, List.map_congr_left fun step _ => step.mapRoom_id, List.map_id'']
  exact fun _ => rfl

/-- A parser goes forward however its rooms are read. -/
theorem Forward.mapRooms {p : Parser α} (h : Forward p) (φ : Nat → Nat) :
    Forward fun c => (p c).mapRooms φ := by
  intro c
  refine ⟨(h c).1, fun step hstep => ?_⟩
  obtain ⟨step, hmem, rfl⟩ := List.mem_map.1 hstep
  rw [step.place_mapRoom]
  exact (h c).2 step hmem

/-- The parser with room for `limit` levels, as it counts them. -/
def counted (scope : Scope) (limit : Nat) (phrase : Phrase) (k : Nat) : Parser Tree :=
  fun c => (rule scope phrase (limit - k) c).mapRooms (limit - ·)

/-- The parser with room for all levels that the text can open beyond `k`, as it counts them. -/
def freely (scope : Scope) (phrase : Phrase) (k : Nat) : Parser Tree :=
  fun c => counted scope (k + c.ample) phrase k c

/-! ## Mirrors -/

/-- The first run ran out of levels where the second recorded a level that is too much. -/
structure Overrun (excess : Nat → Prop) (r r' : Run α) : Prop where
  exhausts : Exhausts r
  step : ∃ step ∈ r'.steps, step.place = r.stop ∧ excess step.level

/-- The runs took the same steps, but for the reading of the room, and none to a level that is too
    much, and they came to the same. -/
structure Mirrored (φ : Nat → Nat) (excess : Nat → Prop) (Q : α → Cursor → Cursor → Prop)
    (r r' : Run α) : Prop where
  steps_eq : r'.steps = r.steps.map (Step.mapRoom φ)
  levels : ∀ step ∈ r'.steps, ¬ excess step.level
  result : (∃ e, r.result = .error e ∧ r'.result = .error e) ∨
    ∃ a c d, r.result = .ok (a, c) ∧ r'.result = .ok (a, d) ∧ Q a c d

/-- The cursor of both runs, with at most `reach` characters behind it. -/
def Shared (reach : Nat) (c d : Cursor) : Prop :=
  c = d ∧ c.rest.length ≤ reach

/-- From one cursor, a mirrored run is the run itself but for the reading of the rooms. -/
theorem Mirrored.eq {φ : Nat → Nat} {excess : Nat → Prop} {reach : Nat} {r r' : Run α}
    (h : Mirrored φ excess (fun _ => Shared reach) r r') : r' = r.mapRooms φ := by
  obtain ⟨steps, result⟩ := r'
  obtain ⟨rfl, -, ⟨e, he, rfl⟩ | ⟨a, c, d, hc, rfl, rfl, -⟩⟩ := h
  · rw [Run.mapRooms, he]
  · rw [Run.mapRooms, hc]

section Mirror

variable {φ : Nat → Nat} {excess : Nat → Prop} {Q : α → Cursor → Cursor → Prop}
  {S : β → Cursor → Cursor → Prop} {p q : Parser α} {f g : α → Parser β} {c d c' : Cursor}

/-- A sequence takes the steps of its first part. -/
theorem mem_steps_bind {step : Step} (h : step ∈ (p c).steps) : step ∈ ((p >>= f) c).steps := by
  cases hp : (p c).result with
  | error e =>
      rw [bind_of_error f hp]
      exact h
  | ok r =>
      obtain ⟨a, c'⟩ := r
      rw [bind_of_ok f hp]
      exact List.mem_append_left _ h

/-- A sequence overruns where its first part does. -/
theorem Overrun.bind_left (h : Overrun excess (p c) (q d)) :
    Overrun excess ((p >>= f) c) ((q >>= g) d) := by
  obtain ⟨step, hmem, hplace, hover⟩ := h.step
  refine ⟨h.exhausts.bind_left f, step, mem_steps_bind hmem, ?_, hover⟩
  obtain ⟨found, x, he, -⟩ := h.exhausts
  rw [hplace, bind_of_error f he, Run.stop_of_error he, Run.stop_of_error rfl]

/-- A sequence overruns where its second part does. -/
theorem Overrun.bind_right {a b : α} {d' : Cursor} (hp : (p c).result = .ok (a, c'))
    (hq : (q d).result = .ok (b, d')) (h : Overrun excess (f a c') (g b d')) :
    Overrun excess ((p >>= f) c) ((q >>= g) d) := by
  obtain ⟨step, hmem, hplace, hover⟩ := h.step
  refine ⟨h.exhausts.bind_right hp, step, ?_, ?_, hover⟩
  · rw [bind_of_ok g hq]
    exact List.mem_append_right _ hmem
  · rw [hplace, bind_of_ok f hp]
    rfl

/-- Two sequences mirror each other as long as their second parts do, or the first overruns. -/
theorem Mirrored.bind (h : Mirrored φ excess Q (p c) (q d))
    (hf : ∀ a c' d', Q a c' d' →
      Overrun excess (f a c') (g a d') ∨ Mirrored φ excess S (f a c') (g a d')) :
    Overrun excess ((p >>= f) c) ((q >>= g) d) ∨
      Mirrored φ excess S ((p >>= f) c) ((q >>= g) d) := by
  rcases h.result with ⟨e, hp, hq⟩ | ⟨a, c', d', hp, hq, hQ⟩
  · rw [bind_of_error f hp, bind_of_error g hq]
    exact Or.inr ⟨h.steps_eq, h.levels, Or.inl ⟨e, rfl, rfl⟩⟩
  · rcases hf a c' d' hQ with hover | hm
    · exact Or.inl (hover.bind_right hp hq)
    · rw [bind_of_ok f hp, bind_of_ok g hq]
      refine Or.inr ⟨?_, fun step hstep => ?_, hm.result⟩
      · rw [h.steps_eq, hm.steps_eq, List.map_append]
      · exact (List.mem_append.1 hstep).elim (h.levels step) (hm.levels step)

/-- A rule overruns where its body does. -/
theorem Overrun.within {rule : Rule} {n m : Nat} (h : Overrun excess (p c) (q d)) :
    Overrun excess (within rule n p c) (within rule m q d) := by
  obtain ⟨step, hmem, hplace, hover⟩ := h.step
  refine ⟨h.exhausts.within, step, ?_, ?_, hover⟩
  · cases hq : (q d).result with
    | error e =>
        rw [within_of_error hq]
        exact List.mem_cons_of_mem _ hmem
    | ok r =>
        obtain ⟨a, d'⟩ := r
        rw [within_of_ok hq]
        exact List.mem_cons_of_mem _ (List.mem_append_left _ hmem)
  · obtain ⟨found, x, he, -⟩ := h.exhausts
    rw [hplace, within_of_error he, Run.stop_of_error he, Run.stop_of_error rfl]

/-- Two runs of a rule mirror each other if its bodies do and its own level is not too much. -/
theorem Mirrored.within {reach : Nat} {rule : Rule} {n : Nat} {p q : Parser Tree}
    (h0 : ¬ excess 0) (hr : ∀ place, ¬ excess (Step.opened rule place (φ n)).level)
    (h : Mirrored φ excess (fun _ => Shared reach) (p c) (q c)) :
    Mirrored φ excess (fun _ => Shared reach) (within rule n p c) (within rule (φ n) q c) := by
  rcases h.result with ⟨e, hp, hq⟩ | ⟨a, c', d', hp, hq, hshared⟩
  · rw [within_of_error hp, within_of_error hq]
    refine ⟨?_, fun step hstep => ?_, Or.inl ⟨e, rfl, rfl⟩⟩
    · rw [h.steps_eq]
      rfl
    · rcases List.mem_cons.1 hstep with rfl | hm
      · exact hr _
      · exact h.levels step hm
  · rw [within_of_ok hp, within_of_ok hq]
    obtain ⟨rfl, hreach⟩ := hshared
    refine ⟨?_, fun step hstep => ?_, Or.inr ⟨a, c', c', rfl, rfl, rfl, hreach⟩⟩
    · rw [h.steps_eq, List.map_cons, List.map_append]
      rfl
    · rcases List.mem_cons.1 hstep with rfl | hm
      · exact hr _
      rcases List.mem_append.1 hm with hm | hm
      · exact h.levels step hm
      · rw [List.mem_singleton.1 hm]
        exact h0

end Mirror

/-- Where a leaf moves the cursor on, no more characters are behind it. -/
theorem Shared.skip {reach : Nat} {c d : Cursor} (h : Shared reach c d) (f : Char → Bool) :
    Shared reach (c.skip f) (d.skip f) := by
  obtain ⟨rfl, hreach⟩ := h
  exact ⟨rfl, Nat.le_trans (List.dropWhile_suffix f).length_le hreach⟩

/-- **MIRROR.** A parser with a limit beside one that counts levels: it does the same or runs out
    of levels where the other one opens one that is too much. -/
def mirror (scope : Scope) (reach : Nat) (φ : Nat → Nat) (excess : Nat → Prop)
    (h0 : ¬ excess 0) : Lockstep scope where
  place := Shared reach
  counts n m := m = φ n ∧ ¬ excess m
  opens rule n m := m = φ n ∧ ∀ place, ¬ excess (Step.opened rule place m).level
  holds Q r r' := Overrun excess r r' ∨ Mirrored φ excess Q r r'
  holds_pure hQ := Or.inr ⟨rfl, nofun, Or.inr ⟨_, _, _, rfl, rfl, hQ⟩⟩
  holds_bind h hf _ := h.elim (fun hover => Or.inl hover.bind_left) fun hm => hm.bind hf
  holds_within hr hplace h := by
    obtain ⟨rfl, hr⟩ := hr
    obtain ⟨rfl, -⟩ := hplace
    exact h.imp Overrun.within (Mirrored.within h0 hr)
  holds_countFold hc h := by
    obtain ⟨rfl, hc⟩ := hc
    obtain ⟨rfl, hreach⟩ := h
    refine Or.inr ⟨rfl, fun step hstep => ?_, Or.inr ⟨(), _, _, rfl, rfl, rfl, hreach⟩⟩
    rw [List.mem_singleton.1 hstep]
    exact hc
  holds_skipSpaces {c d} h :=
    Or.inr ⟨rfl, nofun, Or.inr ⟨(), _, _, rfl, rfl, h.skip _, lookahead_skipSpaces c,
      lookahead_skipSpaces d⟩⟩
  lookahead_eq h _ := by rw [h.1]
  holds_mark _ h _ _ hQ := by
    obtain ⟨rfl, hreach⟩ := h
    refine Or.inr ⟨rfl, nofun, Or.inr ⟨_, _, _, rfl, rfl, hQ ⟨rfl, ?_⟩⟩⟩
    exact Nat.le_trans (List.drop_suffix 1 _).length_le hreach
  holds_unexpected h _ := by
    obtain ⟨rfl, -⟩ := h
    exact Or.inr ⟨rfl, nofun, Or.inl ⟨_, rfl, rfl⟩⟩
  holds_leaf {k c d} h _ _ := by
    obtain ⟨rfl, hreach⟩ := h
    cases hread : reading? scope k (c.run k.holds) with
    | none =>
        rw [leaf_of_none hread]
        exact Or.inr ⟨rfl, nofun, Or.inl ⟨_, rfl, rfl⟩⟩
    | some r =>
        have hleaf := isLeaf_of_reading? hread
        rw [leaf_of_some hread]
        refine Or.inr ⟨?_, fun step hstep => ?_, Or.inr ⟨_, _, _, rfl, rfl, ?_⟩⟩
        · rw [List.map_singleton, hleaf.mapRoom_eq]
        · rw [List.mem_singleton.1 hstep, hleaf.level_eq]
          exact h0
        · exact Shared.skip ⟨rfl, hreach⟩ _

/-! ## With a limit and without -/

/-- A parser that lacks a level at once, beside one that records a level too much. -/
theorem exhausted_mirrors {reach : Nat} {φ : Nat → Nat} {excess : Nat → Prop} (h0 : ¬ excess 0)
    {q : Parser Tree}
    (h : ∀ c, ∃ step ∈ (q c).steps, step.place = c.position ∧ excess step.level) :
    (mirror scope reach φ excess h0).Keeps exhausted q := by
  refine ⟨fun {c d} hshared => Or.inl ⟨⟨c.lookahead, c.position, rfl, rfl⟩, ?_⟩, .exhausted⟩
  rw [← hshared.1]
  exact h c

/-- A rule that lacks a level at once, beside one that is opened at a level too much. -/
theorem within_exhausted_mirrors {reach : Nat} {φ : Nat → Nat} {excess : Nat → Prop}
    (h0 : ¬ excess 0) {rule : Rule} {n k : Nat} {body : Parser Tree}
    (h : ∀ place, excess (Step.opened rule place k).level) :
    (mirror scope reach φ excess h0).Keeps (within rule n exhausted) (within rule k body) := by
  refine ⟨fun {c d} hshared => Or.inl ⟨?_, .opened rule c.position k, ?_, ?_, h _⟩,
    Forward.exhausted.within⟩
  · exact Exhausts.within ⟨c.lookahead, c.position, rfl, rfl⟩
  · rw [← hshared.1]
    exact List.mem_cons_self
  · rfl

/-- A fold records its level where it begins. -/
theorem fold_excess {excess : Nat → Prop} {k : Nat} (hk : excess k) {left : Tree} {q : Parser Tree}
    {tail : Tree → Parser Tree} (op : Operator) (c : Cursor) :
    ∃ step ∈ (fold k left q tail op c).steps, step.place = c.position ∧ excess step.level := by
  rw [fold_eq]
  exact ⟨.folding op c.position k, mem_steps_bind List.mem_cons_self, rfl, hk⟩

/-- The comparison in which a level is too much if it is beyond the limit. -/
def below (scope : Scope) (reach limit : Nat) : Lockstep scope :=
  mirror scope reach (limit - ·) (limit < ·) (Nat.not_lt_zero limit)

section Below

variable {reach limit n k : Nat} {parse : Phrase → Nat → Parser Tree}

/-- A rule that has a level left opens it within the limit. -/
theorem below_opens (rule : Rule) (h : n + 1 + k = limit) :
    (below scope reach limit).opens rule (n + 1) k := by
  refine ⟨show k = limit - (n + 1) by omega, fun place hover => ?_⟩
  cases rule with
  | term => exact absurd (show limit < k from hover) (by omega)
  | expression => exact absurd (show limit < k + 1 from hover) (by omega)
  | factor => exact absurd (show limit < k + 1 from hover) (by omega)

/-- A term opens no level, so it may be opened with none left. -/
theorem below_opens_term (h : n + k = limit) : (below scope reach limit).opens .term n k := by
  refine ⟨show k = limit - n by omega, fun place hover => ?_⟩
  exact absurd (show limit < k from hover) (by omega)

/-- A fold that has a level left counts it within the limit. -/
theorem below_counts (h : n + 1 + k = limit) : (below scope reach limit).counts n (k + 1) :=
  ⟨show k + 1 = limit - n by omega, show ¬ limit < k + 1 by omega⟩

/-- **BELOW THE LIMIT.** With room for the levels from `k` to the limit, the parser of a phrase
    mirrors any parser that counts levels up to the limit. -/
theorem rule_below
    (h : ∀ phrase k, k ≤ limit → parse phrase k = template scope parse phrase k) :
    ∀ phrase n, ∀ k, n + k = limit →
      (below scope reach limit).Keeps (rule scope phrase n) (parse phrase k) := by
  refine rule_induction ?expression_zero ?moreTerms_zero ?moreFactors_zero ?factor_zero
    ?expression_succ ?moreTerms_succ ?moreFactors_succ ?factor_succ ?term ?base
  case expression_zero =>
    -- no level is left, and the other parser opens one beyond the limit at the same place
    intro k hk
    rw [rule_expression_zero, h _ _ (by omega)]
    exact within_exhausted_mirrors _ fun place => show limit < k + 1 by omega
  case moreTerms_zero =>
    intro left k hk
    rw [rule_moreTerms_zero, h _ _ (by omega)]
    exact .chain fun op => exhausted_mirrors _ (fold_excess (by omega) op)
  case moreFactors_zero =>
    intro left k hk
    rw [rule_moreFactors_zero, h _ _ (by omega)]
    exact .chain fun op => exhausted_mirrors _ (fold_excess (by omega) op)
  case factor_zero =>
    intro k hk
    rw [rule_factor_zero, h _ _ (by omega)]
    exact within_exhausted_mirrors _ fun place => show limit < k + 1 by omega
  case expression_succ =>
    intro n ht hs k hk
    rw [rule_expression_succ, h _ _ (by omega)]
    refine .within (below_opens _ hk) ((ht (k + 1) ?_).bind fun left => hs left (k + 1) ?_)
    all_goals omega
  case moreTerms_succ =>
    intro n ht hs left k hk
    rw [rule_moreTerms_succ, h _ _ (by omega)]
    refine .chain fun op => .fold (below_counts hk) op (ht _ ?_) fun t => hs t _ ?_
    all_goals omega
  case moreFactors_succ =>
    intro n hf hp left k hk
    rw [rule_moreFactors_succ, h _ _ (by omega)]
    refine .chain fun op => .fold (below_counts hk) op (hf _ ?_) fun t => hp t _ ?_
    all_goals omega
  case factor_succ =>
    intro n hb hf k hk
    have hbase := hb (k + 1) (by omega)
    rw [h .base (k + 1) (by omega)] at hbase
    rw [rule_factor_succ, h _ _ (by omega)]
    exact .within (below_opens _ hk) (.signed hbase (hf (k + 1) (by omega)))
  case term =>
    intro n hf hp k hk
    rw [rule_term, h _ _ (by omega)]
    exact .within (below_opens_term hk) ((hf k hk).bind fun left => hp left k hk)
  case base =>
    intro n he hf k hk
    rw [rule_base, h _ _ (by omega)]
    exact (he k hk).base (hf k hk)

/-- With room for all levels of the text, the parser of a phrase does what any parser does that
    counts that many levels. -/
theorem eq_freely {phrase : Phrase} {c : Cursor}
    (h : ∀ phrase k', k' ≤ c.ample + k → parse phrase k' = template scope parse phrase k') :
    parse phrase k c = freely scope phrase k c := by
  have hkeeps : (below scope c.rest.length (c.ample + k)).Keeps (rule scope phrase c.ample)
      (parse phrase k) := rule_below h phrase c.ample k rfl
  rcases hkeeps.holds ⟨rfl, Nat.le_refl _⟩ with hover | hm
  · exact absurd hover.exhausts (rule_ample scope phrase c)
  · rw [freely, counted, Nat.add_sub_cancel_left, Nat.add_comm k]
    exact hm.eq

end Below

/-! ## There is one parser without a limit -/

/-- The comparison in which no level is too much: the same runs, but for the reading of the
    room. -/
def copy (scope : Scope) (reach : Nat) (φ : Nat → Nat) : Lockstep scope :=
  mirror scope reach φ (fun _ => False) not_false

section Copy

variable {reach limit k : Nat} {φ : Nat → Nat} {phrase : Phrase}
  {parse parse' : Phrase → Nat → Parser Tree}

theorem copy_opens {rule : Rule} {n m : Nat} (h : m = φ n) : (copy scope reach φ).opens rule n m :=
  ⟨h, fun _ => not_false⟩

theorem copy_counts {n m : Nat} (h : m = φ n) : (copy scope reach φ).counts n m :=
  ⟨h, not_false⟩

/-- Copied parsers have the same runs, but for the reading of the room. -/
theorem copy_eq {p q : Parser Tree} {c : Cursor} (h : (copy scope reach φ).Keeps p q)
    (hc : c.rest.length ≤ reach) : q c = (p c).mapRooms φ := by
  rcases h.holds ⟨rfl, hc⟩ with hover | hm
  · obtain ⟨step, -, -, hfalse⟩ := hover.step
    exact hfalse.elim
  · exact hm.eq

/-- A parser that goes forward in the text is copied by one that has the same runs. -/
theorem copy_of_eq {p q : Parser Tree} (hf : Forward p) (ht : Travels p)
    (h : ∀ c : Cursor, c.rest.length ≤ reach → q c = (p c).mapRooms φ) :
    (copy scope reach φ).Keeps p q := by
  refine ⟨fun {c d} hshared => ?_, hf⟩
  obtain ⟨rfl, hc⟩ := hshared
  rw [h c hc]
  refine Or.inr ⟨rfl, fun _ _ => not_false, ?_⟩
  cases hp : (p c).result with
  | error e => exact Or.inl ⟨e, rfl, hp⟩
  | ok r =>
      obtain ⟨t, c'⟩ := r
      obtain ⟨hle, hlen⟩ := (ht c t c' hp).bounds
      exact Or.inr ⟨t, c', c', rfl, hp, rfl, by omega⟩

/-- Running out of levels is a copy of itself. -/
theorem exhausted_copy : (copy scope reach φ).Keeps (exhausted : Parser Tree) exhausted :=
  copy_of_eq .exhausted .exhausted fun _ _ => rfl

/-- The parsers of the rules go forward. -/
theorem rule_forward (scope : Scope) (phrase : Phrase) (n : Nat) :
    Forward (rule scope phrase n) :=
  ((copy scope 0 id).rule_keeps (fun _ => copy_counts rfl) (fun _ _ => copy_opens rfl)
    exhausted_copy phrase n).forward

/-- Counting the levels of a rule up instead of down makes a copy of it. -/
theorem rule_copy (phrase : Phrase) {n : Nat} (h : n + k = limit) :
    (copy scope reach (limit - ·)).Keeps (rule scope phrase n) (counted scope limit phrase k) := by
  refine copy_of_eq (rule_forward scope phrase n) (rule_travels scope phrase n) fun c _ => ?_
  rw [counted, show limit - k = n by omega]

/-- Below its limit the parser that counts levels is as the template says. -/
theorem counted_eq_template (hk : k < limit) :
    counted scope limit phrase k = template scope (counted scope limit) phrase k := by
  obtain ⟨n, hn⟩ : ∃ n, n + 1 + k = limit := ⟨limit - (k + 1), by omega⟩
  have h : ∀ phrase reach, (copy scope reach (limit - ·)).Keeps (rule scope phrase (n + 1))
      (counted scope limit phrase k) := fun phrase reach => rule_copy phrase hn
  have h' : ∀ phrase reach, (copy scope reach (limit - ·)).Keeps (rule scope phrase n)
      (counted scope limit phrase (k + 1)) := fun phrase reach => rule_copy phrase (by omega)
  have hcopy : ∀ reach, (copy scope reach (limit - ·)).Keeps (rule scope phrase (n + 1))
      (template scope (counted scope limit) phrase k) := by
    intro reach
    cases phrase with
    | expression =>
        rw [rule_expression_succ]
        exact .within (copy_opens (by omega))
          ((h' .term reach).bind fun left => h' (.moreTerms left) reach)
    | term =>
        rw [rule_term]
        exact .within (copy_opens (by omega))
          ((h .factor reach).bind fun left => h (.moreFactors left) reach)
    | factor =>
        rw [rule_factor_succ]
        have hbase := (h' .expression reach).base (h' .factor reach)
        exact .within (copy_opens (by omega)) (.signed hbase (h' .factor reach))
    | base =>
        rw [rule_base]
        exact (h .expression reach).base (h .factor reach)
    | moreTerms left =>
        rw [rule_moreTerms_succ]
        exact .chain fun op => .fold (copy_counts (by omega)) op (h' .term reach) fun t =>
          h' (.moreTerms t) reach
    | moreFactors left =>
        rw [rule_moreFactors_succ]
        exact .chain fun op => .fold (copy_counts (by omega)) op (h' .factor reach) fun t =>
          h' (.moreFactors t) reach
  funext c
  rw [copy_eq (hcopy c.rest.length) (Nat.le_refl _), counted, show limit - k = n + 1 by omega]

/-- The template takes copies to copies. -/
theorem template_copy
    (h : ∀ phrase, (copy scope reach id).Keeps (parse phrase k) (parse' phrase k))
    (h' : ∀ phrase, (copy scope reach id).Keeps (parse phrase (k + 1)) (parse' phrase (k + 1))) :
    (copy scope reach id).Keeps (template scope parse phrase k)
      (template scope parse' phrase k) := by
  cases phrase with
  | expression => exact .within (copy_opens rfl) ((h' .term).bind fun left => h' (.moreTerms left))
  | term => exact .within (copy_opens rfl) ((h .factor).bind fun left => h (.moreFactors left))
  | factor =>
      have hbase := (h' .expression).base (h' .factor)
      exact .within (copy_opens rfl) (.signed hbase (h' .factor))
  | base => exact (h .expression).base (h .factor)
  | moreTerms left =>
      exact .chain fun op => .fold (copy_counts rfl) op (h' .term) fun t => h' (.moreTerms t)
  | moreFactors left =>
      exact .chain fun op => .fold (copy_counts rfl) op (h' .factor) fun t => h' (.moreFactors t)

theorem counted_forward : Forward (counted scope limit phrase k) :=
  (rule_forward scope phrase _).mapRooms _

theorem counted_travels : Travels (counted scope limit phrase k) :=
  rule_travels scope phrase _

/-- With more room than the levels of the text no room makes a difference. -/
theorem counted_eq_freely {c : Cursor} (h : c.ample + k < limit) :
    counted scope limit phrase k c = freely scope phrase k c :=
  eq_freely fun _ _ hk => counted_eq_template (Nat.lt_of_le_of_lt hk h)

/-- The parser with room for all levels of a text is a parser without a limit. -/
theorem unlimited_freely (scope : Scope) : Unlimited scope (freely scope) := by
  intro phrase k
  funext c
  -- a limit beyond all that can be opened from here on, also with one more level open
  obtain ⟨limit, hlimit⟩ : ∃ limit, limit = c.ample + (k + 1) + 1 := ⟨_, rfl⟩
  have hcopy : ∀ k', k' ≤ k + 1 → ∀ phrase, (copy scope c.rest.length id).Keeps
      (counted scope limit phrase k') (freely scope phrase k') := by
    intro k' hk phrase
    refine copy_of_eq counted_forward counted_travels fun d hd => ?_
    have hlt : d.ample + k' < limit := by
      rw [hlimit, Cursor.ample, Cursor.ample]
      omega
    rw [Run.mapRooms_id, counted_eq_freely hlt]
  have htemplate : (copy scope c.rest.length id).Keeps
      (template scope (counted scope limit) phrase k) (template scope (freely scope) phrase k) :=
    template_copy (hcopy k (Nat.le_succ k)) (hcopy (k + 1) (Nat.le_refl _))
  rw [copy_eq htemplate (Nat.le_refl _), Run.mapRooms_id,
    ← counted_eq_template (by omega), counted_eq_freely (by omega)]

/-- **ONE UNLIMITED PARSER.** There is exactly one parser that counts levels and refuses none. -/
theorem unlimited_iff : Unlimited scope parse ↔ parse = freely scope := by
  constructor
  · intro h
    funext phrase k c
    exact eq_freely fun phrase k' _ => h phrase k'
  · rintro rfl
    exact unlimited_freely scope

end Copy

/-! ## Whole texts -/

/-- A whole text, parsed without a limit. -/
def formulaFreely (scope : Scope) : Parser Tree := freely scope .expression 0 >>= ending

variable {text : List Char}

/-- A whole text with a limit mirrors its parse without one, or it runs out of levels where that
    goes beyond the limit. -/
theorem formula_below (scope : Scope) (limit : Nat) (text : List Char) :
    let r := formula scope limit (.start text)
    let r' := formulaFreely scope (.start text)
    Overrun (limit < ·) r r' ∨
      Mirrored (limit - ·) (limit < ·) (fun _ => Shared text.length) r r' := by
  have hrule : (below scope text.length limit).Keeps (rule scope .expression limit)
      (freely scope .expression 0) :=
    rule_below (fun phrase k _ => unlimited_freely scope phrase k) .expression limit 0 rfl
  have hformula : (below scope text.length limit).Keeps (formula scope limit)
      (formulaFreely scope) := by
    rw [formula_eq]
    exact hrule.bind .ending
  exact hformula.holds ⟨rfl, Nat.le_refl _⟩

/-- With room for all its levels, a text is parsed as without a limit. -/
theorem formulaFreely_eq (scope : Scope) (text : List Char) :
    formulaFreely scope (.start text) =
      (formula scope (Cursor.start text).ample (.start text)).mapRooms
        ((Cursor.start text).ample - ·) := by
  rcases formula_below scope (Cursor.start text).ample text with hover | hm
  · exact absurd hover.exhausts (formula_ample scope text)
  · exact hm.eq

/-- Of an allowed step no more levels are open than two and two for each character before it. -/
theorem Step.Allowed.level_le {limit stop : Nat} {step : Step} (h : step.Allowed limit stop) :
    (step.mapRoom (limit - ·)).level ≤ 2 + 2 * step.place := by
  cases step with
  | opened rule place room =>
      cases rule with
      | term =>
          have h : limit ≤ room + 2 + 2 * place := h
          show limit - room ≤ 2 + 2 * place
          omega
      | expression | factor =>
          have h : limit ≤ room + 1 + 2 * place := h
          show limit - room + 1 ≤ 2 + 2 * place
          omega
  | folding op place room =>
      have h : limit ≤ room + 2 + 2 * place := h
      show limit - room ≤ 2 + 2 * place
      omega
  | _ => exact Nat.zero_le _

/-- No more levels are open than two and two for each character that was read. -/
theorem formulaFreely_level_le : ∀ step ∈ (formulaFreely scope (.start text)).steps,
    step.level ≤ 2 + 2 * step.place := by
  intro step hstep
  rw [formulaFreely_eq] at hstep
  obtain ⟨step, hmem, rfl⟩ := List.mem_map.1 hstep
  rw [step.place_mapRoom]
  exact (formula_allowed scope _ text step hmem).level_le

/-- No step is taken behind the end of the run. -/
theorem formulaFreely_place_le : ∀ step ∈ (formulaFreely scope (.start text)).steps,
    step.place ≤ (formulaFreely scope (.start text)).stop := by
  have hforward : Forward (formula scope (Cursor.start text).ample) :=
    ((copy scope 0 id).formula_keeps (fun _ => copy_counts rfl) (fun _ _ => copy_opens rfl)
      exhausted_copy _).forward
  rw [formulaFreely_eq]
  exact (hforward.mapRooms _ _).2

end Parse

/-! ## Builds -/

/-- The line of a step does not tell of the room. -/
theorem Record.line?_parsing_mapRoom (φ : Nat → Nat) (step : Step) :
    (Record.parsing (step.mapRoom φ)).line? = (Record.parsing step).line? := by
  rw [line?, line?, message?, message?, step.message?_mapRoom]
  rfl

/-- The lines of the log do not tell of the room. -/
theorem Record.lines_parsing_mapRooms (φ : Nat → Nat) (steps : List Step) :
    lines ((steps.map (Step.mapRoom φ)).map .parsing) = lines (steps.map .parsing) := by
  rw [lines, lines, List.map_map, List.filterMap_map, List.filterMap_map]
  exact List.filterMap_congr fun step _ => line?_parsing_mapRoom φ step

namespace Draft

/-- What comes of a draft whose text is parsed in a run. -/
def report (d : Draft) (run : Run Tree) (s : Store) : Report :=
  let log := d.log ++ .building d.source :: run.steps.map .parsing
  match run.result with
  | .error e => ⟨log, .error e⟩
  | .ok (t, _) => ⟨log ++ [.built t s], .ok ⟨d.source, t⟩⟩

/-- A build is what comes of the parse within the limit. -/
theorem build_eq_report (d : Draft) (s : Store) :
    d.build s = d.report (d.parseWithin maxDepth) s := by
  cases h : (d.parseWithin maxDepth).result with
  | error e =>
      rw [build, buildWithin_of_error s h]
      simp only [report, h]
  | ok r =>
      rw [build, buildWithin_of_ok s h]
      simp only [report, h]

/-- What comes of a run that fails is its error. -/
theorem report_error_iff {d : Draft} {r : Run Tree} {s : Store} {e : ParseError} :
    (d.report r s).outcome = .error e ↔ r.result = .error e := by
  obtain ⟨steps, result⟩ := r
  cases result with
  | error e' =>
      show (Except.error e' : Except ParseError Formula) = .error e ↔ Except.error e' = .error e
      rw [Except.error.injEq, Except.error.injEq]
  | ok x => exact ⟨nofun, nofun⟩

/-- Another reading of the rooms makes no difference to what is reported. -/
theorem report_mapRooms (d : Draft) (r : Run Tree) (φ : Nat → Nat) (s : Store) :
    (d.report (r.mapRooms φ) s).outcome = (d.report r s).outcome ∧
      Record.lines (d.report (r.mapRooms φ) s).log = Record.lines (d.report r s).log := by
  obtain ⟨steps, result⟩ := r
  have hlines : ∀ rest, Record.lines (d.log ++ .building d.source ::
      ((steps.map (Step.mapRoom φ)).map .parsing ++ rest)) =
        Record.lines (d.log ++ .building d.source :: (steps.map .parsing ++ rest)) := by
    intro rest
    have hsteps := Record.lines_parsing_mapRooms φ steps
    simp only [Record.lines, List.filterMap_append, List.filterMap_cons] at hsteps ⊢
    rw [hsteps]
  cases result with
  | error e =>
      refine ⟨rfl, ?_⟩
      have hnil := hlines []
      rw [List.append_nil, List.append_nil] at hnil
      exact hnil
  | ok x =>
      refine ⟨rfl, ?_⟩
      have hbuilt := hlines [.built x.1 s]
      rw [← List.cons_append, ← List.append_assoc, ← List.cons_append,
        ← List.append_assoc] at hbuilt
      exact hbuilt

/-- The parse of a draft without a limit. -/
def parseFreely (d : Draft) : Run Tree :=
  formulaFreely d.scope (.start d.source.toList)

/-- The build of a draft whose parse has no limit. -/
def buildFreely (d : Draft) (s : Store) : Report := d.report d.parseFreely s

section Limit

variable {d : Draft} (s : Store)

/-- Where the levels stay within the limit, the limit makes no difference. -/
theorem build_eq_buildFreely (h : ∀ step ∈ d.parseFreely.steps, step.level ≤ maxDepth) :
    (d.build s).outcome = (d.buildFreely s).outcome ∧
      Record.lines (d.build s).log = Record.lines (d.buildFreely s).log := by
  rcases formula_below d.scope maxDepth d.source.toList with hover | hm
  · obtain ⟨step, hmem, -, hlt⟩ := hover.step
    exact absurd (h step hmem) (Nat.not_le_of_lt hlt)
  · have hparse : d.parseFreely = (d.parseWithin maxDepth).mapRooms (maxDepth - ·) := hm.eq
    obtain ⟨houtcome, hlines⟩ := d.report_mapRooms (d.parseWithin maxDepth) (maxDepth - ·) s
    rw [build_eq_report, buildFreely, hparse]
    exact ⟨houtcome.symm, hlines.symm⟩

/-- Where a level goes beyond the limit the build fails: not before the characters read allow for
    that many levels, and not behind the error that comes without a limit. -/
theorem build_error_of_level (h : ∃ step ∈ d.parseFreely.steps, maxDepth < step.level) :
    ∃ found p, (d.build s).outcome = .error (.unexpectedCharacter found p) ∧ 256 ≤ p ∧
      ∀ e, (d.buildFreely s).outcome = .error e → p ≤ e.position := by
  rcases formula_below d.scope maxDepth d.source.toList with hover | hm
  · obtain ⟨found, p, herror, hlast⟩ := hover.exhausts
    obtain ⟨step, hmem, hplace, -⟩ := hover.step
    refine ⟨found, p, report_error_iff.2 herror, ?_, fun e he => ?_⟩
    · have hallowed : 512 ≤ 1 + 2 * p ∧ p ≤ d.source.toList.length :=
        formula_allowed d.scope maxDepth d.source.toList _ (List.mem_of_getLast? hlast)
      omega
    · -- without a limit the run goes on from there, so it does not end before that place
      have hfree : (formulaFreely d.scope (.start d.source.toList)).result = .error e :=
        report_error_iff.1 he
      have hle := formulaFreely_place_le step hmem
      rw [hplace, Run.stop_of_error herror, Run.stop_of_error hfree] at hle
      exact hle
  · obtain ⟨step, hmem, hlt⟩ := h
    exact absurd hlt (hm.levels step hmem)

end Limit

/-- **THE LIMIT ONLY REJECTS.** There is one parser that counts levels and refuses none, and it has
    no more of them open than two and two for each character it has read.  Where it stays within
    the limit, a build comes to what it comes to, with the same log.  Where it does not, the build
    fails, after half as many characters as there are levels, and not behind the place of the
    error that comes without a limit. -/
theorem build_unlimited (d : Draft) (s : Store) :
    (∀ parse, Unlimited d.scope parse ↔ parse = freely d.scope) ∧
      (∀ step ∈ d.parseFreely.steps, step.level ≤ 2 + 2 * step.place) ∧
      ((∀ step ∈ d.parseFreely.steps, step.level ≤ maxDepth) →
        (d.build s).outcome = (d.buildFreely s).outcome ∧
          Record.lines (d.build s).log = Record.lines (d.buildFreely s).log) ∧
      ((∃ step ∈ d.parseFreely.steps, maxDepth < step.level) →
        ∃ found p, (d.build s).outcome = .error (.unexpectedCharacter found p) ∧ 256 ≤ p ∧
          ∀ e, (d.buildFreely s).outcome = .error e → p ≤ e.position) := by
  refine ⟨fun parse => unlimited_iff, ?_, build_eq_buildFreely s, build_error_of_level s⟩
  exact formulaFreely_level_le

end Draft

end LiveArith
