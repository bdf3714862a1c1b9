import LiveArith.Proofs.Language
import LiveArith.Session

/-! # Effects — what a command makes of a session

    Each command has one of a few effects on what the host holds; whatever is proved
    of a step is proved of the effects.  The route:

    * a step has the effect of its command (`effect_of_step`);
    * a cell keeps its value unless it is set (`Effect.get_eq`), a handle its cell
      and a formula its tree unless they are dropped (`Effect.handle_kept`,
      `formulas_get?_run`);
    * the cells of a formula are among those of the draft that was built
      (`derives_cells`), so a command only hands on the cells that somebody has, and
      the one that it makes (`Effect.mentions`). -/

namespace LiveArith

open LiveArith.Grammar

/-! ## Cells -/

/-- The cells in the tree that a phrase goes on from. -/
def Grammar.Phrase.cells : Phrase → List Cell
  | .moreTerms left => left.cells
  | .moreFactors left => left.cells
  | _ => []

/-- The cells that names of the scope were bound to. -/
def Scope.cells (scope : Scope) : List Cell := scope.bindings.map Prod.snd

/-- The cell that a name means is one of the scope. -/
theorem Scope.mem_cells_of_find? {scope : Scope} {name : String} {c : Cell}
    (h : scope.find? name = some c) : c ∈ scope.cells := by
  obtain ⟨front, back, hbindings, -⟩ := List.lookup_eq_some_iff.1 h
  rw [cells, hbindings, List.map_append, List.map_cons]
  exact List.mem_append_right _ (.head _)

/-- Every cell of a tree that was derived was bound to a name. -/
theorem derives_cells {scope : Scope} {phrase : Phrase} {n : Nat} {ts : List Token} {t : Tree}
    (h : Derives scope phrase n ts t) :
    ∀ c ∈ t.cells, c ∈ phrase.cells ∨ c ∈ scope.cells := by
  induction h with
  | expression _ _ ihl iht | term _ _ ihl iht =>
      intro c hc
      rcases iht c hc with hl | hs
      · exact ihl c hl
      · exact Or.inr hs
  | lastTerm | lastFactor => exact fun c hc => Or.inl hc
  | nextTerm _ _ _ ihr iht | nextFactor _ _ _ ihr iht =>
      intro c hc
      rcases iht c hc with hlr | hs
      · rcases List.mem_append.1 hlr with hl | hr
        · exact Or.inl hl
        · exact Or.inr ((ihr c hr).resolve_left List.not_mem_nil)
      · exact Or.inr hs
  | plus _ ih | minus _ ih | call _ _ ih | bare _ ih | group _ ih => exact ih
  | power _ _ ihl ihr =>
      intro c hc
      rcases List.mem_append.1 hc with hl | hr
      · exact ihl c hl
      · exact ihr c hr
  | number _ => exact fun c hc => nomatch hc
  | name hm =>
      intro c hc
      obtain rfl := List.mem_singleton.1 hc
      exact Or.inr (Scope.mem_cells_of_find? (Scope.find?_of_meaning? hm))

/-! ## The effect of a command -/

/-- The value of the cell that the command makes, if it makes one. -/
def Command.initial? : Command → Option Float
  | .new v => some v
  | .newDefault => some 0.0
  | _ => none

/-- The command asks for something and leaves all that the host holds as it is. -/
def Command.looks : Command → Bool
  | .get _ => true
  | .same _ _ => true
  | .display _ => true
  | .source _ => true
  | .eval _ => true
  | .evalAll => true
  | .inspect _ => true
  | .equal _ _ => true
  | _ => false

namespace Session

variable {s s' : Session} {cmd : Command} {answer : Answer}

/-- What a command makes of a session. -/
inductive Effect (s : Session) : Command → Session → Prop where
  | look {cmd : Command} : cmd.looks = true → Effect s cmd s
  | make {cmd : Command} {v : Float} : cmd.initial? = some v →
      Effect s cmd { s with
        store := (s.store.alloc v).2, handles := Slots.add s.handles s.store.fresh }
  | clone {h : Nat} {c : Cell} : Slots.get? s.handles h = some c →
      Effect s (.clone h) { s with handles := Slots.add s.handles c }
  | drop (h : Nat) : Effect s (.drop h) { s with handles := Slots.remove s.handles h }
  | set {h : Nat} {c : Cell} (v : Float) : Slots.get? s.handles h = some c →
      Effect s (.set h v) { s with store := s.store.set c v }
  | draft (source : String) :
      Effect s (.draft source) { s with drafts := Slots.add s.drafts (.ofSource source) }
  | register {n h : Nat} {d : Draft} {c : Cell} (name : String) :
      Slots.get? s.drafts n = some d → Slots.get? s.handles h = some c →
      Effect s (.register n name h)
        { s with drafts := s.drafts.set n (some (d.register s.store name c)) }
  | refuse {n : Nat} {d : Draft} {e : ParseError} : Slots.get? s.drafts n = some d →
      (d.build s.store).outcome = .error e →
      Effect s (.build n) { s with drafts := Slots.remove s.drafts n }
  | build {n : Nat} {d : Draft} {f : Formula} : Slots.get? s.drafts n = some d →
      (d.build s.store).outcome = .ok f →
      Effect s (.build n) { s with
        drafts := Slots.remove s.drafts n, formulas := Slots.add s.formulas f }
  | copy {n : Nat} {f : Formula} : Slots.get? s.formulas n = some f →
      Effect s (.copy n) { s with formulas := Slots.add s.formulas f }
  | dropFormula (n : Nat) :
      Effect s (.dropFormula n) { s with formulas := Slots.remove s.formulas n }

/-- A command that names one thing is carried out only if the thing is there. -/
theorem exists_of_bind {α : Type} {o : Option α} {f : α → Session × Answer}
    (h : (o.bind fun a => some (f a)) = some (s', answer)) : ∃ a, o = some a ∧ s' = (f a).1 := by
  obtain ⟨a, ha, hf⟩ := Option.bind_eq_some_iff.1 h
  exact ⟨a, ha, (congrArg Prod.fst (Option.some.inj hf)).symm⟩

/-- A build that succeeds stores the formula that it answers. -/
theorem step_build_of_ok {n : Nat} {d : Draft} {f : Formula}
    (hd : Slots.get? s.drafts n = some d) (hf : (d.build s.store).outcome = .ok f) :
    s.step (.build n) =
      some ({ s with drafts := Slots.remove s.drafts n, formulas := Slots.add s.formulas f },
        .built s.formulas.length f (f.eval s.store)) := by
  rw [step, hd]
  simp only [Option.bind_eq_bind, Option.bind_some, hf]
  rfl

/-- A build that fails stores nothing. -/
theorem step_build_of_error {n : Nat} {d : Draft} {e : ParseError}
    (hd : Slots.get? s.drafts n = some d) (he : (d.build s.store).outcome = .error e) :
    s.step (.build n) = some ({ s with drafts := Slots.remove s.drafts n }, .failed e) := by
  rw [step, hd]
  simp only [Option.bind_eq_bind, Option.bind_some, he]
  rfl

/-- Every step has the effect of its command. -/
theorem effect_of_step (h : s.step cmd = some (s', answer)) : s.Effect cmd s' := by
  cases cmd with
  | new _ | newDefault =>
      obtain ⟨rfl, -⟩ := Prod.mk.inj (Option.some.inj h)
      exact .make rfl
  | clone handle =>
      obtain ⟨c, hc, rfl⟩ := exists_of_bind h
      exact .clone hc
  | drop handle =>
      obtain ⟨c, -, rfl⟩ := exists_of_bind h
      exact .drop handle
  | set handle v =>
      obtain ⟨c, hc, rfl⟩ := exists_of_bind h
      exact .set v hc
  | get _ | display _ | source _ | eval _ | inspect _ =>
      obtain ⟨a, -, rfl⟩ := exists_of_bind h
      exact .look rfl
  | same _ _ | equal _ _ =>
      obtain ⟨a, -, h⟩ := Option.bind_eq_some_iff.1 h
      obtain ⟨b, -, rfl⟩ := exists_of_bind h
      exact .look rfl
  | draft source =>
      obtain ⟨rfl, -⟩ := Prod.mk.inj (Option.some.inj h)
      exact .draft source
  | register n name handle =>
      obtain ⟨d, hd, h⟩ := Option.bind_eq_some_iff.1 h
      obtain ⟨c, hc, rfl⟩ := exists_of_bind h
      exact .register name hd hc
  | build n =>
      obtain ⟨d, hd, -⟩ := Option.bind_eq_some_iff.1 h
      cases ho : (d.build s.store).outcome with
      | error e =>
          rw [step_build_of_error hd ho] at h
          obtain ⟨rfl, -⟩ := Prod.mk.inj (Option.some.inj h)
          exact .refuse hd ho
      | ok f =>
          rw [step_build_of_ok hd ho] at h
          obtain ⟨rfl, -⟩ := Prod.mk.inj (Option.some.inj h)
          exact .build hd ho
  | evalAll =>
      obtain ⟨rfl, -⟩ := Prod.mk.inj (Option.some.inj h)
      exact .look rfl
  | copy n =>
      obtain ⟨f, hf, rfl⟩ := exists_of_bind h
      exact .copy hf
  | dropFormula n =>
      obtain ⟨f, -, rfl⟩ := exists_of_bind h
      exact .dropFormula n

/-! ## Runs -/

section Runs

variable {answers : List Answer}

/-- A run is a step and a run from where the step came to. -/
theorem run_cons_eq_some {rest : List Command} :
    s.run (cmd :: rest) = some (s', answers) ↔ ∃ s₁ a told,
      s.step cmd = some (s₁, a) ∧ s₁.run rest = some (s', told) ∧ answers = a :: told := by
  constructor
  · intro h
    obtain ⟨⟨s₁, a⟩, hstep, h⟩ := Option.bind_eq_some_iff.1 h
    obtain ⟨⟨s₂, told⟩, hrest, h⟩ := Option.bind_eq_some_iff.1 h
    obtain ⟨rfl, rfl⟩ := Prod.mk.inj (Option.some.inj h)
    exact ⟨s₁, a, told, hstep, hrest, rfl⟩
  · rintro ⟨s₁, a, told, hstep, hrest, rfl⟩
    exact Option.bind_eq_some_iff.2
      ⟨(s₁, a), hstep, Option.bind_eq_some_iff.2 ⟨(s', told), hrest, rfl⟩⟩

/-- A run has at every moment come to a session from which it goes on. -/
theorem exists_run_of_append {before later : List Command}
    (h : s.run (before ++ later) = some (s', answers)) : ∃ s₁ told rest,
      s.run before = some (s₁, told) ∧ s₁.run later = some (s', rest) ∧ answers = told ++ rest := by
  induction before generalizing s answers with
  | nil => exact ⟨s, [], answers, rfl, h, rfl⟩
  | cons cmd before ih =>
      obtain ⟨s₁, a, told, hstep, hrun, rfl⟩ := run_cons_eq_some.1 h
      obtain ⟨s₂, told, rest, hbefore, hlater, rfl⟩ := ih hrun
      have hfirst := run_cons_eq_some.2 ⟨s₁, a, told, hstep, hbefore, rfl⟩
      exact ⟨s₂, a :: told, rest, hfirst, hlater, rfl⟩

end Runs

/-! ## What an effect leaves alone -/

section Frames

variable {c : Cell} {n h : Nat}

/-- No cell is ever lost. -/
theorem Effect.holds (e : s.Effect cmd s') (hc : s.store.Holds c) : s'.store.Holds c := by
  cases e with
  | make _ => exact Nat.lt_of_lt_of_eq (Nat.lt_succ_of_lt hc) (s.store.size_alloc _).symm
  | set v _ => exact Nat.lt_of_lt_of_eq hc (s.store.size_set _ v).symm
  | _ => exact hc

/-- **FRAME.** A cell keeps its value unless it is set through a handle. -/
theorem Effect.get_eq (e : s.Effect cmd s') (hc : s.store.Holds c) :
    s'.store.get c = s.store.get c ∨
      ∃ h v, cmd = .set h v ∧ Slots.get? s.handles h = some c := by
  cases e with
  | make _ => exact Or.inl (s.store.get_alloc_of_holds _ hc)
  | @set h d v hd =>
      by_cases hcd : c = d
      · exact Or.inr ⟨h, v, rfl, hcd ▸ hd⟩
      · exact Or.inl (s.store.get_set_of_ne v hcd)
  | _ => exact Or.inl rfl

/-- A handle stays with its cell until it is dropped. -/
theorem Effect.handle_kept (e : s.Effect cmd s') (hc : Slots.get? s.handles h = some c) :
    Slots.get? s'.handles h = some c ∨ cmd = .drop h := by
  cases e with
  | make _ => exact Or.inl ((Slots.get?_add_of_lt _ (Slots.lt_of_get? hc)).trans hc)
  | clone _ => exact Or.inl ((Slots.get?_add_of_lt _ (Slots.lt_of_get? hc)).trans hc)
  | drop h' =>
      by_cases hh : h = h'
      · exact Or.inr (by rw [hh])
      · exact Or.inl ((Slots.get?_remove_of_ne hh).trans hc)
  | _ => exact Or.inl hc

/-- The number of a formula stands for it until it is dropped, and then for nothing. -/
theorem Effect.formulas_get? (e : s.Effect cmd s') (hn : n < s.formulas.length) :
    n < s'.formulas.length ∧ (Slots.get? s'.formulas n = Slots.get? s.formulas n ∨
      Slots.get? s'.formulas n = none ∧ cmd = .dropFormula n) := by
  have hadd : ∀ f, n < (Slots.add s.formulas f).length := by
    intro f
    rw [Slots.add, List.length_append]
    exact Nat.lt_add_right _ hn
  cases e with
  | build _ _ => exact ⟨hadd _, Or.inl (Slots.get?_add_of_lt _ hn)⟩
  | copy _ => exact ⟨hadd _, Or.inl (Slots.get?_add_of_lt _ hn)⟩
  | dropFormula m =>
      refine ⟨by rw [Slots.remove, List.length_set]; exact hn, ?_⟩
      by_cases hm : n = m
      · subst hm
        exact Or.inr ⟨Slots.get?_remove_self _ _, rfl⟩
      · exact Or.inl (Slots.get?_remove_of_ne hm)
  | _ => exact ⟨hn, Or.inl rfl⟩

/-- **TREES DO NOT CHANGE.** In any run the number of a formula stands for it until it is
    dropped, and then for nothing. -/
theorem formulas_get?_run {cmds : List Command} {answers : List Answer}
    (hr : s.run cmds = some (s', answers)) (hn : n < s.formulas.length) :
    Slots.get? s'.formulas n = Slots.get? s.formulas n ∨
      Slots.get? s'.formulas n = none ∧ .dropFormula n ∈ cmds := by
  induction cmds generalizing s answers with
  | nil =>
      obtain ⟨rfl, -⟩ := Prod.mk.inj (Option.some.inj hr)
      exact Or.inl rfl
  | cons cmd rest ih =>
      obtain ⟨s₁, a, told, hstep, hrest, -⟩ := run_cons_eq_some.1 hr
      obtain ⟨hn₁, hkept⟩ := (effect_of_step hstep).formulas_get? hn
      rcases ih hrest hn₁ with hlater | ⟨hgone, hmem⟩
      · rcases hkept with hkept | ⟨hgone, rfl⟩
        · exact Or.inl (hlater.trans hkept)
        · exact Or.inr ⟨hlater.trans hgone, .head _⟩
      · exact Or.inr ⟨hgone, .tail _ hmem⟩

end Frames

/-! ## Who has a cell -/

/-- Somebody has the cell. -/
inductive Mentions (s : Session) (c : Cell) : Prop where
  | handle : some c ∈ s.handles → Mentions s c
  | draft (d : Draft) : some d ∈ s.drafts → c ∈ d.scope.cells → Mentions s c
  | formula (f : Formula) : some f ∈ s.formulas → c ∈ f.root.cells → Mentions s c

/-- At first nobody has a cell. -/
theorem mentions_empty (c : Cell) : ¬ empty.Mentions c := by
  intro h
  cases h with
  | handle h => exact nomatch h
  | draft d h => exact nomatch h
  | formula f h => exact nomatch h

section Mentions

variable {c : Cell}

/-- A handle has its cell from another handle, or the cell is new. -/
theorem Effect.mentions_of_handle (e : s.Effect cmd s') (hc : some c ∈ s'.handles) :
    s.Mentions c ∨ c = s.store.fresh ∧ s'.store.Holds c := by
  cases e with
  | make _ =>
      rcases Slots.mem_add.1 hc with hc | rfl
      · exact Or.inl (.handle hc)
      · exact Or.inr ⟨rfl, Nat.lt_of_lt_of_eq (Nat.lt_succ_self _) (s.store.size_alloc _).symm⟩
  | clone hd =>
      rcases Slots.mem_add.1 hc with hc | rfl
      · exact Or.inl (.handle hc)
      · exact Or.inl (.handle (Slots.mem_of_get? hd))
  | drop h => exact Or.inl (.handle (Slots.mem_of_mem_remove hc))
  | _ => exact Or.inl (.handle hc)

/-- A draft has its cells from handles. -/
theorem Effect.mentions_of_draft (e : s.Effect cmd s') {d : Draft} (hd : some d ∈ s'.drafts)
    (hc : c ∈ d.scope.cells) : s.Mentions c := by
  cases e with
  | draft source =>
      rcases Slots.mem_add.1 hd with hd | rfl
      · exact .draft d hd hc
      · exact nomatch hc
  | register name hd₀ hc₀ =>
      rcases List.mem_or_eq_of_mem_set hd with hd | hd
      · exact .draft d hd hc
      · obtain rfl := Option.some.inj hd
        rcases List.mem_cons.1 hc with rfl | hc
        · exact .handle (Slots.mem_of_get? hc₀)
        · exact .draft _ (Slots.mem_of_get? hd₀) hc
  | refuse _ _ => exact .draft d (Slots.mem_of_mem_remove hd) hc
  | build _ _ => exact .draft d (Slots.mem_of_mem_remove hd) hc
  | _ => exact .draft d hd hc

/-- A formula has its cells from a draft or from another formula. -/
theorem Effect.mentions_of_formula (e : s.Effect cmd s') {f : Formula} (hf : some f ∈ s'.formulas)
    (hc : c ∈ f.root.cells) : s.Mentions c := by
  cases e with
  | build hd ho =>
      rcases Slots.mem_add.1 hf with hf | rfl
      · exact .formula f hf hc
      · obtain ⟨-, hderives⟩ := (Draft.buildWithin_eq_ok_iff s.store f).1 ho
        exact .draft _ (Slots.mem_of_get? hd)
          ((derives_cells hderives c hc).resolve_left List.not_mem_nil)
  | copy hf₀ =>
      rcases Slots.mem_add.1 hf with hf | rfl
      · exact .formula f hf hc
      · exact .formula f (Slots.mem_of_get? hf₀) hc
  | dropFormula n => exact .formula f (Slots.mem_of_mem_remove hf) hc
  | _ => exact .formula f hf hc

/-- A command hands cells on, and the cell that it makes. -/
theorem Effect.mentions (e : s.Effect cmd s') (hc : s'.Mentions c) :
    s.Mentions c ∨ c = s.store.fresh ∧ s'.store.Holds c := by
  cases hc with
  | handle hc => exact e.mentions_of_handle hc
  | draft d hd hc => exact Or.inl (e.mentions_of_draft hd hc)
  | formula f hf hc => exact Or.inl (e.mentions_of_formula hf hc)

end Mentions

end Session

end LiveArith
