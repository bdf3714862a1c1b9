import LiveArith.Chronicle
import LiveArith.Proofs.Effects

/-! # Sharing — a run of a host against its history

    Handles, drafts and formulas share cells.  The history of the commands says of each
    handle which cell it is of, of each cell what it was set to, and of each draft
    and formula what it was made from (`Chronicle`).  The route:

    * a session that keeps to its history keeps to it after a command
      (`Tracks.effect`), and so after a run (`Tracks.run`);
    * what such a session answers, and what a command may change of it, is what the
      history says (`Tracks.faithful`). -/

namespace LiveArith

/-! ## What drafts and formulas are made from -/

namespace Draft

/-- The recipe of a draft binds its names to its cells. -/
theorem scope_draft_recipe (d : Draft) : d.recipe.draft.scope = d.scope := by
  show Scope.mk ((d.scope.bindings.map (Prod.map id Cell.index)).map (Prod.map id Cell.mk)) = _
  rw [List.map_map]
  exact congrArg Scope.mk (List.map_id _)

/-- What a draft builds to is a matter of its recipe, whatever the cells hold and whatever was
    logged. -/
theorem formula?_recipe (d : Draft) (s : Store) :
    d.recipe.formula? = (d.build s).outcome.toOption := by
  refine Option.ext fun f => ?_
  rw [Recipe.formula?, Report.toOption_outcome, Report.toOption_outcome, build, build,
    buildWithin_eq_ok_iff, buildWithin_eq_ok_iff, scope_draft_recipe]
  rfl

end Draft

namespace Chronicle

variable {past : Chronicle} {cmd : Command}

/-- A command that only looks is no part of the history. -/
theorem note_of_looks (h : cmd.looks = true) : past.note cmd = past := by
  cases cmd with
  | get _ | same _ _ | display _ | source _ | eval _ | evalAll | inspect _ | equal _ _ => rfl
  | _ => exact nomatch h

/-- A command that makes a cell makes one in the history. -/
theorem note_of_initial? {v : Float} (h : cmd.initial? = some v) :
    past.note cmd = past.make v := by
  cases cmd with
  | new _ | newDefault =>
      obtain rfl := Option.some.inj h
      rfl
  | _ => exact nomatch h

end Chronicle

/-! ## Keeping to a history -/

namespace Session

variable {s s' : Session} {cmd : Command} {past : Chronicle}

/-- The session keeps to the history: its handles are of the cells that the history says, the
    cells hold what they were set to last, drafts and formulas are what comes of what they were
    made from, and nobody has a cell that was not made. -/
structure Tracks (s : Session) (past : Chronicle) : Prop where
  origins : s.handles.map (Option.map Cell.index) = past.origins
  made : s.store.size = past.made
  last : ∀ c, s.store.Holds c → past.last? c.index = some (s.store.get c)
  drafts : s.drafts.map (Option.map Draft.recipe) = past.drafts
  formulas : s.formulas = past.formulas.map (·.bind Recipe.formula?)
  held : ∀ c, s.Mentions c → s.store.Holds c

/-- At the start nothing was made, and the history says so. -/
theorem tracks_empty : Tracks empty .empty where
  origins := rfl
  made := rfl
  last := fun _ h => absurd h (Nat.not_lt_zero _)
  drafts := rfl
  formulas := rfl
  held := fun c h => absurd h (mentions_empty c)

namespace Tracks

/-- The history says of each handle which cell it is of. -/
theorem get?_origins (t : s.Tracks past) (h : Nat) :
    Slots.get? past.origins h = (Slots.get? s.handles h).map Cell.index := by
  rw [← t.origins, Slots.get?_map]

/-- The history says of each draft its text and its names. -/
theorem get?_drafts (t : s.Tracks past) (n : Nat) :
    Slots.get? past.drafts n = (Slots.get? s.drafts n).map Draft.recipe := by
  rw [← t.drafts, Slots.get?_map]

/-- The history says of each formula what it was made from. -/
theorem get?_formulas (t : s.Tracks past) (n : Nat) :
    Slots.get? s.formulas n = past.formula? n := by
  rw [t.formulas, Slots.get?, Chronicle.formula?, Slots.get?, List.getElem?_map]
  cases past.formulas[n]? with
  | none => rfl
  | some made => rfl

/-- The store after a cell was set holds what the history says. -/
theorem last_set (t : s.Tracks past) {c : Cell} (hc : s.store.Holds c) (v : Float) :
    ∀ d, s.store.Holds d →
      (past.write c.index v).last? d.index = some ((s.store.set c v).get d) := by
  intro d hd
  by_cases hdc : d = c
  · subst hdc
    rw [Chronicle.last?_write_self, s.store.get_set_self d v hd]
  · have hindex : d.index ≠ c.index := fun e => hdc (Cell.eq_of_index e)
    rw [Chronicle.last?_write_of_ne v hindex, s.store.get_set_of_ne v hdc]
    exact t.last d hd

/-- The store with a new cell holds what the history says. -/
theorem last_make (t : s.Tracks past) (v : Float) :
    ∀ d, (s.store.alloc v).2.Holds d →
      (past.make v).last? d.index = some ((s.store.alloc v).2.get d) := by
  intro d hd
  show (past.write past.made v).last? d.index = _
  by_cases hdc : d = s.store.fresh
  · subst hdc
    rw [s.store.get_alloc_fresh, ← t.made]
    exact Chronicle.last?_write_self past s.store.size v
  · have hindex : d.index ≠ past.made := by
      rw [← t.made]
      exact fun e => hdc (Cell.eq_of_index e)
    rw [Store.Holds, Store.size_alloc] at hd
    have hold : s.store.Holds d := Nat.lt_of_le_of_ne (Nat.le_of_lt_succ hd) (t.made ▸ hindex)
    rw [Chronicle.last?_write_of_ne v hindex, s.store.get_alloc_of_holds v hold]
    exact t.last d hold

/-- A draft that is built is gone from the history as well. -/
theorem drafts_remove (t : s.Tracks past) (n : Nat) :
    (Slots.remove s.drafts n).map (Option.map Draft.recipe) = Slots.remove past.drafts n := by
  rw [Slots.map_remove, t.drafts]

/-- A registration binds the name to the cell of the handle in the history as well. -/
theorem note_register (t : s.Tracks past) {n h : Nat} {d : Draft} {c : Cell} (name : String)
    (hd : Slots.get? s.drafts n = some d) (hc : Slots.get? s.handles h = some c) :
    past.note (.register n name h) =
      { past with drafts := past.drafts.set n (some (d.recipe.bind name c.index)) } := by
  rw [Chronicle.note, t.get?_drafts, t.get?_origins, hd, hc]
  rfl

/-- A build is noted with the recipe of its draft. -/
theorem note_build (t : s.Tracks past) {n : Nat} {d : Draft}
    (hd : Slots.get? s.drafts n = some d) : past.note (.build n) = past.build n d.recipe := by
  rw [Chronicle.note, t.get?_drafts, hd]
  rfl

/-- **ONE STEP.** A session that keeps to its history keeps to it after a command. -/
theorem effect (t : s.Tracks past) (e : s.Effect cmd s') : s'.Tracks (past.note cmd) := by
  have hheld : ∀ c, s'.Mentions c → s'.store.Holds c := by
    intro c hc
    rcases e.mentions hc with hc | ⟨-, hc⟩
    · exact e.holds (t.held c hc)
    · exact hc
  cases e with
  | look hl =>
      rw [Chronicle.note_of_looks hl]
      exact t
  | @make _ v hv =>
      rw [Chronicle.note_of_initial? hv]
      refine ⟨?_, ?_, t.last_make v, t.drafts, t.formulas, hheld⟩
      · show (Slots.add s.handles s.store.fresh).map (Option.map Cell.index) =
          Slots.add past.origins past.made
        rw [Slots.map_add, t.origins, ← t.made]
        rfl
      · show (s.store.alloc v).2.size = past.made + 1
        rw [Store.size_alloc, t.made]
  | @clone h c hc =>
      refine ⟨?_, t.made, t.last, t.drafts, t.formulas, hheld⟩
      show (Slots.add s.handles c).map (Option.map Cell.index)
        = past.origins ++ [Slots.get? past.origins h]
      rw [Slots.map_add, t.get?_origins, hc, t.origins]
      rfl
  | drop h =>
      refine ⟨?_, t.made, t.last, t.drafts, t.formulas, hheld⟩
      show (Slots.remove s.handles h).map (Option.map Cell.index) = Slots.remove past.origins h
      rw [Slots.map_remove, t.origins]
  | @set h c v hc =>
      have hwrite : past.note (.set h v) = past.write c.index v := by
        rw [Chronicle.note, t.get?_origins, hc]
        rfl
      have hc' : s.store.Holds c := t.held c (.handle (Slots.mem_of_get? hc))
      rw [hwrite]
      refine ⟨t.origins, (s.store.size_set c v).trans t.made, fun d hd => ?_, t.drafts, t.formulas,
        hheld⟩
      exact t.last_set hc' v d (Nat.lt_of_lt_of_eq hd (s.store.size_set c v))
  | draft source =>
      refine ⟨t.origins, t.made, t.last, ?_, t.formulas, hheld⟩
      show (Slots.add s.drafts (.ofSource source)).map (Option.map Draft.recipe) =
        Slots.add past.drafts ⟨source, []⟩
      rw [Slots.map_add, t.drafts]
      rfl
  | @register n h d c name hd hc =>
      rw [t.note_register name hd hc]
      refine ⟨t.origins, t.made, t.last, ?_, t.formulas, hheld⟩
      show (s.drafts.set n _).map (Option.map Draft.recipe) = past.drafts.set n _
      rw [List.map_set, t.drafts]
      rfl
  | @refuse n d e hd he =>
      have hformula : d.recipe.formula? = none := by rw [d.formula?_recipe s.store, he]; rfl
      rw [t.note_build hd, Chronicle.build, hformula]
      exact ⟨t.origins, t.made, t.last, t.drafts_remove n, t.formulas, hheld⟩
  | @build n d f hd hf =>
      have hformula : d.recipe.formula? = some f := by rw [d.formula?_recipe s.store, hf]; rfl
      rw [t.note_build hd, Chronicle.build, hformula]
      refine ⟨t.origins, t.made, t.last, t.drafts_remove n, ?_, hheld⟩
      show Slots.add s.formulas f =
        (Slots.add past.formulas d.recipe).map (·.bind Recipe.formula?)
      rw [Slots.add, Slots.add, List.map_append, t.formulas, List.map_singleton,
        Option.bind_some, hformula]
  | @copy n f hf =>
      refine ⟨t.origins, t.made, t.last, t.drafts, ?_, hheld⟩
      rw [t.get?_formulas] at hf
      show Slots.add s.formulas f =
        (past.formulas ++ [Slots.get? past.formulas n]).map (·.bind Recipe.formula?)
      rw [Slots.add, List.map_append, t.formulas, List.map_singleton]
      exact congrArg (fun o => _ ++ [o]) hf.symm
  | dropFormula n =>
      refine ⟨t.origins, t.made, t.last, t.drafts, ?_, hheld⟩
      show Slots.remove s.formulas n =
        (Slots.remove past.formulas n).map (·.bind Recipe.formula?)
      rw [Slots.remove, Slots.remove, List.map_set, t.formulas]
      rfl

/-- **ANY RUN.** A session that keeps to its history keeps to it after a run. -/
theorem run (t : s.Tracks past) {cmds : List Command} {answers : List Answer}
    (h : s.run cmds = some (s', answers)) : s'.Tracks (cmds.foldl Chronicle.note past) := by
  induction cmds generalizing s past answers with
  | nil =>
      obtain ⟨rfl, -⟩ := Prod.mk.inj (Option.some.inj h)
      exact t
  | cons cmd rest ih =>
      obtain ⟨s₁, a, told, hstep, hrest, -⟩ := run_cons_eq_some.1 h
      exact ih (t.effect (effect_of_step hstep)) hrest

/-- A handle is of the cell that the history says. -/
theorem cell_of_origin (t : s.Tracks past) {h o : Nat} (ho : Slots.get? past.origins h = some o) :
    Slots.get? s.handles h = some ⟨o⟩ := by
  rw [t.get?_origins] at ho
  obtain ⟨c, hc, rfl⟩ := Option.map_eq_some_iff.1 ho
  exact hc

/-- A cell that anyone has holds what it was set to last. -/
theorem last_of_mentions (t : s.Tracks past) {c : Cell} (hc : s.Mentions c) :
    past.last? c.index = some (s.store.get c) :=
  t.last c (t.held c hc)

/-- The cell of a handle holds what it was set to last. -/
theorem last_of_origin (t : s.Tracks past) {h o : Nat}
    (ho : Slots.get? past.origins h = some o) : past.last? o = some (s.store.get ⟨o⟩) :=
  t.last_of_mentions (.handle (Slots.mem_of_get? (t.cell_of_origin ho)))

/-- A formula over cells that somebody has is worth what it is with each cell as it was set
    last. -/
theorem eval_eq (t : s.Tracks past) {f : Formula} (hf : ∀ c ∈ f.root.cells, s.Mentions c) :
    f.eval s.store = f.root.eval past.read :=
  Tree.eval_congr fun c hc => (Chronicle.read_of_last? (t.last_of_mentions (hf c hc))).symm

/-- Handles read what the history says. -/
theorem readings_eq (t : s.Tracks past) : s.readings = past.readings := by
  rw [Chronicle.readings, ← t.origins, List.map_map, readings]
  refine List.map_congr_left fun o ho => ?_
  cases o with
  | none => rfl
  | some c => exact (t.last_of_mentions (.handle ho)).symm

/-- The values of the formulas are those that the history says. -/
theorem formulaValues_eq (t : s.Tracks past) : s.formulaValues = past.formulaValues := by
  have hvalues : s.formulaValues = s.formulas.map (Option.map (·.root.eval past.read)) := by
    refine List.map_congr_left fun o ho => ?_
    cases o with
    | none => rfl
    | some f => exact congrArg some (t.eval_eq fun c hc => .formula f ho hc)
  rw [hvalues, t.formulas, List.map_map]
  rfl

end Tracks

/-! ## What a host sees -/

theorem step_of_initial? {v : Float} (h : cmd.initial? = some v) :
    s.step cmd = some (s.newCell v) := by
  cases cmd with
  | new _ | newDefault =>
      obtain rfl := Option.some.inj h
      rfl
  | _ => exact nomatch h

/-- A new cell holds its initial value. -/
theorem newCell_eq (s : Session) (v : Float) :
    s.newCell v = ({ s with
      store := (s.store.alloc v).2, handles := Slots.add s.handles s.store.fresh },
      .handle s.handles.length v) :=
  congrArg (fun w => (_, Answer.handle _ w)) (s.store.get_alloc_fresh v)

/-- The session shows what the history says. -/
structure Faithful (s : Session) (past : Chronicle) : Prop where
  /-- A command is refused only if it names what is not there. -/
  accepts : ∀ cmd, (s.step cmd).isSome = past.admits cmd
  /-- A handle reads what its cell was set to last, through whichever handle. -/
  get : ∀ h o, Slots.get? past.origins h = some o →
    ∃ v, past.last? o = some v ∧ s.step (.get h) = some (s, .value v)
  readings : s.readings = past.readings
  /-- A handle is written out as the value that it reads. -/
  display : ∀ h o, Slots.get? past.origins h = some o → ∃ v, past.last? o = some v ∧
    s.step (.display h) = some (s, .texts (NumberText.display {} v) (describeCell v))
  /-- A clone is of the cell of its handle, and reads what that reads. -/
  clone : ∀ h o, Slots.get? past.origins h = some o → ∃ v, past.last? o = some v ∧
    s.step (.clone h) = some ({ s with handles := Slots.add s.handles ⟨o⟩ },
      .handle s.handles.length v)
  /-- After a set all handles of the cell read the new value, and the others what they read. -/
  set : ∀ h o v, Slots.get? past.origins h = some o →
    ∃ s', s.step (.set h v) = some (s', .values (past.write o v).readings)
  /-- A formula has the value of its tree with each cell as it was set last, whether or not
      there is a handle of the cell. -/
  eval : ∀ n f, Slots.get? s.formulas n = some f →
    (∀ c ∈ f.root.cells, ∃ v, past.last? c.index = some v) ∧
      s.step (.eval n) = some (s, .evaluated (f.root.eval past.read) (f.root.eval past.read))
  evalAll : s.step .evalAll = some (s, .values past.formulaValues)
  /-- A draft has the text it was made of, and its names are bound to the cells of the handles
      they were registered with. -/
  draft : ∀ n, (Slots.get? s.drafts n).map Draft.recipe = Slots.get? past.drafts n
  /-- A formula is what its text built to with the names as they were bound then, and a copy is
      what its original is. -/
  formula : ∀ n, Slots.get? s.formulas n = past.formula? n
  /-- A registered name is bound to the cell of the handle, not to what the cell holds. -/
  register : ∀ n name h d c, Slots.get? s.drafts n = some d → Slots.get? s.handles h = some c →
    s.step (.register n name h) =
      some ({ s with drafts := s.drafts.set n (some (d.register s.store name c)) }, .done)
  /-- A build that succeeds answers its formula with its value, and stores the same formula. -/
  build : ∀ n d f, Slots.get? s.drafts n = some d → (d.build s.store).outcome = .ok f →
    s.step (.build n) =
      some ({ s with drafts := Slots.remove s.drafts n, formulas := Slots.add s.formulas f },
        .built s.formulas.length f (f.root.eval past.read))
  /-- A build that fails answers its error, and stores nothing. -/
  refuse : ∀ n d e, Slots.get? s.drafts n = some d → (d.build s.store).outcome = .error e →
    s.step (.build n) = some ({ s with drafts := Slots.remove s.drafts n }, .failed e)
  /-- A copy is the same formula: it has the tree and the cells of its original. -/
  copy : ∀ n f, Slots.get? s.formulas n = some f →
    s.step (.copy n) = some ({ s with formulas := Slots.add s.formulas f },
      .copied s.formulas.length (f.root == f.root) f (f.describe s.store))
  /-- A formula stays what it is until it is dropped. -/
  kept : ∀ n f, Slots.get? s.formulas n = some f → ∀ later s' answers,
    s.run later = some (s', answers) →
      Slots.get? s'.formulas n = some f ∨
        Slots.get? s'.formulas n = none ∧ .dropFormula n ∈ later
  /-- A new cell is none that a handle, a draft or a formula has. -/
  fresh : ∀ cmd v, cmd.initial? = some v → ∃ s' c,
    s.step cmd = some (s', .handle s.handles.length v) ∧
      Slots.get? s'.handles s.handles.length = some c ∧ ¬ s.Mentions c
  /-- The cell of a handle is the one that was made for the handle it was cloned from. -/
  cell : ∀ h, Slots.get? s.handles h = (Slots.get? past.origins h).map Cell.mk
  /-- Two handles are the same exactly if they come from one that a cell was made for. -/
  same : ∀ a b o o', Slots.get? past.origins a = some o → Slots.get? past.origins b = some o' →
    s.step (.same a b) = some (s, .same (o == o'))
  /-- A handle reads as before unless it is dropped or its cell is set. -/
  handle_frame : ∀ cmd s' answer, s.step cmd = some (s', answer) →
    ∀ h v, Slots.get? s.readings h = some v →
      Slots.get? s'.readings h = some v ∨ cmd = .drop h ∨
        ∃ h' w, cmd = .set h' w ∧ Slots.get? s.handles h' = Slots.get? s.handles h
  /-- A formula has its value as before unless it is dropped or a cell of its tree is set. -/
  formula_frame : ∀ cmd s' answer, s.step cmd = some (s', answer) →
    ∀ n v, Slots.get? s.formulaValues n = some v →
      Slots.get? s'.formulaValues n = some v ∨ cmd = .dropFormula n ∨
        ∃ f c h w, Slots.get? s.formulas n = some f ∧ c ∈ f.root.cells ∧ cmd = .set h w ∧
          Slots.get? s.handles h = some c

theorem isSome_bind {α : Type} (o : Option α) (f : α → Session × Answer) :
    (o.bind fun a => some (f a)).isSome = o.isSome := by
  cases o with
  | none => rfl
  | some a => rfl

namespace Tracks

/-- A command on one thing is carried out if the thing is there. -/
theorem accepts (t : s.Tracks past) (cmd : Command) : (s.step cmd).isSome = past.admits cmd := by
  have hhandle : ∀ h, (Slots.get? s.handles h).isSome = (Slots.get? past.origins h).isSome := by
    intro h
    rw [t.get?_origins, Option.isSome_map]
  have hdraft : ∀ n, (Slots.get? s.drafts n).isSome = (Slots.get? past.drafts n).isSome := by
    intro n
    rw [t.get?_drafts, Option.isSome_map]
  have hformula : ∀ n, (Slots.get? s.formulas n).isSome = (past.formula? n).isSome := by
    intro n
    rw [t.get?_formulas]
  cases cmd with
  | new _ | newDefault | draft _ | evalAll => rfl
  | clone h | drop h | set h _ | get h | display h => exact (isSome_bind _ _).trans (hhandle h)
  | source n => exact (isSome_bind _ _).trans (hdraft n)
  | eval n | inspect n | copy n | dropFormula n => exact (isSome_bind _ _).trans (hformula n)
  | same a b =>
      rw [Chronicle.admits, ← hhandle, ← hhandle, Session.step]
      cases Slots.get? s.handles a with
      | none => rfl
      | some c => exact isSome_bind _ _
  | register n _ h =>
      rw [Chronicle.admits, ← hdraft, ← hhandle, Session.step]
      cases Slots.get? s.drafts n with
      | none => rfl
      | some d => exact isSome_bind _ _
  | equal a b =>
      rw [Chronicle.admits, ← hformula, ← hformula, Session.step]
      cases Slots.get? s.formulas a with
      | none => rfl
      | some f => exact isSome_bind _ _
  | build n =>
      rw [Chronicle.admits, ← hdraft]
      cases hd : Slots.get? s.drafts n with
      | none => rw [Session.step, hd]; rfl
      | some d =>
          cases ho : (d.build s.store).outcome with
          | error e => rw [step_build_of_error hd ho]; rfl
          | ok f => rw [step_build_of_ok hd ho]; rfl

/-- A handle reads as before unless it is dropped or its cell is set. -/
theorem handle_frame (t : s.Tracks past) (e : s.Effect cmd s') {h : Nat} {v : Float}
    (hv : Slots.get? s.readings h = some v) :
    Slots.get? s'.readings h = some v ∨ cmd = .drop h ∨
      ∃ h' w, cmd = .set h' w ∧ Slots.get? s.handles h' = Slots.get? s.handles h := by
  rw [Session.readings, Slots.get?_map] at hv
  obtain ⟨c, hc, rfl⟩ := Option.map_eq_some_iff.1 hv
  rcases e.get_eq (t.held c (.handle (Slots.mem_of_get? hc))) with hget | ⟨h', w, rfl, hc'⟩
  · rcases e.handle_kept hc with hkept | hdrop
    · refine Or.inl ?_
      rw [Session.readings, Slots.get?_map, hkept, Option.map_some, hget]
    · exact Or.inr (Or.inl hdrop)
  · exact Or.inr (Or.inr ⟨h', w, rfl, hc'.trans hc.symm⟩)

/-- A formula has its value as before unless it is dropped or a cell of its tree is set. -/
theorem formula_frame (t : s.Tracks past) (e : s.Effect cmd s') {n : Nat} {v : Float}
    (hv : Slots.get? s.formulaValues n = some v) :
    Slots.get? s'.formulaValues n = some v ∨ cmd = .dropFormula n ∨
      ∃ f c h w, Slots.get? s.formulas n = some f ∧ c ∈ f.root.cells ∧ cmd = .set h w ∧
        Slots.get? s.handles h = some c := by
  rw [Session.formulaValues, Slots.get?_map] at hv
  obtain ⟨f, hf, rfl⟩ := Option.map_eq_some_iff.1 hv
  by_cases hset : ∃ c ∈ f.root.cells, ∃ h w, cmd = .set h w ∧ Slots.get? s.handles h = some c
  · obtain ⟨c, hc, h, w, hcmd, hh⟩ := hset
    exact Or.inr (Or.inr ⟨f, c, h, w, hf, hc, hcmd, hh⟩)
  · have heval : f.eval s'.store = f.eval s.store := by
      refine Tree.eval_congr fun c hc => ?_
      have hm : s.Mentions c := .formula f (Slots.mem_of_get? hf) hc
      exact (e.get_eq (t.held c hm)).resolve_right fun hw => hset ⟨c, hc, hw⟩
    obtain ⟨-, hkept | ⟨-, hdrop⟩⟩ := e.formulas_get? (Slots.lt_of_get? hf)
    · refine Or.inl ?_
      rw [Session.formulaValues, Slots.get?_map, hkept, hf, Option.map_some, heval]
    · exact Or.inr (Or.inl hdrop)

/-- A session that keeps to its history shows what it says. -/
theorem faithful (t : s.Tracks past) : s.Faithful past where
  accepts := t.accepts
  get := by
    intro h o ho
    refine ⟨_, t.last_of_origin ho, ?_⟩
    rw [Session.step, t.cell_of_origin ho]
    rfl
  readings := t.readings_eq
  display := by
    intro h o ho
    refine ⟨_, t.last_of_origin ho, ?_⟩
    rw [Session.step, t.cell_of_origin ho]
    rfl
  clone := by
    intro h o ho
    refine ⟨_, t.last_of_origin ho, ?_⟩
    rw [Session.step, t.cell_of_origin ho]
    rfl
  set := by
    intro h o v ho
    have hstep : s.step (.set h v) = some ({ s with store := s.store.set ⟨o⟩ v },
        .values { s with store := s.store.set ⟨o⟩ v }.readings) := by
      rw [Session.step, t.cell_of_origin ho]
      rfl
    -- the readings are those of a session that keeps to the history with the set
    have hpast : past.note (.set h v) = past.write o v := by
      rw [Chronicle.note, ho]
      rfl
    rw [hstep, (t.effect (effect_of_step hstep)).readings_eq, hpast]
    exact ⟨_, rfl⟩
  eval := by
    intro n f hf
    have hheld : ∀ c ∈ f.root.cells, s.Mentions c :=
      fun c hc => .formula f (Slots.mem_of_get? hf) hc
    refine ⟨fun c hc => ⟨_, t.last_of_mentions (hheld c hc)⟩, ?_⟩
    rw [Session.step, hf, ← t.eval_eq hheld]
    rfl
  evalAll := by
    rw [← t.formulaValues_eq]
    rfl
  draft := fun n => (t.get?_drafts n).symm
  formula := t.get?_formulas
  register := by
    intro n name h d c hd hc
    rw [Session.step, hd, hc]
    rfl
  build := by
    intro n d f hd hf
    have hheld : ∀ c ∈ f.root.cells, s.Mentions c := fun c hc =>
      (Effect.build hd hf).mentions_of_formula
        (Slots.mem_of_get? (Slots.get?_add_length _ _)) hc
    rw [← t.eval_eq hheld]
    exact step_build_of_ok hd hf
  refuse := fun _ _ _ => step_build_of_error
  copy := by
    intro n f hf
    rw [Session.step, hf]
    rfl
  kept := by
    intro n f hf later s' answers hr
    rw [← hf]
    exact formulas_get?_run hr (Slots.lt_of_get? hf)
  fresh := by
    intro cmd v hv
    rw [step_of_initial? hv, newCell_eq]
    exact ⟨_, s.store.fresh, rfl, Slots.get?_add_length _ _,
      fun hm => Store.ne_fresh_of_holds (t.held _ hm) rfl⟩
  cell := by
    intro h
    rw [t.get?_origins, Option.map_map]
    cases Slots.get? s.handles h with
    | none => rfl
    | some c => rfl
  same := by
    intro a b o o' ha hb
    rw [Session.step, t.cell_of_origin ha, t.cell_of_origin hb]
    have hcells : ((⟨o⟩ : Cell) == ⟨o'⟩) = (o == o') := by
      rw [Bool.eq_iff_iff, beq_iff_eq, beq_iff_eq, Cell.mk.injEq]
    exact congrArg (fun equal => some (s, Answer.same equal)) hcells
  handle_frame := fun _ _ _ hstep _ _ => t.handle_frame (effect_of_step hstep)
  formula_frame := fun _ _ _ hstep _ _ => t.formula_frame (effect_of_step hstep)

end Tracks

/-- **SHARED CELLS.** At every moment of a run the session shows what the history of the commands
    so far says: handles and formulas read cells as they were set last, a new cell is shared with
    nobody, and only setting a cell changes what those who have it read. -/
theorem faithful_of_run {before later : List Command} {answers : List Answer}
    (h : empty.run (before ++ later) = some (s', answers)) : ∃ s told rest,
      empty.run before = some (s, told) ∧ s.run later = some (s', rest) ∧
        answers = told ++ rest ∧ s.Faithful (.ofCommands before) := by
  obtain ⟨s, told, rest, hbefore, hlater, rfl⟩ := exists_run_of_append h
  exact ⟨s, told, rest, hbefore, hlater, rfl, (tracks_empty.run hbefore).faithful⟩

/-- A name is bound to one cell and then to another, of which there are two handles; then the
    text is built. -/
def builtRun : List Command :=
  [.new 1.0, .clone 0, .newDefault, .draft "x*x", .register 0 "x" 2, .register 0 "x" 1, .build 0]

/-- The cell of the formula is set, and the formula is copied. -/
def copiedRun : List Command := builtRun ++ [.set 0 3.0, .copy 0]

/-- The cell is set again, and the other one; a text with a name that is not bound fails; then the
    cell loses its handles, and the first formula goes. -/
def sharedRun : List Command :=
  copiedRun ++ [.set 1 5.0, .set 2 7.0, .draft "y", .build 1, .drop 0, .drop 1, .dropFormula 0]

/-- The formula follows its cell after the build, and the copy does after the copying, until there
    is no handle of the cell. -/
theorem faithful_sharedRun :
    let f : Formula := ⟨"x*x", .binary (.cell ⟨0⟩) .multiply (.cell ⟨0⟩)⟩
    let built : Session :=
      ⟨⟨[1.0, 0.0]⟩, [some ⟨0⟩, some ⟨0⟩, some ⟨1⟩], [none], [some f]⟩
    let copied : Session := { built with store := ⟨[3.0, 0.0]⟩, formulas := [some f, some f] }
    let shared : Session :=
      ⟨⟨[5.0, 7.0]⟩, [none, none, some ⟨1⟩], [none, none], [none, some f]⟩
    ((empty.run builtRun).map Prod.fst = some built ∧ built.Faithful (.ofCommands builtRun) ∧
      built.step .evalAll = some (built, .values [some 1.0])) ∧
    ((empty.run copiedRun).map Prod.fst = some copied ∧ copied.Faithful (.ofCommands copiedRun) ∧
      copied.step .evalAll = some (copied, .values [some 9.0, some 9.0])) ∧
    (empty.run sharedRun).map Prod.fst = some shared ∧ shared.Faithful (.ofCommands sharedRun) ∧
      shared.step .evalAll = some (shared, .values [none, some 25.0]) := by
  intro f built copied shared
  have hmoment : ∀ cmds s, (empty.run cmds).map Prod.fst = some s →
      s.Faithful (.ofCommands cmds) := by
    intro cmds s hs
    obtain ⟨⟨s', told⟩, hrun, hs'⟩ := Option.map_eq_some_iff.1 hs
    obtain rfl : s' = s := hs'
    rw [← List.append_nil cmds] at hrun
    obtain ⟨s, told', -, hbefore, -, -, hfaithful⟩ := faithful_of_run hrun
    rw [List.append_nil] at hrun
    obtain ⟨rfl, -⟩ := Prod.mk.inj (Option.some.inj (hrun.symm.trans hbefore))
    exact hfaithful
  have hbuilt : (empty.run builtRun).map Prod.fst = some built := by rfl
  have hcopied : (empty.run copiedRun).map Prod.fst = some copied := by rfl
  have hshared : (empty.run sharedRun).map Prod.fst = some shared := by rfl
  have hfaithful := hmoment builtRun built hbuilt
  have hfaithful' := hmoment copiedRun copied hcopied
  have hfaithful'' := hmoment sharedRun shared hshared
  exact ⟨⟨hbuilt, hfaithful, hfaithful.evalAll⟩, ⟨hcopied, hfaithful', hfaithful'.evalAll⟩,
    hshared, hfaithful'', hfaithful''.evalAll⟩

end Session

end LiveArith
