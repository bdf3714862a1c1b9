import LiveArith.Formula

/-! # Sessions — a host working with cells, drafts and formulas

    A host holds handles of cells, drafts and formulas, each kind numbered from
    zero as they are made; a number is never used again.  A handle that is dropped
    leaves the cell to whoever else has it: another handle, a draft or a formula. -/

namespace LiveArith

/-- Things numbered as they were made; `none` stands for one that is gone. -/
abbrev Slots (α : Type) := List (Option α)

namespace Slots

variable {α β : Type} {s : Slots α} {n m : Nat} {a b : α}

/-- The thing of a number, unless it is gone or was never made. -/
def get? (s : Slots α) (n : Nat) : Option α := s[n]?.join

/-- Adds a thing under the next number. -/
def add (s : Slots α) (a : α) : Slots α := s ++ [some a]

/-- Takes a thing away; its number stays used. -/
def remove (s : Slots α) (n : Nat) : Slots α := s.set n none

/-- A thing that was made and is not gone stands under its number. -/
theorem get?_eq_some : get? s n = some a ↔ s[n]? = some (some a) :=
  Option.join_eq_some_iff

/-- A thing that has a number is among the things. -/
theorem mem_of_get? (h : get? s n = some a) : some a ∈ s :=
  List.mem_of_getElem? (get?_eq_some.1 h)

/-- Only numbers that were given out stand for something. -/
theorem lt_of_get? (h : get? s n = some a) : n < s.length :=
  (List.getElem?_eq_some_iff.1 (get?_eq_some.1 h)).1

/-- What is made of each thing keeps its number. -/
theorem get?_map (f : α → β) : get? (s.map (Option.map f)) n = (get? s n).map f := by
  rw [get?, get?, List.getElem?_map]
  cases s[n]? with
  | none => rfl
  | some o => rfl

/-- A new thing leaves the earlier ones where they are. -/
theorem get?_add_of_lt (a : α) (h : n < s.length) : get? (add s a) n = get? s n := by
  rw [get?, get?, add, List.getElem?_append_left h]

/-- A new thing has the next number. -/
theorem get?_add_length (s : Slots α) (a : α) : get? (add s a) s.length = some a := by
  rw [get?, add, List.getElem?_concat_length]
  rfl

/-- Only the thing that is taken away is gone. -/
theorem get?_remove_of_ne (h : n ≠ m) : get? (remove s m) n = get? s n := by
  rw [get?, get?, remove, List.getElem?_set_ne h.symm]

/-- A thing that is taken away is gone. -/
theorem get?_remove_self (s : Slots α) (n : Nat) : get? (remove s n) n = none := by
  rw [get?, remove, List.getElem?_set_self']
  cases s[n]? with
  | none => rfl
  | some o => rfl

/-- What is there after an addition was there, or it is what was added. -/
theorem mem_add : some b ∈ add s a ↔ some b ∈ s ∨ b = a := by
  simp [add]

/-- What is there after a thing was taken away was there before. -/
theorem mem_of_mem_remove (h : some b ∈ remove s n) : some b ∈ s :=
  (List.mem_or_eq_of_mem_set h).resolve_right nofun

/-- What is made of a new thing is new among what is made of the things. -/
theorem map_add (f : α → β) : (add s a).map (Option.map f) = add (s.map (Option.map f)) (f a) := by
  rw [add, List.map_append]
  rfl

/-- What is made of a thing goes with it. -/
theorem map_remove (f : α → β) :
    (remove s n).map (Option.map f) = remove (s.map (Option.map f)) n := by
  rw [remove, List.map_set]
  rfl

end Slots

/-- All that a host holds, with the values of the cells. -/
structure Session where
  store : Store
  handles : Slots Cell
  drafts : Slots Draft
  formulas : Slots Formula

/-- What a host can do.  Handles, drafts and formulas are given by number. -/
inductive Command where
  /-- Make a cell with a value. -/
  | new (value : Float)
  /-- Make a cell with the default value. -/
  | newDefault
  /-- Make another handle of the same cell. -/
  | clone (handle : Nat)
  | drop (handle : Nat)
  | set (handle : Nat) (value : Float)
  | get (handle : Nat)
  /-- Compare the cells of two handles. -/
  | same (a b : Nat)
  | display (handle : Nat)
  /-- Start a draft of a text. -/
  | draft (source : String)
  /-- Bind a name of a draft to the cell of a handle. -/
  | register (draft : Nat) (name : String) (handle : Nat)
  | source (draft : Nat)
  /-- Build a draft, which is gone afterwards. -/
  | build (draft : Nat)
  | eval (formula : Nat)
  | evalAll
  | inspect (formula : Nat)
  /-- Make another formula with the same tree and the same cells. -/
  | copy (formula : Nat)
  | dropFormula (formula : Nat)
  /-- Compare the trees of two formulas. -/
  | equal (a b : Nat)

/-- What a host is told. -/
inductive Answer where
  | handle (number : Nat) (value : Float)
  | done
  | value (v : Float)
  /-- The value of each slot, `none` for one that is gone. -/
  | values (vs : List (Option Float))
  | same (equal : Bool)
  | texts (display description : String)
  | draft (number : Nat)
  | source (text : String)
  | built (number : Nat) (formula : Formula) (value : Float)
  | failed (error : ParseError)
  /-- The value of a formula and the value of its tree. -/
  | evaluated (value root : Float)
  | inspected (formula : Formula) (description : String)
  | copied (number : Nat) (equal : Bool) (formula : Formula) (description : String)

namespace Session

/-- Nothing has been made. -/
def empty : Session := ⟨.empty, [], [], []⟩

/-- The least number of a handle of a cell. -/
def handleOf? (s : Session) (c : Cell) : Option Nat := s.handles.findIdx? (· == some c)

/-- What every handle reads. -/
def readings (s : Session) : List (Option Float) := s.handles.map (·.map s.store.get)

/-- The value of every formula. -/
def formulaValues (s : Session) : List (Option Float) := s.formulas.map (·.map (·.eval s.store))

/-- A new cell and a handle of it. -/
def newCell (s : Session) (v : Float) : Session × Answer :=
  let (c, store) := s.store.alloc v
  ({ s with store := store, handles := Slots.add s.handles c },
    .handle s.handles.length (store.get c))

/-- The effect of a command; `none` if it names a thing that the host does not hold. -/
def step (s : Session) : Command → Option (Session × Answer)
  | .new v => some (s.newCell v)
  | .newDefault => some (s.newCell 0.0)
  | .clone h => do
    let c ← Slots.get? s.handles h
    return ({ s with handles := Slots.add s.handles c },
      .handle s.handles.length (s.store.get c))
  | .drop h => do
    let _ ← Slots.get? s.handles h
    return ({ s with handles := Slots.remove s.handles h }, .done)
  | .set h v => do
    let c ← Slots.get? s.handles h
    let s := { s with store := s.store.set c v }
    return (s, .values s.readings)
  | .get h => do
    let c ← Slots.get? s.handles h
    return (s, .value (s.store.get c))
  | .same a b => do
    let c ← Slots.get? s.handles a
    let d ← Slots.get? s.handles b
    return (s, .same (c == d))
  | .display h => do
    let c ← Slots.get? s.handles h
    let v := s.store.get c
    return (s, .texts (NumberText.display {} v) (describeCell v))
  | .draft source =>
    some ({ s with drafts := Slots.add s.drafts (.ofSource source) }, .draft s.drafts.length)
  | .register n name h => do
    let d ← Slots.get? s.drafts n
    let c ← Slots.get? s.handles h
    return ({ s with drafts := s.drafts.set n (some (d.register s.store name c)) }, .done)
  | .source n => do
    let d ← Slots.get? s.drafts n
    return (s, .source d.source)
  | .build n => do
    let d ← Slots.get? s.drafts n
    let s := { s with drafts := Slots.remove s.drafts n }
    match (d.build s.store).outcome with
    | .error e => return (s, .failed e)
    | .ok f =>
      return ({ s with formulas := Slots.add s.formulas f },
        .built s.formulas.length f (f.eval s.store))
  | .eval n => do
    let f ← Slots.get? s.formulas n
    return (s, .evaluated (f.eval s.store) (f.root.eval s.store.get))
  | .evalAll => some (s, .values s.formulaValues)
  | .inspect n => do
    let f ← Slots.get? s.formulas n
    return (s, .inspected f (f.root.describe s.store.get))
  | .copy n => do
    let f ← Slots.get? s.formulas n
    return ({ s with formulas := Slots.add s.formulas f },
      .copied s.formulas.length (f.root == f.root) f (f.describe s.store))
  | .dropFormula n => do
    let _ ← Slots.get? s.formulas n
    return ({ s with formulas := Slots.remove s.formulas n }, .done)
  | .equal a b => do
    let f ← Slots.get? s.formulas a
    let g ← Slots.get? s.formulas b
    return (s, .same (f.root == g.root))

/-- A run of commands with their answers. -/
def run (s : Session) : List Command → Option (Session × List Answer)
  | [] => some (s, [])
  | c :: rest => do
    let (s, a) ← s.step c
    let (s, as) ← s.run rest
    return (s, a :: as)

end Session

end LiveArith
