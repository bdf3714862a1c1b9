import LiveArith.Session

/-! # Chronicles — what the commands of a host say

    A chronicle is read off the commands alone.  It says of each handle which cell it
    is of, of each cell what it was set to, of each draft its text with the names
    bound in it, and of each formula the text and the names that it was built from.
    It holds no values of cells and no trees: a cell reads as it was set last, and the
    tree of a formula is the one that its text builds to. -/

namespace LiveArith

/-- A text and the names bound for it, each with the number of its cell, the last binding
    first. -/
structure Recipe where
  source : String
  names : List (String × Nat)
deriving DecidableEq

namespace Recipe

/-- One more name is bound, in place of any earlier binding of it. -/
def bind (r : Recipe) (name : String) (origin : Nat) : Recipe :=
  { r with names := (name, origin) :: r.names }

/-- The draft of the text, with the names bound to their cells. -/
def draft (r : Recipe) : Draft := ⟨r.source, ⟨r.names.map (Prod.map id Cell.mk)⟩, []⟩

/-- What the text builds to, if it builds.  What the cells hold makes no difference to it. -/
def formula? (r : Recipe) : Option Formula := (r.draft.build .empty).outcome.toOption

end Recipe

/-- The text of a draft, and the names bound in it. -/
def Draft.recipe (d : Draft) : Recipe := ⟨d.source, d.scope.bindings.map (Prod.map id Cell.index)⟩

/-- What the commands so far say: how many cells were made; which of them each handle is of
    (`none` for a handle that was dropped); what they were set to, the last value first; and what
    the drafts and the formulas were made from. -/
structure Chronicle where
  made : Nat
  origins : Slots Nat
  writes : List (Nat × Float)
  drafts : Slots Recipe
  formulas : Slots Recipe
deriving DecidableEq

namespace Chronicle

/-- Nothing has been made. -/
def empty : Chronicle := ⟨0, [], [], [], []⟩

/-- A cell is set. -/
def write (past : Chronicle) (origin : Nat) (v : Float) : Chronicle :=
  { past with writes := (origin, v) :: past.writes }

/-- A cell is made and set to its initial value, and there is a handle of it. -/
def make (past : Chronicle) (v : Float) : Chronicle :=
  { past.write past.made v with
    made := past.made + 1, origins := Slots.add past.origins past.made }

/-- A draft is built: it is gone, and if its text builds there is one more formula. -/
def build (past : Chronicle) (draft : Nat) (r : Recipe) : Chronicle :=
  { past with
    drafts := Slots.remove past.drafts draft
    formulas := if r.formula?.isSome then Slots.add past.formulas r else past.formulas }

/-- The history with one more command.  A clone is of the cell of its handle, a name is bound to
    the cell of its handle, and a copy is made from what its original was made from. -/
def note (past : Chronicle) : Command → Chronicle
  | .new v => past.make v
  | .newDefault => past.make 0.0
  | .clone h => { past with origins := past.origins ++ [Slots.get? past.origins h] }
  | .drop h => { past with origins := Slots.remove past.origins h }
  | .set h v => (Slots.get? past.origins h).elim past fun origin => past.write origin v
  | .draft source => { past with drafts := Slots.add past.drafts ⟨source, []⟩ }
  | .register n name h =>
    (Slots.get? past.drafts n).elim past fun r =>
      (Slots.get? past.origins h).elim past fun origin =>
        { past with drafts := past.drafts.set n (some (r.bind name origin)) }
  | .build n => (Slots.get? past.drafts n).elim past fun r => past.build n r
  | .copy n => { past with formulas := past.formulas ++ [Slots.get? past.formulas n] }
  | .dropFormula n => { past with formulas := Slots.remove past.formulas n }
  | _ => past

/-- The history of some commands. -/
def ofCommands (cmds : List Command) : Chronicle := cmds.foldl note empty

/-- What a cell was set to last; being made is the first time. -/
def last? (past : Chronicle) (origin : Nat) : Option Float := past.writes.lookup origin

/-- Cells read as they were set last; one that was never made reads as zero. -/
def read (past : Chronicle) (c : Cell) : Float := (past.last? c.index).getD 0.0

/-- What the handles read. -/
def readings (past : Chronicle) : List (Option Float) := past.origins.map (·.bind past.last?)

/-- What a formula is, as long as it is there. -/
def formula? (past : Chronicle) (n : Nat) : Option Formula :=
  (Slots.get? past.formulas n).bind Recipe.formula?

/-- The values of the formulas: of each the value of what its text builds to, with the cells as
    they were set last. -/
def formulaValues (past : Chronicle) : List (Option Float) :=
  past.formulas.map fun made => (made.bind Recipe.formula?).map (·.root.eval past.read)

/-- The command names only handles, drafts and formulas that are there. -/
def admits (past : Chronicle) : Command → Bool
  | .clone h | .drop h | .set h _ | .get h | .display h => (Slots.get? past.origins h).isSome
  | .same a b => (Slots.get? past.origins a).isSome && (Slots.get? past.origins b).isSome
  | .register n _ h => (Slots.get? past.drafts n).isSome && (Slots.get? past.origins h).isSome
  | .source n | .build n => (Slots.get? past.drafts n).isSome
  | .eval n | .inspect n | .copy n | .dropFormula n => (past.formula? n).isSome
  | .equal a b => (past.formula? a).isSome && (past.formula? b).isSome
  | .new _ | .newDefault | .draft _ | .evalAll => true

/-- What a cell was just set to is what it was set to last. -/
@[simp] theorem last?_write_self (past : Chronicle) (origin : Nat) (v : Float) :
    (past.write origin v).last? origin = some v := by
  simp [last?, write]

/-- Setting a cell is no part of the history of another. -/
theorem last?_write_of_ne {past : Chronicle} {origin other : Nat} (v : Float)
    (h : other ≠ origin) : (past.write origin v).last? other = past.last? other := by
  simp [last?, write, List.lookup_cons, beq_eq_false_iff_ne.mpr h]

/-- A cell that was set reads as it was set last. -/
theorem read_of_last? {past : Chronicle} {c : Cell} {v : Float}
    (h : past.last? c.index = some v) : past.read c = v := by
  rw [read, h, Option.getD_some]

end Chronicle

end LiveArith
