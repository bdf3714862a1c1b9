/-! # Cells — shared mutable values

    A `Cell` is an identity and holds nothing itself; a `Store` says what each
    cell holds now.  Whoever has the cell reads and writes the same value, so a
    formula that mentions a cell picks up every later write. -/

namespace LiveArith

/-- The identity of a mutable value.  Two cells are the same only if they have the
    same index, whatever they hold. -/
structure Cell where
  index : Nat
deriving DecidableEq, Repr, Inhabited

/-- Cells of one index are the same. -/
theorem Cell.eq_of_index {c d : Cell} (h : c.index = d.index) : c = d := by
  cases c
  cases d
  exact congrArg Cell.mk h

/-- The values of all cells made so far, by index. -/
structure Store where
  values : List Float
deriving DecidableEq

namespace Store

/-- No cell has been made. -/
def empty : Store := ⟨[]⟩

/-- How many cells have been made. -/
def size (s : Store) : Nat := s.values.length

/-- The value of a cell; a cell that was never made reads as zero. -/
def get (s : Store) (c : Cell) : Float := s.values.getD c.index 0.0

/-- Writes a cell; a cell that was never made is left alone. -/
def set (s : Store) (c : Cell) (v : Float) : Store := ⟨s.values.set c.index v⟩

/-- The cell that the next `alloc` makes. -/
def fresh (s : Store) : Cell := ⟨s.size⟩

/-- Makes a new cell with a value. -/
def alloc (s : Store) (v : Float) : Cell × Store := (s.fresh, ⟨s.values ++ [v]⟩)

/-- The cell was made in this store. -/
def Holds (s : Store) (c : Cell) : Prop := c.index < s.size

instance (s : Store) (c : Cell) : Decidable (s.Holds c) :=
  inferInstanceAs (Decidable (c.index < s.size))

@[simp] theorem size_set (s : Store) (c : Cell) (v : Float) : (s.set c v).size = s.size := by
  simp [size, set]

@[simp] theorem size_alloc (s : Store) (v : Float) : (s.alloc v).2.size = s.size + 1 := by
  simp [size, alloc]

/-- A write is read back. -/
theorem get_set_self (s : Store) (c : Cell) (v : Float) (h : s.Holds c) :
    (s.set c v).get c = v := by
  have h' : c.index < s.values.length := h
  simp [get, set, List.getD, h']

/-- A write changes no other cell. -/
theorem get_set_of_ne (s : Store) {c d : Cell} (v : Float) (h : d ≠ c) :
    (s.set c v).get d = s.get d := by
  have h' : c.index ≠ d.index := fun e => h (Cell.eq_of_index e).symm
  simp [get, set, List.getD, h']

/-- A new cell holds its initial value. -/
theorem get_alloc_fresh (s : Store) (v : Float) : (s.alloc v).2.get s.fresh = v := by
  simp [get, alloc, fresh, size, List.getD]

/-- Making a cell changes no cell made before. -/
theorem get_alloc_of_holds (s : Store) (v : Float) {c : Cell} (h : s.Holds c) :
    (s.alloc v).2.get c = s.get c := by
  have h' : c.index < s.values.length := h
  simp [get, alloc, List.getD, List.getElem?_append_left h']

/-- A new cell is none of those made before. -/
theorem ne_fresh_of_holds {s : Store} {c : Cell} (h : s.Holds c) : c ≠ s.fresh := by
  intro e
  have h' : c.index < s.size := h
  rw [e] at h'
  exact Nat.lt_irrefl _ h'

end Store

end LiveArith
