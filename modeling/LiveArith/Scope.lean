import LiveArith.Builtin
import LiveArith.Cell

/-! # Scopes — the names a formula may use

    A scope binds names to cells; the last binding of a name counts.  A bound name
    is a variable even where a builtin has the same name, and a variable never
    takes an argument. -/

namespace LiveArith

/-- Names bound to cells, the last binding first. -/
structure Scope where
  bindings : List (String × Cell)
deriving DecidableEq

/-- What a name means. -/
inductive Meaning where
  | cell (identity : Cell)
  | builtin (function : Builtin)
deriving DecidableEq

namespace Scope

/-- A lowercase letter a–z.  The names in a formula are the longest runs of them; a
    binding may have any other name, which no formula then mentions. -/
def isLetter (c : Char) : Bool := c.isLower

/-- No name is bound. -/
def empty : Scope := ⟨[]⟩

/-- Binds a name, in place of any earlier binding of it. -/
def bind (s : Scope) (name : String) (c : Cell) : Scope := ⟨(name, c) :: s.bindings⟩

/-- The cell that a name is bound to. -/
def find? (s : Scope) (name : String) : Option Cell := s.bindings.lookup name

/-- A bound name is a variable, any other the builtin it names, if there is one. -/
def meaning? (s : Scope) (name : String) : Option Meaning :=
  match s.find? name with
  | some c => some (.cell c)
  | none => (Builtin.ofName? name).map .builtin

@[simp] theorem find?_empty (name : String) : empty.find? name = none := rfl

/-- The last binding of a name counts. -/
@[simp] theorem find?_bind_self (s : Scope) (name : String) (c : Cell) :
    (s.bind name c).find? name = some c := by
  simp [find?, bind]

/-- A binding does not touch other names. -/
theorem find?_bind_of_ne (s : Scope) {name other : String} (c : Cell) (h : other ≠ name) :
    (s.bind name c).find? other = s.find? other := by
  simp [find?, bind, List.lookup_cons, beq_eq_false_iff_ne.mpr h]

/-- The meaning of a name depends on its own binding alone. -/
theorem meaning?_congr {s s' : Scope} {name : String} (h : s.find? name = s'.find? name) :
    s.meaning? name = s'.meaning? name := by
  simp [meaning?, h]

/-- A name that means a cell is bound to it. -/
theorem find?_of_meaning? {s : Scope} {name : String} {c : Cell}
    (h : s.meaning? name = some (.cell c)) : s.find? name = some c := by
  unfold meaning? at h
  split at h
  · rename_i d hd
    obtain rfl : d = c := by simpa using h
    exact hd
  · simp at h

/-- A name that means a builtin is the name of that builtin, and bound to no cell. -/
theorem find?_of_meaning?_builtin {s : Scope} {name : String} {f : Builtin}
    (h : s.meaning? name = some (.builtin f)) : s.find? name = none ∧ f.name = name := by
  unfold meaning? at h
  split at h
  · simp at h
  · rename_i hnone
    obtain ⟨g, hg, heq⟩ := Option.map_eq_some_iff.1 h
    obtain rfl := Meaning.builtin.inj heq
    exact ⟨hnone, Builtin.name_of_ofName? hg⟩

end Scope

end LiveArith
