/-! # Builtins — the six functions a formula can call

    The set is fixed.  The trigonometric functions take degrees.  No argument is
    refused: outside a function's domain the value is NaN or an infinity. -/

namespace LiveArith

/-- A function known by name to every formula. -/
inductive Builtin where
  | sqrt
  | sin
  | cos
  | tg
  | ctg
  | ln
deriving DecidableEq, Repr, Inhabited

namespace Builtin

/-- Every builtin. -/
def all : List Builtin := [sqrt, sin, cos, tg, ctg, ln]

/-- The name by which a formula calls the function. -/
def name : Builtin → String
  | sqrt => "sqrt"
  | sin => "sin"
  | cos => "cos"
  | tg => "tg"
  | ctg => "ctg"
  | ln => "ln"

/-- The name of the function in a structural description. -/
def title : Builtin → String
  | sqrt => "Sqrt"
  | sin => "Sin"
  | cos => "Cos"
  | tg => "Tg"
  | ctg => "Ctg"
  | ln => "Ln"

/-- The builtin of a name, if there is one.  Names are matched exactly, case included. -/
def ofName? (name : String) : Option Builtin := all.find? (·.name == name)

/-- What is said of a name that belongs to no builtin. -/
def unknownMessage (name : String) : String := "Unknown function: " ++ name

/-- The radians in one degree: the binary64 value nearest to π / 180. -/
def radiansPerDegree : Float := Float.ofBits 0x3f91df46a2529d39

/-- An angle in degrees, in radians: one rounded product. -/
def radians (degrees : Float) : Float := degrees * radiansPerDegree

/-- The value of the function. -/
def apply : Builtin → Float → Float
  | sqrt, x => x.sqrt
  | sin, x => (radians x).sin
  | cos, x => (radians x).cos
  | tg, x => (radians x).tan
  | ctg, x => 1.0 / (radians x).tan
  | ln, x => x.log

/-- Every builtin is found by its name. -/
@[simp] theorem ofName?_name (f : Builtin) : ofName? f.name = some f := by
  cases f <;> rfl

/-- What is found by a name has that name. -/
theorem name_of_ofName? {s : String} {f : Builtin} (h : ofName? s = some f) : f.name = s := by
  simpa using List.find?_some h

/-- Distinct builtins have distinct names. -/
theorem name_inj {a b : Builtin} (h : a.name = b.name) : a = b := by
  have := congrArg ofName? h
  simpa using this

end Builtin

end LiveArith
