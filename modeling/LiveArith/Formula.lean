import LiveArith.Log
import LiveArith.Parse.Descent

/-! # Formulas — drafts, builds and values

    A `Draft` is a text with the names it may use.  Building it gives a `Formula`,
    whose tree never changes; what changes are the values of its cells, and every
    evaluation reads them anew. -/

namespace LiveArith

/-- A text that was parsed, and its tree. -/
structure Formula where
  source : String
  root : Tree
deriving DecidableEq

namespace Formula

/-- The value with the cells as they are in a store. -/
def eval (f : Formula) (s : Store) : Float := f.root.eval s.get

/-- The description of a formula.  A text that was parsed holds only lowercase letters,
    digits, spaces and the characters `.+-*/^()`, so its quotation escapes nothing. -/
def describe (f : Formula) (s : Store) : String :=
  describeFields "Expression"
    [("source", "\"" ++ f.source ++ "\""), ("root", f.root.describe s.get)]

end Formula

/-- The levels that the parse of a formula may have open at once. -/
def maxDepth : Nat := 512

/-- A text to be parsed, the names it may use and the log so far. -/
structure Draft where
  source : String
  scope : Scope
  log : List Record
deriving DecidableEq

/-- What came of a build, and the log up to its end. -/
structure Report where
  log : List Record
  outcome : Except ParseError Formula

namespace Report

/-- Two builds came to the same: to trees that are `==`, or to one error. -/
def agrees (a b : Report) : Bool :=
  match a.outcome, b.outcome with
  | .ok f, .ok g => f.root == g.root
  | .error e, .error e' => e == e'
  | _, _ => false

/-- The tree of a build, if it came to one. -/
def tree? (r : Report) : Option Tree := r.outcome.toOption.map Formula.root

/-- A build came to a formula exactly if that is its outcome. -/
theorem toOption_outcome {r : Report} {f : Formula} :
    r.outcome.toOption = some f ↔ r.outcome = .ok f := by
  cases r.outcome with
  | error e => exact ⟨nofun, nofun⟩
  | ok g => exact ⟨fun h => congrArg Except.ok (Option.some.inj h),
      fun h => congrArg some (Except.ok.inj h)⟩

/-- A build came to a tree exactly if it came to a formula with it. -/
theorem tree?_eq_some {r : Report} {t : Tree} :
    r.tree? = some t ↔ ∃ f, r.outcome = .ok f ∧ f.root = t := by
  simp only [tree?, Option.map_eq_some_iff, toOption_outcome]

end Report

namespace Draft

/-- A text with no names. -/
def ofSource (source : String) : Draft := ⟨source, .empty, []⟩

/-- The same names for another text. -/
def withSource (d : Draft) (source : String) : Draft := { d with source }

/-- Binds a name to a cell, in place of any earlier binding of it; the record shows what
    the cell holds. -/
def register (d : Draft) (s : Store) (name : String) (c : Cell) : Draft :=
  { d with scope := d.scope.bind name c, log := d.log ++ [.registering name (s.get c)] }

/-- Makes a cell with a value and binds a name to it. -/
def registerNew (d : Draft) (s : Store) (name : String) (v : Float) : Draft × Store :=
  let (c, s) := s.alloc v
  (d.register s name c, s)

/-- Makes a cell for each named value and binds the names in order. -/
def registerAll (d : Draft) (s : Store) : List (String × Float) → Draft × Store
  | [] => (d, s)
  | (name, v) :: rest =>
    let (d, s) := d.registerNew s name v
    d.registerAll s rest

/-- The parse of a draft with room for `limit` levels. -/
def parseWithin (limit : Nat) (d : Draft) : Parse.Run Tree :=
  Parse.formula d.scope limit (Cursor.start d.source.toList)

/-- The build of a draft whose parse has room for `limit` levels. -/
def buildWithin (limit : Nat) (d : Draft) (s : Store) : Report :=
  let run := d.parseWithin limit
  let log := d.log ++ .building d.source :: run.steps.map .parsing
  match run.result with
  | .error e => ⟨log, .error e⟩
  | .ok (t, _) => ⟨log ++ [.built t s], .ok ⟨d.source, t⟩⟩

/-- The build of a draft. -/
def build (d : Draft) (s : Store) : Report := d.buildWithin maxDepth s

end Draft

/-- The value of a text with named values: one parse and one evaluation. -/
def evaluate (source : String) (context : List (String × Float)) : Except ParseError Float :=
  let (d, s) := (Draft.ofSource source).registerAll .empty context
  (d.build s).outcome.map (·.eval s)

/-- The values of a formula as one of its cells is set to each of some values in turn. -/
def Formula.sweep (f : Formula) (s : Store) (c : Cell) : List Float → List Float × Store
  | [] => ([], s)
  | v :: rest =>
    let s := s.set c v
    let (values, s') := f.sweep s c rest
    (f.eval s :: values, s')

end LiveArith
