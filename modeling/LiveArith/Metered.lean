import LiveArith.Formula
import LiveArith.Parse.Runs

/-! # Metered parsing — formulas read by a machine with a counter

    The parser of `Parse.Descent` is given its room and hands on less.  This machine
    has a state with a counter instead, that goes up by one before each level and that
    each call turns back before it returns.  It keeps the active calls and the folds
    they have counted, and tells its moments.  It can fail in more ways than the
    parser: by a counter that goes below zero, a slice that is out of range, or calls
    and rounds beyond what there is room for. -/

namespace LiveArith

open LiveArith.Token

namespace Metered

open LiveArith.Parse (Step Rule)

/-! ## Machines -/

/-- A procedure of the parser. -/
inductive Procedure where
  | expression
  | term
  | factor
  | signedFactor
  | number
  | name
deriving DecidableEq, Repr

/-- The level that a call of the procedure counts as it begins. -/
def Procedure.own : Procedure → Nat
  | expression | factor => 1
  | term | signedFactor | number | name => 0

/-- A call that is active, with the folds it has counted. -/
structure Call where
  procedure : Procedure
  folds : Nat
deriving DecidableEq, Repr

/-- The levels that the call holds. -/
def Call.levels (call : Call) : Nat := call.procedure.own + call.folds

/-- The levels that the call gives back as it returns. -/
def Call.givesBack : Call → Nat
  | ⟨.expression, folds⟩ => folds + 1
  | ⟨.term, folds⟩ => folds
  | ⟨.factor, _⟩ => 1
  | ⟨.signedFactor, _⟩ | ⟨.number, _⟩ | ⟨.name, _⟩ => 0

/-- The levels that the calls hold together. -/
def levels : List Call → Nat
  | [] => 0
  | call :: calls => call.levels + levels calls

/-- The number of calls of expressions and factors. -/
def nested (calls : List Call) : Nat :=
  calls.countP fun call => call.procedure = .expression ∨ call.procedure = .factor

/-- The number of folds that the calls have counted. -/
def folded : List Call → Nat
  | [] => 0
  | call :: calls => call.folds + folded calls

/-- The place in the text, the counter, and the active calls, the innermost first. -/
structure State where
  position : Nat
  depth : Nat
  calls : List Call

/-- What the machine does at a moment. -/
inductive Event where
  /-- A procedure is called. -/
  | called (procedure : Procedure)
  /-- A level is counted; the counter is already up. -/
  | counted
  /-- Characters are cut out of the text. -/
  | sliced (start stop : Nat)
  /-- A procedure returns, that was called when the counter was at `entry`. -/
  | returned (procedure : Procedure) (entry : Nat)

/-- A moment of a run, with the counter and the active calls. -/
structure Moment where
  event : Event
  depth : Nat
  calls : List Call

/-- What a run comes to. -/
inductive Outcome (α : Type) where
  | value (a : α) (state : State)
  | error (e : ParseError)
  /-- The counter went below zero, or a slice was out of range. -/
  | panic
  /-- The calls or the rounds of a loop went beyond what there is room for. -/
  | overflow

/-- The steps and the moments of a run, and what it comes to. -/
structure Run (α : Type) where
  steps : List Step
  moments : List Moment
  outcome : Outcome α

/-- A reader with a state. -/
def Machine (α : Type) : Type := State → Run α

instance : Monad Machine where
  pure a := fun s => ⟨[], [], .value a s⟩
  bind m f := fun s =>
    match m s with
    | ⟨steps, moments, .value a s'⟩ =>
      ⟨steps ++ (f a s').steps, moments ++ (f a s').moments, (f a s').outcome⟩
    | ⟨steps, moments, .error e⟩ => ⟨steps, moments, .error e⟩
    | ⟨steps, moments, .panic⟩ => ⟨steps, moments, .panic⟩
    | ⟨steps, moments, .overflow⟩ => ⟨steps, moments, .overflow⟩

section Machines

variable {α β : Type} {m : Machine α} {s s' : State} {a : α}

/-- A part that comes to a value is followed by the next. -/
theorem bind_of_value (f : α → Machine β) (h : (m s).outcome = .value a s') :
    (m >>= f) s = ⟨(m s).steps ++ (f a s').steps, (m s).moments ++ (f a s').moments,
      (f a s').outcome⟩ := by
  rcases hm : m s with ⟨steps, moments, outcome⟩
  rw [hm] at h
  subst h
  simp only [Bind.bind, hm]

/-- A part that fails ends the run. -/
theorem bind_of_error (f : α → Machine β) {e : ParseError} (h : (m s).outcome = .error e) :
    (m >>= f) s = ⟨(m s).steps, (m s).moments, .error e⟩ := by
  rcases hm : m s with ⟨steps, moments, outcome⟩
  rw [hm] at h
  subst h
  simp only [Bind.bind, hm]

end Machines

/-- The cursor of a state. -/
def State.cursor (text : List Char) (s : State) : Cursor := ⟨s.position, text.drop s.position⟩

section Primitives

variable {α : Type} (text : List Char) (limit : Nat)

/-- Ends the run with an error. -/
def fail (e : ParseError) : Machine α := fun _ => ⟨[], [], .error e⟩

/-- Reports what stands where the run is. -/
def unexpected : Machine α := fun s =>
  ⟨[], [], .error (.unexpectedCharacter (s.cursor text).lookahead s.position)⟩

/-- There is no room for one more call or one more round. -/
def overflow : Machine α := fun _ => ⟨[], [], .overflow⟩

/-- Takes a step. -/
def note (step : Step) : Machine Unit := fun s => ⟨[step], [], .value () s⟩

/-- Tells a moment. -/
def record (event : Event) : Machine Unit := fun s =>
  ⟨[], [⟨event, s.depth, s.calls⟩], .value () s⟩

/-- The place that was reached. -/
def position : Machine Nat := fun s => ⟨[], [], .value s.position s⟩

/-- The counter. -/
def depth : Machine Nat := fun s => ⟨[], [], .value s.depth s⟩

/-- The character that comes next. -/
def lookahead : Machine (Option Char) := fun s => ⟨[], [], .value (s.cursor text).lookahead s⟩

/-- Advances past the characters of a class. -/
def advance (p : Char → Bool) : Machine Unit := fun s =>
  ⟨[], [], .value () { s with position := s.position + ((s.cursor text).run p).length }⟩

/-- Advances past one character. -/
def next : Machine Unit := fun s => ⟨[], [], .value () { s with position := s.position + 1 }⟩

/-- Goes past the spaces and past the character `ch` if it stands there. -/
def take (ch : Char) : Machine Bool := do
  advance text (· == ' ')
  if (← lookahead text) = some ch then
    next
    return true
  else return false

/-- Takes the first of the operators that can be taken. -/
def takeOperator : List Operator → Machine (Option Operator)
  | [] => return none
  | op :: ops => do
    if ← take text op.symbol then return some op else takeOperator ops

/-- Cuts out the characters from `start` to the place that was reached. -/
def slice (start : Nat) : Machine (List Char) := fun s =>
  let moments := [⟨.sliced start s.position, s.depth, s.calls⟩]
  if start ≤ s.position ∧ s.position ≤ text.length then
    ⟨[], moments, .value ((text.drop start).take (s.position - start)) s⟩
  else ⟨[], moments, .panic⟩

/-- Counts a level; beyond the limit the run fails. -/
def enter (grow : List Call → List Call) : Machine Unit := fun s =>
  let moments := [⟨.counted, s.depth + 1, s.calls⟩]
  if limit < s.depth + 1 then
    ⟨[.exhausted s.position], moments,
      .error (.unexpectedCharacter (s.cursor text).lookahead s.position)⟩
  else ⟨[], moments, .value () { s with depth := s.depth + 1, calls := grow s.calls }⟩

/-- Adds a call to the active ones. -/
def push (p : Procedure) : Machine Unit := fun s =>
  ⟨[], [], .value () { s with calls := ⟨p, 0⟩ :: s.calls }⟩

/-- Begins a call, which may count a level. -/
def begin (p : Procedure) : Machine Unit :=
  if p.own = 1 then enter text limit (⟨p, 0⟩ :: ·) else push p

/-- Counts a level for one more fold of the innermost call. -/
def countFold : Machine Unit :=
  enter text limit (List.modifyHead fun call => { call with folds := call.folds + 1 })

/-- Turns the counter back by what the innermost call gives back, and ends the call. -/
def leave : Machine Unit := fun s =>
  match s.calls with
  | call :: calls =>
    if call.givesBack ≤ s.depth then
      ⟨[], [], .value () { s with depth := s.depth - call.givesBack, calls }⟩
    else ⟨[], [], .panic⟩
  | [] => ⟨[], [], .panic⟩

/-- Calls a procedure. -/
def call (p : Procedure) (body : Machine α) : Machine α := do
  let entry ← depth
  record (.called p)
  begin text limit p
  let a ← body
  leave
  record (.returned p entry)
  return a

/-- Records the opening of a rule and its close. -/
def within (rule : Rule) (body : Machine α) : Machine α := do
  let start ← position
  note (.opened rule start (limit - (← depth)))
  let a ← body
  note (.closed rule start (← position))
  return a

end Primitives

/-! ## The procedures -/

section Procedures

variable (text : List Char) (limit : Nat) (scope : Scope)

/-- A run of a kind that began at `start`. -/
def leaf (k : RunKind) (start : Nat) : Machine k.Value := do
  advance text k.holds
  let run ← slice text start
  match Parse.reading? scope k run with
  | some (step, a) =>
    note step
    return a
  | none => fail (.ofRun k (String.ofList run) start)

/-- A number that began at `start`. -/
def number (start : Nat) : Machine Tree :=
  call text limit .number (leaf text scope .figures start)

/-- A variable, or a function and its argument, that began at `start`. -/
def named (start : Nat) (factor : Machine Tree) : Machine Tree :=
  call text limit .name do
    match ← leaf text scope .letters start with
    | .cell c => return .cell c
    | .builtin f => return .call f (← factor)

/-- An expression in parentheses, after the opening one. -/
def group (expression : Machine Tree) : Machine Tree := do
  let t ← expression
  if ← take text ')' then return t else unexpected text

/-- What can stand before a `^`. -/
def base (start : Nat) (expression factor : Machine Tree) : Machine Tree := do
  if ← take text '(' then group text expression
  else
    let next ← lookahead text
    if next.any Literal.isFigure then number text limit scope start
    else if next.any Scope.isLetter then named text limit scope start factor
    else unexpected text

/-- A base that was read, with the exponent that may follow it. -/
def powerOf (factor : Machine Tree) (t : Tree) : Machine Tree := do
  if ← take text '^' then return .binary t .power (← factor) else return t

/-- Signs, and then a base with its exponent. -/
def signedFactor (expression factor : Machine Tree) : Machine Tree :=
  call text limit .signedFactor do
    if ← take text '+' then factor
    else if ← take text '-' then return .negate (← factor)
    else powerOf text factor (← base text limit scope (← position) expression factor)

/-- The loop of a chain, for a number of rounds. -/
def folds (ops : List Operator) (operand : Machine Tree) : Nat → Tree → Machine Tree
  | 0, _ => overflow
  | rounds + 1, left => do
    match ← takeOperator text ops with
    | none => return left
    | some op =>
      countFold text limit
      note (.folding op (← position) (limit - (← depth)))
      folds ops operand rounds (.binary left op (← operand))

/-- A term over a factor, with a loop for a number of rounds. -/
def termOf (rounds : Nat) (factor : Machine Tree) : Machine Tree :=
  within limit .term <| call text limit .term do
    folds text limit Operator.multiplicative factor rounds (← factor)

mutual

/-- An expression, read with a stack for a number of nested calls. -/
def expression : Nat → Machine Tree
  | 0 => overflow
  | stack + 1 => within limit .expression <| call text limit .expression do
    let term := termOf text limit stack (factor stack)
    folds text limit Operator.additive term stack (← term)

/-- A factor, read with a stack for a number of nested calls. -/
def factor : Nat → Machine Tree
  | 0 => overflow
  | stack + 1 => within limit .factor <| call text limit .factor <|
    signedFactor text limit scope (expression stack) (factor stack)

end

/-- A term, read with a stack for a number of nested calls. -/
def term (stack : Nat) : Machine Tree :=
  termOf text limit stack (factor text limit scope stack)

/-- A whole text. -/
def formula (stack : Nat) : Machine Tree := do
  let t ← expression text limit scope stack
  advance text (· == ' ')
  match ← lookahead text with
  | none => return t
  | some _ => unexpected text

end Procedures

/-- The start of a text: no level is counted and no call is active. -/
def State.start : State := ⟨0, 0, []⟩

end Metered

/-- The parse of a draft by the machine, with a stack for one call more than there are levels. -/
def Draft.meter (d : Draft) : Metered.Run Tree :=
  Metered.formula d.source.toList maxDepth d.scope (maxDepth + 1) .start

end LiveArith
