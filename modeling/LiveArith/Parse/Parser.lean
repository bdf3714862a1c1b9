import LiveArith.Cursor
import LiveArith.ParseError
import LiveArith.Parse.Trace

/-! # Parsers — readers that keep a trace

    A parser takes a cursor to a result and the steps on the way.  The first error
    ends a sequence of parsers, and the steps up to it are kept. -/

namespace LiveArith.Parse

/-- The outcome of a parser with the steps that led to it. -/
structure Run (α : Type) where
  steps : List Step
  result : Except ParseError (α × Cursor)

/-- A reader from a cursor. -/
def Parser (α : Type) : Type := Cursor → Run α

namespace Parser

variable {α β : Type}

/-- A sequence of parsers: steps add up, and the first error ends it. -/
instance : Monad Parser where
  pure a := fun c => ⟨[], .ok (a, c)⟩
  bind p f := fun c =>
    match p c with
    | ⟨steps, .error e⟩ => ⟨steps, .error e⟩
    | ⟨steps, .ok (a, c')⟩ => ⟨steps ++ (f a c').steps, (f a c').result⟩

/-- Doing nothing succeeds where it starts. -/
@[simp] theorem pure_apply (a : α) (c : Cursor) :
    (pure a : Parser α) c = ⟨[], .ok (a, c)⟩ := rfl

/-- After a success the sequence goes on from where it ended. -/
theorem bind_of_ok {p : Parser α} (f : α → Parser β) {c c' : Cursor} {a : α}
    (h : (p c).result = .ok (a, c')) :
    (p >>= f) c = ⟨(p c).steps ++ (f a c').steps, (f a c').result⟩ := by
  rcases hp : p c with ⟨steps, result⟩
  rw [hp] at h
  subst h
  simp only [Bind.bind, hp]

/-- After an error the sequence ends. -/
theorem bind_of_error {p : Parser α} (f : α → Parser β) {c : Cursor} {e : ParseError}
    (h : (p c).result = .error e) : (p >>= f) c = ⟨(p c).steps, .error e⟩ := by
  rcases hp : p c with ⟨steps, result⟩
  rw [hp] at h
  subst h
  simp only [Bind.bind, hp]

/-- A sequence succeeds exactly if its parts do, each from where the one before ended. -/
theorem bind_eq_ok {p : Parser α} {f : α → Parser β} {c : Cursor} {r : β × Cursor} :
    ((p >>= f) c).result = .ok r ↔
      ∃ a c', (p c).result = .ok (a, c') ∧ (f a c').result = .ok r := by
  cases h : (p c).result with
  | error e => simp [bind_of_error f h]
  | ok ac =>
    obtain ⟨a, c'⟩ := ac
    rw [bind_of_ok f h]
    constructor
    · intro hr
      exact ⟨a, c', rfl, hr⟩
    · rintro ⟨b, d, hb, hr⟩
      cases hb
      exact hr

/-- Fails with an error. -/
def fail (e : ParseError) : Parser α := fun _ => ⟨[], .error e⟩

/-- Records a step. -/
def note (s : Step) : Parser Unit := fun c => ⟨[s], .ok ((), c)⟩

/-- The place of the cursor. -/
def position : Parser Nat := fun c => ⟨[], .ok (c.position, c)⟩

/-- The character at the cursor. -/
def lookahead : Parser (Option Char) := fun c => ⟨[], .ok (c.lookahead, c)⟩

/-- Goes past the spaces. -/
def skipSpaces : Parser Unit := fun c => ⟨[], .ok ((), c.skipSpaces)⟩

/-- Reads the longest run of characters of a class. -/
def takeRun (p : Char → Bool) : Parser (List Char) := fun c => ⟨[], .ok (c.run p, c.skip p)⟩

/-- Goes past the spaces and past the character `ch` if it stands there. -/
def take (ch : Char) : Parser Bool := fun c =>
  let c := c.skipSpaces
  if c.lookahead = some ch then ⟨[], .ok (true, c.drop 1)⟩ else ⟨[], .ok (false, c)⟩

/-- Goes past the spaces and past the symbol of one of the operators if one stands there. -/
def takeOperator (ops : List Operator) : Parser (Option Operator) := fun c =>
  let c := c.skipSpaces
  match ops.find? fun op => c.lookahead == some op.symbol with
  | some op => ⟨[], .ok (some op, c.drop 1)⟩
  | none => ⟨[], .ok (none, c)⟩

/-- Fails at the character that stands at the cursor. -/
def unexpected : Parser α := fun c =>
  ⟨[], .error (.unexpectedCharacter c.lookahead c.position)⟩

/-- Fails at the cursor because no level is left. -/
def exhausted : Parser α := do
  note (.exhausted (← position))
  unexpected

/-- A parser as a rule of the grammar: its opening and its close are recorded. -/
def within (rule : Rule) (room : Nat) (body : Parser α) : Parser α := do
  let start ← position
  note (.opened rule start room)
  let a ← body
  note (.closed rule start (← position))
  return a

end Parser

end LiveArith.Parse
