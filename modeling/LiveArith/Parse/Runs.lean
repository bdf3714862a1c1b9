import LiveArith.Parse.Descent
import LiveArith.Token

/-! # Runs — numbers and names read alike

    A number and a name are both a longest run of characters of one kind that means
    something or is an error where it begins.  `leaf` reads them so; it is `number`
    for the one kind and `name` for the other. -/

namespace LiveArith

/-- What the runs of a kind are read to. -/
abbrev Token.RunKind.Value : Token.RunKind → Type
  | .figures => Tree
  | .letters => Meaning

/-- The error of a run that means nothing. -/
def ParseError.ofRun : Token.RunKind → String → Nat → ParseError
  | .figures => .invalidNumber
  | .letters => .unknownFunction

namespace Parse

open LiveArith.Token

/-- The step that records what a name means. -/
def nameStep (name : String) : Meaning → Step
  | .cell c => .variableName name c
  | .builtin f => .functionName f

/-- What a run means, with the step that records it. -/
def reading? (scope : Scope) : (k : RunKind) → List Char → Option (Step × k.Value)
  | .figures, run => (Literal.read? run).map fun v => (.number v, .constant v)
  | .letters, run =>
    (scope.meaning? (String.ofList run)).map fun m => (nameStep (String.ofList run) m, m)

/-- The parser of a number or of a name: it reads one run. -/
def leaf (scope : Scope) (k : RunKind) : Parser k.Value := fun c =>
  match reading? scope k (c.run k.holds) with
  | some (step, a) => ⟨[step], .ok (a, c.skip k.holds)⟩
  | none => ⟨[], .error (.ofRun k (String.ofList (c.run k.holds)) c.position)⟩

end Parse

end LiveArith
