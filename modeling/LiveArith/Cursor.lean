/-! # Cursors — a place in a text

    A cursor is the text that is left and the count of characters before it.  Only
    the space U+0020 is blank: a tab or a line end is a character like any other. -/

namespace LiveArith

/-- The rest of a text and where it starts. -/
structure Cursor where
  position : Nat
  rest : List Char
deriving DecidableEq, Repr

namespace Cursor

/-- The start of a text. -/
def start (text : List Char) : Cursor := ⟨0, text⟩

/-- The character at the cursor, or `none` at the end of the text. -/
def lookahead (c : Cursor) : Option Char := c.rest.head?

/-- Past a number of characters. -/
def drop (c : Cursor) (n : Nat) : Cursor := ⟨c.position + n, c.rest.drop n⟩

/-- The longest run of characters of a class at the cursor. -/
def run (c : Cursor) (p : Char → Bool) : List Char := c.rest.takeWhile p

/-- Past the longest run of characters of a class. -/
def skip (c : Cursor) (p : Char → Bool) : Cursor :=
  ⟨c.position + (c.run p).length, c.rest.dropWhile p⟩

/-- Past the spaces. -/
def skipSpaces (c : Cursor) : Cursor := c.skip (· == ' ')

/-- A run lies between the two places. -/
theorem run_append_skip (c : Cursor) (p : Char → Bool) : c.run p ++ (c.skip p).rest = c.rest :=
  List.takeWhile_append_dropWhile

/-- After a run the next character is of another class. -/
theorem lookahead_skip (c : Cursor) (p : Char → Bool) :
    ∀ ch ∈ (c.skip p).lookahead, p ch = false := by
  intro ch h
  have := List.head?_dropWhile_not p c.rest
  simp only [lookahead, skip] at h
  rw [Option.mem_def.1 h] at this
  simpa using this

/-- The position counts the characters before the cursor: moving past a run keeps the
    length of the whole text. -/
theorem skip_position (c : Cursor) (p : Char → Bool) :
    (c.skip p).position + (c.skip p).rest.length = c.position + c.rest.length := by
  have h := congrArg List.length (c.run_append_skip p)
  rw [List.length_append] at h
  simp only [skip] at *
  omega

end Cursor

end LiveArith
