import LiveArith.Parse.Parser
import LiveArith.Proofs.Scanning

/-! # Reading — the primitives of a parser as steps over tokens

    A parser sees characters, and its meaning is a matter of tokens.  This file
    says of each primitive which token it takes:

    * `Cursor.tokens` are the tokens that are left at a cursor;
    * at a cursor with no space before it the next character tells the kind of the
      next token (`Cursor.Sight`);
    * `take` and `takeOperator` go past a mark exactly where it is the next token,
      and leave the tokens alone otherwise. -/

namespace LiveArith

open Token

namespace Cursor

/-- The tokens of the text that is left. -/
def tokens (c : Cursor) : List Token := scan c.rest

@[simp] theorem tokens_start (text : List Char) : (start text).tokens = scan text := rfl

/-- Skipping spaces leaves the tokens as they are. -/
@[simp] theorem tokens_skipSpaces (c : Cursor) : c.skipSpaces.tokens = c.tokens := by
  show scan (c.rest.dropWhile (· == ' ')) = scan c.rest
  induction c.rest with
  | nil => rfl
  | cons ch rest ih =>
      by_cases hs : ch = ' '
      · subst hs
        rw [scan_space, List.dropWhile_cons_of_pos (by rfl)]
        exact ih
      · rw [List.dropWhile_cons_of_neg (by simpa using hs)]

/-- What the next character says of the next token, where no space stands before it. -/
inductive Sight (c : Cursor) : Prop where
  | ended (look : c.lookahead = none) (tokens : c.tokens = [])
  | figure (look : c.lookahead.any Literal.isFigure = true)
      (tokens : c.tokens = number (c.run Literal.isFigure) :: (c.skip Literal.isFigure).tokens)
  | letter (look : c.lookahead.any Literal.isFigure = false)
      (look' : c.lookahead.any Scope.isLetter = true)
      (tokens : c.tokens = word (c.run Scope.isLetter) :: (c.skip Scope.isLetter).tokens)
  | mark (ch : Char) (isMark : IsMark ch) (look : c.lookahead = some ch)
      (tokens : c.tokens = Token.mark ch :: (c.drop 1).tokens)

/-- A run that begins at the cursor is the next token. -/
theorem tokens_run (k : RunKind) {c : Cursor} (h : c.lookahead.any k.holds = true) :
    c.tokens = k.token (c.run k.holds) :: (c.skip k.holds).tokens := by
  obtain ⟨p, rest⟩ := c
  cases rest with
  | nil => exact nomatch h
  | cons ch rest =>
      have h : k.holds ch = true := h
      show scan (ch :: rest) = k.token ((ch :: rest).takeWhile k.holds) ::
        scan ((ch :: rest).dropWhile k.holds)
      rw [scan_holds k h, List.takeWhile_cons_of_pos h, List.dropWhile_cons_of_pos h]

/-- Every cursor past the spaces is in sight of its next token. -/
theorem sight {c : Cursor} (h : c.lookahead ≠ some ' ') : Sight c := by
  obtain ⟨p, rest⟩ := c
  cases rest with
  | nil => exact .ended rfl scan_nil
  | cons ch rest =>
      have hs : ch ≠ ' ' := fun e => h (by rw [e]; rfl)
      by_cases hf : Literal.isFigure ch = true
      · exact .figure hf (tokens_run .figures hf)
      by_cases hl : Scope.isLetter ch = true
      · exact .letter (by simpa [lookahead] using hf) hl (tokens_run .letters hl)
      · have hm : IsMark ch := ⟨hs, by simpa using hf, by simpa using hl⟩
        exact .mark ch hm rfl (scan_isMark hm rest)

/-- Behind skipped spaces stands no space. -/
theorem lookahead_skipSpaces (c : Cursor) : c.skipSpaces.lookahead ≠ some ' ' := by
  intro h
  have := c.lookahead_skip (· == ' ') ' ' h
  simp at this

/-- Where no space stands there is nothing to skip. -/
theorem skipSpaces_of_lookahead {c : Cursor} (h : c.lookahead ≠ some ' ') : c.skipSpaces = c := by
  obtain ⟨p, rest⟩ := c
  cases rest with
  | nil => rfl
  | cons ch rest =>
      have hs : (ch == ' ') = false := by
        refine beq_eq_false_iff_ne.2 fun e => h ?_
        rw [e]
        rfl
      simp [skipSpaces, skip, run, hs]

/-- A mark is the next token exactly where it is the next character. -/
theorem lookahead_eq_mark {c : Cursor} (h : c.lookahead ≠ some ' ') {ch : Char} (hm : IsMark ch) :
    c.lookahead = some ch ↔ c.tokens.head? = some (mark ch) := by
  cases sight h with
  | ended look ht => simp [look, ht]
  | figure look ht =>
      rw [ht]
      refine ⟨fun e => ?_, fun e => by simp at e⟩
      rw [e, Option.any_some, hm.2.1] at look
      exact absurd look Bool.false_ne_true
  | letter _ look ht =>
      rw [ht]
      refine ⟨fun e => ?_, fun e => by simp at e⟩
      rw [e, Option.any_some, hm.2.2] at look
      exact absurd look Bool.false_ne_true
  | mark d _ look ht => simp [look, ht]

/-- A mark that stands at the cursor is the next token. -/
theorem tokens_drop_of_lookahead {c : Cursor} {ch : Char} (hm : IsMark ch)
    (h : c.lookahead = some ch) : c.tokens = mark ch :: (c.drop 1).tokens := by
  obtain ⟨p, rest⟩ := c
  cases rest with
  | nil => exact nomatch h
  | cons d rest =>
      obtain rfl : d = ch := by simpa [lookahead] using h
      exact scan_isMark hm rest

/-- Past the spaces the text is at its end exactly if no token is left. -/
theorem lookahead_eq_none {c : Cursor} (h : c.lookahead ≠ some ' ') :
    c.lookahead = none ↔ c.tokens = [] := by
  cases sight h with
  | ended look ht => simp [look, ht]
  | figure look ht | letter _ look ht =>
      rw [ht]
      refine ⟨fun e => ?_, fun e => nomatch e⟩
      rw [e] at look
      exact absurd look Bool.false_ne_true
  | mark d _ look ht => simp [look, ht]

end Cursor

namespace Operator

/-- Every operator is written with a mark. -/
theorem isMark_symbol (op : Operator) : IsMark op.symbol := by
  cases op <;> decide

end Operator

namespace Parse.Parser

variable {α : Type} {c : Cursor}

/-- A mark that is the next token is taken. -/
theorem take_of_head {ch : Char} (hm : IsMark ch) {ts : List Token}
    (h : c.tokens = mark ch :: ts) :
    ∃ c', take ch c = ⟨[], .ok (true, c')⟩ ∧ c'.tokens = ts := by
  have look : c.skipSpaces.lookahead = some ch :=
    (Cursor.lookahead_eq_mark c.lookahead_skipSpaces hm).2 (by simp [h])
  refine ⟨c.skipSpaces.drop 1, if_pos look, ?_⟩
  have ht := Cursor.tokens_drop_of_lookahead hm look
  rw [Cursor.tokens_skipSpaces, h] at ht
  exact (List.cons.inj ht).2.symm

/-- A mark that is not the next token is not taken, and only spaces are passed. -/
theorem take_of_ne {ch : Char} (hm : IsMark ch) (h : c.tokens.head? ≠ some (mark ch)) :
    take ch c = ⟨[], .ok (false, c.skipSpaces)⟩ := by
  refine if_neg fun look => h ?_
  rw [← c.tokens_skipSpaces]
  exact (Cursor.lookahead_eq_mark c.lookahead_skipSpaces hm).1 look

/-- A mark is taken or it is not the next token. -/
theorem take_cases (ch : Char) (hm : IsMark ch) (c : Cursor) :
    (∃ c', take ch c = ⟨[], .ok (true, c')⟩ ∧ c.tokens = mark ch :: c'.tokens) ∨
      (take ch c = ⟨[], .ok (false, c.skipSpaces)⟩ ∧ c.tokens.head? ≠ some (mark ch)) := by
  by_cases h : c.tokens.head? = some (mark ch)
  · obtain ⟨ts, ht⟩ := List.head?_eq_some_iff.1 h
    obtain ⟨c', hc, hts⟩ := take_of_head hm ht
    exact Or.inl ⟨c', hc, by rw [ht, hts]⟩
  · exact Or.inr ⟨take_of_ne hm h, h⟩

/-- An operator whose symbol is the next token is taken. -/
theorem takeOperator_of_head {ops : List Operator} {op : Operator} (hop : op ∈ ops)
    {ts : List Token} (h : c.tokens = mark op.symbol :: ts) :
    ∃ c', takeOperator ops c = ⟨[], .ok (some op, c')⟩ ∧ c'.tokens = ts := by
  have look : c.skipSpaces.lookahead = some op.symbol :=
    (Cursor.lookahead_eq_mark c.lookahead_skipSpaces op.isMark_symbol).2 (by simp [h])
  have hfind : ops.find? (fun o => c.skipSpaces.lookahead == some o.symbol) = some op := by
    cases hf : ops.find? (fun o => c.skipSpaces.lookahead == some o.symbol) with
    | none => exact absurd (by simp [look]) (List.find?_eq_none.1 hf op hop)
    | some o =>
        -- distinct operators have distinct symbols, so the first one found is this one
        have ho := List.find?_some hf
        rw [look, beq_iff_eq, Option.some.injEq] at ho
        rw [Operator.symbol_inj ho]
  refine ⟨c.skipSpaces.drop 1, ?_, ?_⟩
  · simp only [takeOperator, hfind]
  · have ht := Cursor.tokens_drop_of_lookahead op.isMark_symbol look
    rw [Cursor.tokens_skipSpaces, h] at ht
    exact (List.cons.inj ht).2.symm

/-- If the next token is the symbol of none of the operators, none is taken. -/
theorem takeOperator_of_ne {ops : List Operator}
    (h : ∀ op ∈ ops, c.tokens.head? ≠ some (mark op.symbol)) :
    takeOperator ops c = ⟨[], .ok (none, c.skipSpaces)⟩ := by
  have hfind : ops.find? (fun o => c.skipSpaces.lookahead == some o.symbol) = none := by
    refine List.find?_eq_none.2 fun op hop look => h op hop ?_
    rw [← c.tokens_skipSpaces]
    exact (Cursor.lookahead_eq_mark c.lookahead_skipSpaces op.isMark_symbol).1 (by simpa using look)
  simp only [takeOperator, hfind]

/-- An operator is taken, or the next token is the symbol of none of them. -/
theorem takeOperator_cases (ops : List Operator) (c : Cursor) :
    (∃ op c', takeOperator ops c = ⟨[], .ok (some op, c')⟩ ∧ op ∈ ops ∧
        c.tokens = mark op.symbol :: c'.tokens) ∨
      (takeOperator ops c = ⟨[], .ok (none, c.skipSpaces)⟩ ∧
        ∀ op ∈ ops, c.tokens.head? ≠ some (mark op.symbol)) := by
  by_cases h : ∃ op ∈ ops, c.tokens.head? = some (mark op.symbol)
  · obtain ⟨op, hop, hh⟩ := h
    obtain ⟨ts, ht⟩ := List.head?_eq_some_iff.1 hh
    obtain ⟨c', hc, hts⟩ := takeOperator_of_head hop ht
    exact Or.inl ⟨op, c', hc, hop, by rw [ht, hts]⟩
  · have hne : ∀ op ∈ ops, c.tokens.head? ≠ some (mark op.symbol) :=
      fun op hop hh => h ⟨op, hop, hh⟩
    exact Or.inr ⟨takeOperator_of_ne hne, hne⟩

end Parse.Parser

end LiveArith
