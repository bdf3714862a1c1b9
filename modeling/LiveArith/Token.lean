import LiveArith.Number.Literal
import LiveArith.Scope

/-! # Tokens — a text without its spacing

    A text falls into longest runs of digits and dots, longest runs of lowercase
    letters, and single other characters.  Spaces divide runs and are dropped.
    What a text means depends on its tokens alone, so the grammar is stated over
    them, although formulas are parsed character by character. -/

namespace LiveArith

/-- A piece of a text. -/
inductive Token where
  /-- A longest run of digits and dots, whether or not it is a number. -/
  | number (run : List Char)
  /-- A longest run of lowercase letters. -/
  | word (letters : List Char)
  /-- Any other character but the space. -/
  | mark (c : Char)
deriving DecidableEq, Repr

namespace Token

/-- The tokens of a text that starts at a position, each with the place where it starts. -/
def placed (position : Nat) : List Char → List (Nat × Token)
  | [] => []
  | c :: rest =>
    if c = ' ' then placed (position + 1) rest
    else if Literal.isFigure c then
      let run := rest.takeWhile Literal.isFigure
      (position, number (c :: run)) ::
        placed (position + 1 + run.length) (rest.dropWhile Literal.isFigure)
    else if Scope.isLetter c then
      let run := rest.takeWhile Scope.isLetter
      (position, word (c :: run)) ::
        placed (position + 1 + run.length) (rest.dropWhile Scope.isLetter)
    else (position, mark c) :: placed (position + 1) rest
termination_by text => text.length
decreasing_by
  all_goals
    have := (List.dropWhile_suffix Literal.isFigure (l := rest)).length_le
    have := (List.dropWhile_suffix Scope.isLetter (l := rest)).length_le
    simp only [List.length_cons]
    omega

/-- The tokens of a text. -/
def scan (text : List Char) : List Token := (placed 0 text).map Prod.snd

/-- The two kinds of longest runs. -/
inductive RunKind where
  | figures
  | letters

namespace RunKind

/-- The characters of a run. -/
def holds : RunKind → Char → Bool
  | figures => Literal.isFigure
  | letters => Scope.isLetter

/-- The token of a run. -/
def token : RunKind → List Char → Token
  | figures => number
  | letters => word

end RunKind

@[simp] theorem placed_nil (position : Nat) : placed position [] = [] := by
  rw [placed]

/-- The tokens do not depend on where the text starts. -/
theorem map_snd_placed (p q : Nat) (text : List Char) :
    (placed p text).map Prod.snd = (placed q text).map Prod.snd := by
  fun_induction placed p text generalizing q with
  | case1 => simp
  | case2 p rest ih => rw [placed]; simpa using ih (q + 1)
  | case3 p c rest hs hf run ih =>
    rw [placed]
    simpa [hs, hf, run] using ih (q + 1 + run.length)
  | case4 p c rest hs hf hl run ih =>
    rw [placed]
    simpa [hs, hf, hl, run] using ih (q + 1 + run.length)
  | case5 p c rest hs hf hl ih =>
    rw [placed]
    simpa [hs, hf, hl] using ih (q + 1)

/-- **Spaces** at the start of a text change nothing. -/
@[simp] theorem scan_space (text : List Char) : scan (' ' :: text) = scan text := by
  rw [scan, placed]
  simpa [scan] using map_snd_placed 1 0 text

/-- No character belongs to both kinds of runs. -/
theorem isFigure_of_isLetter {c : Char} (h : Scope.isLetter c = true) :
    Literal.isFigure c = false := by
  have hrange : (decide ('a'.val ≤ c.val) && decide (c.val ≤ 'z'.val)) = true := h
  have hlow : 97 ≤ c.val.toNat :=
    UInt32.le_iff_toNat_le.1 (of_decide_eq_true (Bool.and_eq_true_iff.1 hrange).1)
  have hhigh : ¬ c.val ≤ '9'.val := by
    intro h9
    have hle : c.val.toNat ≤ 57 := UInt32.le_iff_toNat_le.1 h9
    omega
  have hdigit : c.isDigit = false := by
    show (decide ('0'.val ≤ c.val) && decide (c.val ≤ '9'.val)) = false
    rw [decide_eq_false hhigh, Bool.and_false]
  have hdot : c ≠ '.' := by
    rintro rfl
    exact absurd hlow (by decide)
  simp [Literal.isFigure, hdigit, hdot]

/-- From a character of a run on, the longest run is the first token. -/
theorem scan_holds (k : RunKind) {c : Char} (h : k.holds c = true) (rest : List Char) :
    scan (c :: rest) =
      k.token (c :: rest.takeWhile k.holds) :: scan (rest.dropWhile k.holds) := by
  cases k with
  | figures =>
      have hf : Literal.isFigure c = true := h
      have hs : c ≠ ' ' := by rintro rfl; simp [Literal.isFigure] at hf
      show _ = number (c :: rest.takeWhile Literal.isFigure) ::
        scan (rest.dropWhile Literal.isFigure)
      rw [scan, placed]
      simpa [hs, hf, scan] using map_snd_placed _ 0 _
  | letters =>
      have hl : Scope.isLetter c = true := h
      have hf := isFigure_of_isLetter hl
      have hs : c ≠ ' ' := by rintro rfl; simp [Scope.isLetter] at hl
      show _ = word (c :: rest.takeWhile Scope.isLetter) :: scan (rest.dropWhile Scope.isLetter)
      rw [scan, placed]
      simpa [hs, hl, hf, scan] using map_snd_placed _ 0 _

/-- Any other character is a token by itself. -/
theorem scan_mark {c : Char} (hs : c ≠ ' ') (hf : Literal.isFigure c = false)
    (hl : Scope.isLetter c = false) (rest : List Char) :
    scan (c :: rest) = mark c :: scan rest := by
  rw [scan, placed]
  simpa [hs, hf, hl, scan] using map_snd_placed _ 0 _

end Token

end LiveArith
