import Mathlib.Data.List.Basic
import Mathlib.Data.List.TakeWhile
import LiveArith.Token

/-! # Scanning — the tokens of a text made of parts

    A text is empty, or it begins with a space, a mark or a longest run, and the
    rest is a text again.  Runs are of two kinds, which differ only in their
    characters and in the token they make (`RunKind`).  Proofs about all texts go by
    these cases (`text_induction`) and need not look inside a run.  The route:

    * each case has its token (`scan_run`, `scan_isMark`);
    * where no run goes across the seam of two texts, no token does and the tokens
      add up (`scan_append_of_not_joined`), so they do where the second text does not
      begin with a run (`scan_append`). -/

namespace LiveArith

namespace Token

/-! ## Runs and marks -/

/-- The character is a token by itself: neither a space nor part of a run. -/
def IsMark (c : Char) : Prop :=
  c ≠ ' ' ∧ Literal.isFigure c = false ∧ Scope.isLetter c = false

instance (c : Char) : Decidable (IsMark c) :=
  inferInstanceAs (Decidable (_ ∧ _ ∧ _))

/-- A figure is no letter. -/
theorem isLetter_of_isFigure {c : Char} (h : Literal.isFigure c = true) :
    Scope.isLetter c = false := by
  cases hl : Scope.isLetter c with
  | false => rfl
  | true => exact nomatch (isFigure_of_isLetter hl).symm.trans h

namespace RunKind

/-- A space ends a run. -/
theorem holds_space (k : RunKind) : k.holds ' ' = false := by
  cases k <;> decide

/-- A mark ends a run. -/
theorem holds_of_isMark (k : RunKind) {c : Char} (h : IsMark c) : k.holds c = false := by
  cases k with
  | figures => exact h.2.1
  | letters => exact h.2.2

/-- What is no space and in no run is a mark. -/
theorem isMark_of_holds {c : Char} (hs : c ≠ ' ') (h : ∀ k : RunKind, k.holds c = false) :
    IsMark c :=
  ⟨hs, h .figures, h .letters⟩

/-- The token of a run tells its kind and its characters. -/
theorem token_inj {k k' : RunKind} {run run' : List Char} (h : k.token run = k'.token run') :
    k = k' ∧ run = run' := by
  cases k <;> cases k' <;> simp [token] at h <;> exact ⟨rfl, h⟩

/-- The token of a run is no mark. -/
theorem token_ne_mark (k : RunKind) (run : List Char) (c : Char) : k.token run ≠ mark c := by
  cases k <;> simp [token]

/-- A character belongs to runs of one kind. -/
theorem holds_unique {k k' : RunKind} {c : Char} (h : k.holds c = true)
    (h' : k'.holds c = true) : k = k' := by
  cases k with
  | figures =>
      cases k' with
      | figures => rfl
      | letters => exact nomatch (isLetter_of_isFigure h).symm.trans h'
  | letters =>
      cases k' with
      | figures => exact nomatch (isFigure_of_isLetter h).symm.trans h'
      | letters => rfl

end RunKind

/-- A run of a class of characters that is as long as it can be before the rest. -/
structure Longest (p : Char → Bool) (run rest : List Char) : Prop where
  ne_nil : run ≠ []
  all : ∀ c ∈ run, p c = true
  ends : ∀ c ∈ rest.head?, p c = false

section Runs

variable {p : Char → Bool} {run rest : List Char}

/-- From a character of a run on, what is taken is a longest run. -/
theorem longest_takeWhile {c : Char} (h : p c = true) (rest : List Char) :
    Longest p (c :: rest.takeWhile p) (rest.dropWhile p) := by
  refine ⟨List.cons_ne_nil c _, ?_, ?_⟩
  · intro d hd
    rcases List.mem_cons.1 hd with rfl | hd
    · exact h
    · exact List.mem_takeWhile_imp hd
  · intro d hd
    have hdrop := List.head?_dropWhile_not p rest
    rw [Option.mem_def.1 hd] at hdrop
    exact hdrop

/-- A longest run is what is taken from the text that begins with it. -/
theorem Longest.takeWhile_cons {c : Char} (h : Longest p (c :: run) rest) :
    (run ++ rest).takeWhile p = run ∧ (run ++ rest).dropWhile p = rest := by
  have hrun : ∀ d ∈ run, p d = true := fun d hd => h.all d (List.mem_cons_of_mem c hd)
  rw [List.takeWhile_append_of_pos hrun, List.dropWhile_append_of_pos hrun]
  cases rest with
  | nil => simp
  | cons d rest => simp [h.ends d rfl]

end Runs

/-- **TEXT INDUCTION.** What the empty text has, and every text has if it is left by a space, a
    longest run or a mark, all texts have. -/
theorem text_induction {motive : List Char → Prop} (nil : motive [])
    (space : ∀ rest, motive rest → motive (' ' :: rest))
    (run : ∀ (k : RunKind) run rest, Longest k.holds run rest → motive rest →
      motive (run ++ rest))
    (mark : ∀ c rest, IsMark c → motive rest → motive (c :: rest)) :
    ∀ text, motive text := by
  intro text
  -- on the length: a step goes past a whole run
  induction hn : text.length using Nat.strongRecOn generalizing text with
  | ind n ih =>
      cases text with
      | nil => exact nil
      | cons c rest =>
          have shorter : ∀ tail, tail <:+ rest → motive tail := by
            intro tail ht
            have hl := ht.length_le
            rw [List.length_cons] at hn
            exact ih tail.length (by omega) tail rfl
          by_cases hs : c = ' '
          · subst hs
            exact space rest (shorter rest (List.suffix_refl rest))
          by_cases hrun : ∃ k : RunKind, k.holds c = true
          · obtain ⟨k, hk⟩ := hrun
            have hsplit : c :: rest = (c :: rest.takeWhile k.holds) ++ rest.dropWhile k.holds := by
              rw [List.cons_append, List.takeWhile_append_dropWhile]
            rw [hsplit]
            exact run k _ _ (longest_takeWhile hk rest) (shorter _ (List.dropWhile_suffix _))
          · have hmark : IsMark c :=
              RunKind.isMark_of_holds hs fun k => Bool.eq_false_iff.2 fun hk => hrun ⟨k, hk⟩
            exact mark c rest hmark (shorter rest (List.suffix_refl rest))

/-! ## The tokens of the parts -/

@[simp] theorem scan_nil : scan [] = [] := by
  rw [scan, placed_nil]
  rfl

/-- A mark is a token. -/
theorem scan_isMark {c : Char} (h : IsMark c) (rest : List Char) :
    scan (c :: rest) = mark c :: scan rest :=
  scan_mark h.1 h.2.1 h.2.2 rest

/-- A longest run is a token. -/
theorem scan_run (k : RunKind) {run rest : List Char} (h : Longest k.holds run rest) :
    scan (run ++ rest) = k.token run :: scan rest := by
  cases run with
  | nil => exact absurd rfl h.ne_nil
  | cons c run =>
      obtain ⟨ht, hd⟩ := h.takeWhile_cons
      rw [List.cons_append, scan_holds k (h.all c List.mem_cons_self), ht, hd]

/-- A text that is one run has one token. -/
theorem scan_whole_run (k : RunKind) {run : List Char} (hne : run ≠ [])
    (h : ∀ c ∈ run, k.holds c = true) : scan run = [k.token run] := by
  have hs := @scan_run k run [] ⟨hne, h, nofun⟩
  rwa [List.append_nil, scan_nil] at hs

/-! ## Seams -/

/-- A run goes across the seam of two texts. -/
def Joined (front rest : List Char) : Prop :=
  ∃ k : RunKind, (∃ c ∈ front.getLast?, k.holds c = true) ∧ ∃ c ∈ rest.head?, k.holds c = true

/-- Nothing goes on from an empty text. -/
theorem not_joined_nil (rest : List Char) : ¬ Joined [] rest := by
  rintro ⟨-, ⟨c, hc, -⟩, -⟩
  exact nomatch hc

/-- What stands before the first text does not matter to its seam. -/
theorem Joined.prepend {front rest : List Char} (h : Joined front rest) (before : List Char) :
    Joined (before ++ front) rest := by
  obtain ⟨k, ⟨c, hc, hk⟩, hrest⟩ := h
  exact ⟨k, ⟨c, List.mem_getLast?_append_of_mem_getLast? hc, hk⟩, hrest⟩

/-- A seam is a matter of the last characters before it. -/
theorem joined_append (before : List Char) {front rest : List Char} (hne : front ≠ [])
    (h : Joined (before ++ front) rest) : Joined front rest := by
  rwa [Joined, List.getLast?_append_of_ne_nil _ hne] at h

/-- No run goes on over a space. -/
theorem not_joined_space (text : List Char) : ¬ Joined [' '] text := by
  rintro ⟨k, ⟨ch, hch, hk⟩, -⟩
  obtain rfl := Option.some.inj hch
  exact nomatch k.holds_space.symm.trans hk

/-- No run goes on over a mark. -/
theorem not_joined_mark {c : Char} (h : IsMark c) (text : List Char) : ¬ Joined [c] text := by
  rintro ⟨k, ⟨ch, hch, hk⟩, -⟩
  obtain rfl := Option.some.inj hch
  exact nomatch (k.holds_of_isMark h).symm.trans hk

/-- A longest run does not go on. -/
theorem Longest.not_joined {k : RunKind} {run rest : List Char} (h : Longest k.holds run rest) :
    ¬ Joined run rest := by
  rintro ⟨k', ⟨ch, hch, hk⟩, d, hd, hk'⟩
  obtain rfl := RunKind.holds_unique hk (h.all ch (List.mem_of_getLast? hch))
  exact nomatch (h.ends d hd).symm.trans hk'

/-- A run ends at the end of its text or goes on over the seam. -/
theorem Longest.append_of_not_joined {k : RunKind} {run front rest : List Char}
    (h : Longest k.holds run front) (hj : ¬ Joined (run ++ front) rest) :
    Longest k.holds run (front ++ rest) := by
  refine ⟨h.ne_nil, h.all, ?_⟩
  intro c hc
  cases front with
  | cons d front => exact h.ends c hc
  | nil =>
      by_contra hk
      have hlast := List.getLast_mem h.ne_nil
      refine hj ⟨k, ⟨run.getLast h.ne_nil, ?_, h.all _ hlast⟩, c, hc, by simpa using hk⟩
      rw [List.append_nil]
      exact List.getLast?_eq_some_getLast h.ne_nil

/-- **PARTS.** Where no run goes across the seam of two texts, their tokens add up. -/
theorem scan_append_of_not_joined {rest : List Char} :
    ∀ front, ¬ Joined front rest → scan (front ++ rest) = scan front ++ scan rest := by
  intro front
  induction front using text_induction with
  | nil =>
      intro _
      rw [scan_nil, List.nil_append, List.nil_append]
  | space front ih =>
      intro hj
      rw [List.cons_append, scan_space, scan_space, ih fun h => hj (h.prepend [' '])]
  | run k run front hr ih =>
      intro hj
      rw [List.append_assoc, scan_run k (hr.append_of_not_joined hj), scan_run k hr,
        ih fun h => hj (h.prepend run), List.cons_append]
  | mark c front hm ih =>
      intro hj
      rw [List.cons_append, scan_isMark hm, scan_isMark hm, ih fun h => hj (h.prepend [c]),
        List.cons_append]

/-- Where the second text does not begin with a run, the tokens of two texts add up. -/
theorem scan_append {rest : List Char} (h : ∀ k : RunKind, ∀ c ∈ rest.head?, k.holds c = false)
    (text : List Char) : scan (text ++ rest) = scan text ++ scan rest := by
  refine scan_append_of_not_joined text ?_
  rintro ⟨k, -, c, hc, hk⟩
  exact nomatch (h k c hc).symm.trans hk

/-- A mark between two texts is a token between their tokens. -/
theorem scan_append_mark {c : Char} (h : IsMark c) (text rest : List Char) :
    scan (text ++ c :: rest) = scan text ++ mark c :: scan rest := by
  have hhead : ∀ k : RunKind, ∀ d ∈ (c :: rest).head?, k.holds d = false := by
    rintro k d hd
    obtain rfl := Option.some.inj hd
    exact k.holds_of_isMark h
  rw [scan_append hhead, scan_isMark h]

/-- A space between two texts parts their tokens. -/
theorem scan_append_space (text rest : List Char) :
    scan (text ++ ' ' :: rest) = scan text ++ scan rest := by
  have hhead : ∀ k : RunKind, ∀ d ∈ (' ' :: rest).head?, k.holds d = false := by
    rintro k d hd
    obtain rfl := Option.some.inj hd
    exact k.holds_space
  rw [scan_append hhead, scan_space]

section Spaces

variable {spaces : List Char}

/-- Spaces before a text are no tokens. -/
theorem scan_spaces_append (h : ∀ c ∈ spaces, c = ' ') (text : List Char) :
    scan (spaces ++ text) = scan text := by
  induction spaces with
  | nil => rfl
  | cons c spaces ih =>
      obtain rfl : c = ' ' := h c List.mem_cons_self
      rw [List.cons_append, scan_space, ih fun d hd => h d (List.mem_cons_of_mem ' ' hd)]

/-- Spaces behind a text are no tokens. -/
theorem scan_append_spaces (h : ∀ c ∈ spaces, c = ' ') (text : List Char) :
    scan (text ++ spaces) = scan text := by
  induction spaces with
  | nil => rw [List.append_nil]
  | cons c spaces ih =>
      obtain rfl : c = ' ' := h c List.mem_cons_self
      have hrest := ih fun d hd => h d (List.mem_cons_of_mem ' ' hd)
      have hspaces := scan_spaces_append (fun d hd => h d (List.mem_cons_of_mem ' ' hd)) []
      rw [List.append_nil, scan_nil] at hspaces
      rw [scan_append_space, hspaces, List.append_nil]

end Spaces

end Token

end LiveArith
