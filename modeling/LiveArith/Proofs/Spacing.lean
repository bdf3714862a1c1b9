import LiveArith.Proofs.Splicing

/-! # Spacing — where a space makes no difference

    A formula is read character by character, yet only its tokens count.  Between
    two parts of a text a space may come or go unless a run goes across the seam;
    inside a run it makes two tokens of one.  The route:

    * a run that goes across the seam is one token of the whole and two of the parts
      (`scan_joined`);
    * the tree of a text tells how many runs the text has (`derives_runs`), so a
      text with a run divided has another tree or none;
    * what builds, and to which tree, is a matter of the tokens (`tree?_eq_some`). -/

namespace LiveArith

open LiveArith.Grammar LiveArith.Parse

namespace Token

/-! ## Divided runs -/

/-- A text that begins in a run begins with a longest run. -/
theorem exists_longest_of_head {p : Char → Bool} {text : List Char}
    (h : ∃ c ∈ text.head?, p c = true) :
    ∃ run rest, text = run ++ rest ∧ Longest p run rest := by
  obtain ⟨c, hc, hp⟩ := h
  obtain ⟨text, rfl⟩ := List.head?_eq_some_iff.1 hc
  refine ⟨_, _, ?_, longest_takeWhile hp text⟩
  rw [List.cons_append, List.takeWhile_append_dropWhile]

/-- A run goes on from characters of its kind before it. -/
theorem Longest.extend {p : Char → Bool} {before run rest : List Char} (h : Longest p run rest)
    (hb : ∀ c ∈ before, p c = true) : Longest p (before ++ run) rest := by
  refine ⟨List.append_ne_nil_of_right_ne_nil before h.ne_nil, ?_, h.ends⟩
  intro c hc
  exact (List.mem_append.1 hc).elim (hb c) (h.all c)

/-- **A DIVIDED RUN.** Where a run goes across the seam of two texts, it is one token of the
    whole and two of the parts. -/
theorem scan_joined {rest : List Char} : ∀ front, Joined front rest →
    ∃ (k : RunKind) (ts us : List Token) (run run' : List Char),
      scan front = ts ++ [k.token run] ∧ scan rest = k.token run' :: us ∧
        scan (front ++ rest) = ts ++ k.token (run ++ run') :: us := by
  intro front
  induction front using text_induction with
  | nil => exact fun h => absurd h (not_joined_nil rest)
  | space front ih =>
      intro h
      by_cases hne : front = []
      · subst hne
        exact absurd h (not_joined_space rest)
      · obtain ⟨k, ts, us, run, run', hf, hr, hw⟩ := ih (joined_append [' '] hne h)
        exact ⟨k, ts, us, run, run', by rwa [scan_space], hr, by rwa [List.cons_append, scan_space]⟩
  | run k run front hr ih =>
      intro h
      by_cases hne : front = []
      · subst hne
        -- the run is the last thing before the seam, so it is the one that goes across
        obtain ⟨k', ⟨c, hc, hk⟩, d, hd, hk'⟩ := h
        rw [List.append_nil] at hc
        obtain rfl := RunKind.holds_unique hk (hr.all c (List.mem_of_getLast? hc))
        obtain ⟨run', rest', rfl, hr'⟩ := exists_longest_of_head ⟨d, hd, hk'⟩
        refine ⟨k', [], scan rest', run, run', ?_, scan_run k' hr', ?_⟩
        · rw [scan_run k' hr, scan_nil]
          rfl
        · rw [List.append_nil, ← List.append_assoc, scan_run k' (hr'.extend hr.all)]
          rfl
      · have hlong : Longest k.holds run (front ++ rest) := by
          refine ⟨hr.ne_nil, hr.all, ?_⟩
          intro c hc
          rw [List.head?_append_of_ne_nil _ hne] at hc
          exact hr.ends c hc
        obtain ⟨k', ts, us, run₁, run₂, hf, hs, hw⟩ := ih (joined_append run hne h)
        refine ⟨k', k.token run :: ts, us, run₁, run₂, ?_, hs, ?_⟩
        · rw [scan_run k hr, hf, List.cons_append]
        · rw [List.append_assoc, scan_run k hlong, hw, List.cons_append]
  | mark c front hm ih =>
      intro h
      by_cases hne : front = []
      · subst hne
        exact absurd h (not_joined_mark hm rest)
      · obtain ⟨k, ts, us, run, run', hf, hr, hw⟩ := ih (joined_append [c] hne h)
        refine ⟨k, Token.mark c :: ts, us, run, run', ?_, hr, ?_⟩
        · rw [scan_isMark hm, hf, List.cons_append]
        · rw [List.cons_append, scan_isMark hm, hw, List.cons_append]

/-- A space between two parts makes no difference exactly where no run goes across the seam. -/
theorem scan_append_space_iff (front rest : List Char) :
    scan (front ++ ' ' :: rest) = scan (front ++ rest) ↔ ¬ Joined front rest := by
  rw [scan_append_space]
  constructor
  · intro h hj
    obtain ⟨k, ts, us, run, run', hf, hr, hw⟩ := scan_joined front hj
    rw [hf, hr, hw] at h
    have hlen := congrArg List.length h
    simp only [List.length_append, List.length_cons, List.length_nil] at hlen
    omega
  · intro hj
    rw [scan_append_of_not_joined front hj]

/-- The characters of a token. -/
def chars : Token → List Char
  | number run => run
  | word letters => letters
  | mark c => [c]

/-- The token of a run has the characters of the run. -/
theorem RunKind.chars_token (k : RunKind) (run : List Char) : (k.token run).chars = run := by
  cases k <;> rfl

/-- **SPACES ALONE.** Of the characters of a text its tokens leave out the spaces and no other. -/
theorem chars_scan (text : List Char) :
    (scan text).flatMap chars = text.filter (· ≠ ' ') := by
  induction text using text_induction with
  | nil => rw [scan_nil]; rfl
  | space rest ih =>
      rw [scan_space, ih, List.filter_cons_of_neg (by decide)]
  | run k run rest hr ih =>
      have hrun : run.filter (· ≠ ' ') = run := by
        refine List.filter_eq_self.2 fun c hc => ?_
        have hk := hr.all c hc
        have hne : c ≠ ' ' := by
          rintro rfl
          exact nomatch k.holds_space.symm.trans hk
        exact decide_eq_true hne
      rw [scan_run k hr, List.flatMap_cons, k.chars_token, ih, List.filter_append, hrun]
  | mark c rest hm ih =>
      rw [scan_isMark hm, List.flatMap_cons, ih]
      simp [chars, hm.1]

end Token

/-! ## Runs in a tree -/

/-- The token is a run. -/
def Token.isRun : Token → Bool
  | number _ => true
  | word _ => true
  | mark _ => false

theorem Token.RunKind.isRun_token (k : RunKind) (run : List Char) : (k.token run).isRun = true := by
  cases k <;> rfl

theorem Token.countP_isRun_mark (c : Char) (ts : List Token) :
    (mark c :: ts).countP isRun = ts.countP isRun :=
  List.countP_cons_of_neg Bool.false_ne_true

/-- How many nodes of a tree are written by a run: its leaves and its calls. -/
def Tree.runs : Tree → Nat
  | constant _ => 1
  | cell _ => 1
  | negate t => t.runs
  | binary l _ r => l.runs + r.runs
  | call _ t => t.runs + 1

/-- The runs of the tree that is read before a phrase. -/
def Grammar.Phrase.runsBefore : Phrase → Nat
  | moreTerms left => left.runs
  | moreFactors left => left.runs
  | _ => 0

/-- **RUNS.** Every run of a phrase is a node of its tree. -/
theorem derives_runs {scope : Scope} {phrase : Phrase} {n : Nat} {ts : List Token} {t : Tree}
    (h : Derives scope phrase n ts t) :
    phrase.runsBefore + ts.countP Token.isRun = t.runs := by
  induction h with
  | expression _ _ ih₁ ih₂ | term _ _ ih₁ ih₂ =>
      simp only [Phrase.runsBefore, List.countP_append] at *
      omega
  | lastTerm | lastFactor => rfl
  | nextTerm _ _ _ ih₁ ih₂ | nextFactor _ _ _ ih₁ ih₂ =>
      simp only [Phrase.runsBefore, List.cons_append, Token.countP_isRun_mark, List.countP_append,
        Tree.runs] at *
      omega
  | plus _ ih | minus _ ih =>
      rw [Token.countP_isRun_mark]
      exact ih
  | call _ _ ih =>
      rw [List.countP_cons_of_pos rfl, ← Nat.add_assoc]
      exact congrArg (· + 1) ih
  | bare _ ih => exact ih
  | power _ _ ih₁ ih₂ =>
      simp only [Phrase.runsBefore, List.countP_append, Token.countP_isRun_mark, Tree.runs] at *
      omega
  | group _ ih =>
      rw [List.cons_append, Token.countP_isRun_mark, List.countP_append, Token.countP_isRun_mark]
      exact ih
  | number _ | name _ => rfl

/-! ## Builds -/

namespace Draft

/-- A text builds to the tree that its tokens have within the limit. -/
theorem tree?_eq_some {d : Draft} {s : Store} {t : Tree} :
    (d.build s).tree? = some t ↔
      Derives d.scope .expression maxDepth (Token.scan d.source.toList) t := by
  rw [Report.tree?_eq_some, build]
  constructor
  · rintro ⟨f, hf, rfl⟩
    exact ((buildWithin_eq_ok_iff s f).1 hf).2
  · intro h
    exact ⟨⟨d.source, t⟩, (buildWithin_eq_ok_iff s _).2 ⟨rfl, h⟩, rfl⟩

/-- A text with a run divided has another tree than the text itself, or one of them has none. -/
theorem tree?_of_joined (d : Draft) (s s' : Store) {front rest : List Char}
    (h : Token.Joined front rest) (t : Tree) :
    ¬ (((d.withSource (String.ofList (front ++ ' ' :: rest))).build s).tree? = some t ∧
      ((d.withSource (String.ofList (front ++ rest))).build s').tree? = some t) := by
  rintro ⟨hd, hw⟩
  have hdivided := derives_runs (tree?_eq_some.1 hd)
  have hwhole := derives_runs (tree?_eq_some.1 hw)
  obtain ⟨k, ts, us, run, run', hf, hr, hj⟩ := Token.scan_joined front h
  simp only [withSource, String.toList_ofList, Token.scan_append_space, hf, hr, hj]
    at hdivided hwhole
  simp only [List.countP_append, List.countP_cons, List.countP_nil, k.isRun_token, if_true]
    at hdivided hwhole
  omega

/-- **SPACING.** Texts of the same tokens build alike, to the same tree.  So a space may come and
    go between the parts of a text where no run goes across the seam; where one does, the tree is
    another.  No other character is left out of the tokens. -/
theorem build_spacing (d : Draft) (s s' : Store) :
    (∀ a b : String, Token.scan a.toList = Token.scan b.toList →
      ((d.withSource a).build s).tree? = ((d.withSource b).build s').tree?) ∧
    (∀ front rest, Token.scan (front ++ ' ' :: rest) = Token.scan (front ++ rest) ↔
      ¬ Token.Joined front rest) ∧
    (∀ front rest, Token.Joined front rest → ∀ t,
      ¬ (((d.withSource (String.ofList (front ++ ' ' :: rest))).build s).tree? = some t ∧
        ((d.withSource (String.ofList (front ++ rest))).build s').tree? = some t)) ∧
    ∀ text, (Token.scan text).flatMap Token.chars = text.filter (· ≠ ' ') := by
  refine ⟨?_, Token.scan_append_space_iff, fun front rest h => d.tree?_of_joined s s' h,
    Token.chars_scan⟩
  intro a b h
  refine Option.ext fun t => ?_
  rw [tree?_eq_some, tree?_eq_some]
  show Derives d.scope .expression maxDepth (Token.scan a.toList) t ↔
    Derives d.scope .expression maxDepth (Token.scan b.toList) t
  rw [h]

/-- Spaces about the marks of a product change nothing; one inside a name makes another tree. -/
theorem tree?_spacedProduct :
    (Token.scan " x* - x ^y".toList = Token.scan "x*-x^y".toList ∧
      ((twoNames.withSource " x* - x ^y").build .empty).tree? =
        ((twoNames.withSource "x*-x^y").build .empty).tree?) ∧
    (Token.Joined ['x'] ['y'] ∧
      ¬ (((twoNames.withSource (String.ofList (['x'] ++ ' ' :: ['y']))).build .empty).tree? =
          some (.cell ⟨0⟩) ∧
        ((twoNames.withSource (String.ofList (['x'] ++ ['y']))).build .empty).tree? =
          some (.cell ⟨0⟩))) := by
  obtain ⟨htokens, -, hjoined, -⟩ := build_spacing twoNames .empty .empty
  have hscan : Token.scan " x* - x ^y".toList = Token.scan "x*-x^y".toList := by decide +kernel
  have hseam : Token.Joined ['x'] ['y'] := ⟨.letters, ⟨'x', rfl, rfl⟩, 'y', rfl, rfl⟩
  exact ⟨⟨hscan, htokens _ _ hscan⟩, hseam, hjoined _ _ hseam _⟩

end Draft

end LiveArith
