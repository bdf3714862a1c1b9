import LiveArith.Proofs.Language

/-! # Splicing — a formula in place of a name

    A formula in parentheses may stand wherever a name may, and it means there what
    the name would mean if its cell held the value of the formula.  The route:

    * on texts: what is put in between parentheses touches no other token, so the
      tokens are spliced as the text is (`scan_splice`);
    * on derivations: a group stands wherever the name stood, with as many more
      levels as the formula nests (`derives_replace`);
    * on trees: `Tree.eval_substitute` gives the value. -/

namespace LiveArith

open LiveArith.Grammar LiveArith.Parse

/-! ## Texts -/

namespace Token

/-- Every longest run of lowercase letters that is the name is replaced by the inserted text in
    parentheses. -/
def splice (name inserted : List Char) : List Char → List Char
  | [] => []
  | c :: rest =>
    if Scope.isLetter c then
      let letters := c :: rest.takeWhile Scope.isLetter
      (if letters = name then '(' :: inserted ++ [')'] else letters) ++
        splice name inserted (rest.dropWhile Scope.isLetter)
    else c :: splice name inserted rest
termination_by text => text.length
decreasing_by
  · have := (List.dropWhile_suffix Scope.isLetter (l := rest)).length_le
    simp only [List.length_cons]
    omega
  · exact Nat.lt_succ_self _

/-- The tokens that a token becomes where the tokens are spliced. -/
def spliced (name : List Char) (inserted : List Token) : Token → List Token
  | word letters => if letters = name then mark '(' :: inserted ++ [mark ')'] else [word letters]
  | number run => [number run]
  | mark c => [mark c]

section Splice

variable (name inserted : List Char)

@[simp] theorem splice_nil : splice name inserted [] = [] := by
  rw [splice]

/-- A character that is no letter is left as it is. -/
theorem splice_other {c : Char} (h : Scope.isLetter c = false) (rest : List Char) :
    splice name inserted (c :: rest) = c :: splice name inserted rest := by
  rw [splice]
  simp [h]

/-- What has no letters is left as it is. -/
theorem splice_append {front : List Char} (h : ∀ c ∈ front, Scope.isLetter c = false)
    (rest : List Char) :
    splice name inserted (front ++ rest) = front ++ splice name inserted rest := by
  induction front with
  | nil => rfl
  | cons c front ih =>
      have hc : Scope.isLetter c = false := h c List.mem_cons_self
      rw [List.cons_append, splice_other name inserted hc,
        ih fun d hd => h d (List.mem_cons_of_mem c hd), List.cons_append]

/-- A spliced text begins as the text does, or with a parenthesis. -/
theorem head_splice (text : List Char) :
    ∀ y ∈ (splice name inserted text).head?, y = '(' ∨ y ∈ text.head? := by
  intro y hy
  cases text with
  | nil => rw [splice_nil] at hy; exact Or.inr hy
  | cons c rest =>
      cases hc : Scope.isLetter c with
      | false =>
          rw [splice_other name inserted hc] at hy
          exact Or.inr hy
      | true =>
          rw [splice] at hy
          simp only [hc, if_true] at hy
          split at hy
          · exact Or.inl (by simpa using hy.symm)
          · exact Or.inr hy

/-- A longest run of letters is replaced or kept as a whole. -/
theorem splice_letters {run rest : List Char} (h : Longest Scope.isLetter run rest) :
    splice name inserted (run ++ rest) =
      (if run = name then '(' :: inserted ++ [')'] else run) ++ splice name inserted rest := by
  cases run with
  | nil => exact absurd rfl h.ne_nil
  | cons c run =>
      obtain ⟨ht, hd⟩ := h.takeWhile_cons
      have hc : Scope.isLetter c = true := h.all c List.mem_cons_self
      rw [List.cons_append, splice]
      simp only [hc, if_true, ht, hd]

/-- A run before a spliced text is as long as before the text. -/
theorem Longest.splice {p : Char → Bool} (hp : p '(' = false) {run rest : List Char}
    (h : Longest p run rest) : Longest p run (Token.splice name inserted rest) := by
  refine ⟨h.ne_nil, h.all, ?_⟩
  intro c hc
  rcases head_splice name inserted rest c hc with rfl | hc
  · exact hp
  · exact h.ends c hc

/-- **SPLICED TEXTS.** The tokens of a spliced text are the spliced tokens. -/
theorem scan_splice (text : List Char) :
    scan (splice name inserted text) =
      (scan text).flatMap (spliced name (scan inserted)) := by
  induction text using text_induction with
  | nil => rw [splice_nil, scan_nil, List.flatMap_nil]
  | space rest ih => rw [splice_other name inserted (by decide), scan_space, scan_space, ih]
  | run k run rest hr ih =>
      -- behind the run comes what came before or a parenthesis, so the run is as long
      have hr' := hr.splice name inserted (k.holds_of_isMark (by decide))
      cases k with
      | figures =>
          have hno : ∀ c ∈ run, Scope.isLetter c = false :=
            fun c hc => isLetter_of_isFigure (hr.all c hc)
          rw [splice_append name inserted hno, scan_run .figures hr', scan_run .figures hr, ih]
          rfl
      | letters =>
          rw [splice_letters name inserted hr, scan_run .letters hr, List.flatMap_cons, ← ih]
          by_cases hn : run = name
          · -- the parentheses are marks, so what is between them is scanned by itself
            rw [if_pos hn, RunKind.token, spliced, if_pos hn, List.cons_append, List.cons_append,
              List.append_assoc, scan_isMark (by decide), List.singleton_append,
              scan_append_mark (by decide)]
            simp
          · rw [if_neg hn, RunKind.token, spliced, if_neg hn, scan_run .letters hr']
            rfl
  | mark c rest hm ih =>
      rw [splice_other name inserted hm.2.2, scan_isMark hm, scan_isMark hm, ih]
      rfl

end Splice

end Token

/-! ## Derivations -/

/-- The phrase after a cell was replaced in the tree before it. -/
def Grammar.Phrase.replace (c : Cell) (u : Tree) : Phrase → Phrase
  | .moreTerms left => .moreTerms (left.replace c u)
  | .moreFactors left => .moreFactors (left.replace c u)
  | phrase => phrase

section Replace

variable {scope : Scope} {name : List Char} {c : Cell} {m : Nat} {us : List Token} {u : Tree}

/-- **REPLACEMENT.** A formula in parentheses stands wherever the only name of a cell stands, and
    takes the place of the cell in the tree. -/
theorem derives_replace (hc : scope.find? (String.ofList name) = some c)
    (honly : ∀ other, scope.find? other = some c → other = String.ofList name)
    (hu : Derives scope .expression m us u) {phrase : Phrase} {n : Nat} {ts : List Token}
    {t : Tree} (h : Derives scope phrase n ts t) :
    Derives scope (phrase.replace c u) (n + m) (ts.flatMap (Token.spliced name us))
      (t.replace c u) := by
  induction h with
  | @expression n _ _ _ _ _ _ ih₁ ih₂ =>
      rw [List.flatMap_append, Nat.add_right_comm n 1 m]
      exact .expression ih₁ ih₂
  | term _ _ ih₁ ih₂ =>
      rw [List.flatMap_append]
      exact .term ih₁ ih₂
  | lastTerm => exact .lastTerm
  | @nextTerm n _ _ _ _ _ _ hop _ _ ih₁ ih₂ =>
      rw [List.flatMap_append, List.flatMap_cons, Nat.add_right_comm n 1 m]
      exact .nextTerm hop ih₁ ih₂
  | lastFactor => exact .lastFactor
  | @nextFactor n _ _ _ _ _ _ hop _ _ ih₁ ih₂ =>
      rw [List.flatMap_append, List.flatMap_cons, Nat.add_right_comm n 1 m]
      exact .nextFactor hop ih₁ ih₂
  | @plus n _ _ _ ih =>
      rw [List.flatMap_cons, Nat.add_right_comm n 1 m]
      exact .plus ih
  | @minus n _ _ _ ih =>
      rw [List.flatMap_cons, Nat.add_right_comm n 1 m]
      exact .minus ih
  | @call n letters f _ _ hf _ ih =>
      -- a bound name is no function
      have hne : letters ≠ name := by
        rintro rfl
        simp [Scope.meaning?, hc] at hf
      rw [List.flatMap_cons, Token.spliced, if_neg hne, Nat.add_right_comm n 1 m]
      exact .call hf ih
  | @bare n _ _ _ ih =>
      rw [Nat.add_right_comm n 1 m]
      exact .bare ih
  | @power n _ _ _ _ _ _ ih₁ ih₂ =>
      rw [List.flatMap_append, List.flatMap_cons, Nat.add_right_comm n 1 m]
      exact .power ih₁ ih₂
  | group _ ih =>
      rw [List.flatMap_append, List.flatMap_cons]
      exact .group ih
  | number hv => exact .number hv
  | @name n letters d hd =>
      have hfind := Scope.find?_of_meaning? hd
      rw [List.flatMap_cons, List.flatMap_nil, List.append_nil, Token.spliced]
      by_cases hl : letters = name
      · -- the group nests as deep as the formula, on top of what is open around the name
        subst hl
        obtain rfl : c = d := Option.some.inj (hc.symm.trans hfind)
        rw [if_pos rfl, Tree.replace, Tree.substitute, if_pos rfl]
        exact .group (derives_mono hu (Nat.le_add_left m n))
      · -- another name means another cell, as the cell has no other name
        have hne : d ≠ c := by
          rintro rfl
          exact hl (String.ofList_injective (honly _ hfind))
        rw [if_neg hl, Tree.replace, Tree.substitute, if_neg hne]
        exact .name hd

end Replace

/-! ## Formulas -/

/-- The value of a tree with a cell replaced, where the cell may be written instead. -/
theorem Tree.eval_replace {s : Store} {c : Cell} (h : s.Holds c) (t u : Tree) :
    (t.replace c u).eval s.get = t.eval (s.set c (u.eval s.get)).get := by
  rw [Tree.replace, Tree.eval_substitute]
  refine Tree.eval_congr fun d _ => ?_
  by_cases hd : d = c
  · rw [if_pos hd, hd, s.get_set_self c _ h]
  · rw [if_neg hd, s.get_set_of_ne _ hd]
    rfl

/-- **SPLICING.** With a formula in parentheses for every mention of the only name of a cell, a
    text builds to its tree with the tree of the formula for the cell, or the build runs out of
    levels.  The value is what it was with the cell holding the value of the formula. -/
theorem Draft.build_splice {d : Draft} {s₁ s₂ : Store} {source inserted name : String}
    {f g : Formula} {c : Cell} (hf : ((d.withSource source).build s₁).outcome = .ok f)
    (hg : ((d.withSource inserted).build s₂).outcome = .ok g) (hc : d.scope.find? name = some c)
    (honly : ∀ other, d.scope.find? other = some c → other = name) (s : Store) :
    let text := Token.splice name.toList inserted.toList source.toList
    let report := (d.withSource (String.ofList text)).build s
    (∃ e, report.outcome = .ok e ∧ e.root = f.root.replace c g.root ∧
      ∀ s' : Store, s'.Holds c → e.eval s' = f.eval (s'.set c (g.eval s'))) ∨ report.RanOut := by
  intro text report
  obtain ⟨-, hsource⟩ := (buildWithin_eq_ok_iff s₁ f).1 hf
  obtain ⟨-, hinserted⟩ := (buildWithin_eq_ok_iff s₂ g).1 hg
  have hname : String.ofList name.toList = name := String.ofList_toList
  rw [← hname] at hc honly
  have htext : (d.withSource (String.ofList text)).source.toList = text := String.toList_ofList
  have hd : Derives d.scope .expression (maxDepth + maxDepth)
      (Token.scan (d.withSource (String.ofList text)).source.toList) (f.root.replace c g.root) := by
    rw [htext, Token.scan_splice]
    exact derives_replace hc honly hinserted hsource
  rcases build_or_ranOut (d := d.withSource (String.ofList text)) s hd with hb | hr
  · refine Or.inl ⟨_, hb, rfl, ?_⟩
    intro s' hs'
    exact Tree.eval_replace hs' f.root g.root
  · exact Or.inr hr

/-- Names for two cells, for texts about them. -/
def twoNames : Draft where
  source := ""
  scope := (Scope.empty.bind "y" ⟨1⟩).bind "x" ⟨0⟩
  log := []

/-- A sum spliced into a product, for its left factor and under the sign of the right one. -/
theorem build_splice_twoNames :
    let x : Tree := .cell ⟨0⟩
    let y : Tree := .cell ⟨1⟩
    let f : Formula := ⟨"x*-x^y", .binary x .multiply (.negate (.binary x .power y))⟩
    let g : Formula := ⟨"y+x", .binary y .add x⟩
    let text := Token.splice "x".toList "y+x".toList "x*-x^y".toList
    let report := (twoNames.withSource (String.ofList text)).build .empty
    ∃ e, report.outcome = .ok e ∧ e.root = f.root.replace ⟨0⟩ g.root ∧
      ∀ s' : Store, s'.Holds ⟨0⟩ → e.eval s' = f.eval (s'.set ⟨0⟩ (g.eval s')) := by
  intro x y f g text report
  have hf : ((twoNames.withSource "x*-x^y").build .empty).outcome = .ok f := rfl
  have hg : ((twoNames.withSource "y+x").build .empty).outcome = .ok g := rfl
  have hc : twoNames.scope.find? "x" = some ⟨0⟩ := rfl
  have honly : ∀ other, twoNames.scope.find? other = some ⟨0⟩ → other = "x" := by
    intro other h
    by_contra hx
    rw [twoNames, Scope.find?_bind_of_ne _ _ hx] at h
    by_cases hy : other = "y"
    · subst hy
      rw [Scope.find?_bind_self] at h
      exact absurd h (by decide)
    · rw [Scope.find?_bind_of_ne _ _ hy] at h
      exact nomatch h
  have htext : text = "(y+x)*-(y+x)^y".toList := by decide +kernel
  have hout : report.outcome = .ok ⟨"(y+x)*-(y+x)^y", f.root.replace ⟨0⟩ g.root⟩ :=
    congrArg (fun t => ((twoNames.withSource (String.ofList t)).build .empty).outcome) htext
  exact (Draft.build_splice hf hg hc honly .empty).resolve_right (Report.not_ranOut_of_ok hout)

end LiveArith
