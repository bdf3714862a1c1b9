import LiveArith.Formula
import LiveArith.Proofs.Completeness
import LiveArith.Proofs.Limit

/-! # The language — which texts build, and to which trees

    A text builds exactly if its tokens are an expression within the limit, and
    then to the tree of the expression.  An expression that was derived with more
    levels builds to the same tree, or its build is refused for want of a level.
    The route:

    * a text parses exactly if an expression is read and no token is left
      (`formula_eq_ok_iff`), by soundness and completeness of the rules;
    * a build adds to its parse only the log (`buildWithin_eq_ok_iff`);
    * room beyond the limit can only turn a refusal for want of a level into a
      success (`build_or_ranOut`). -/

namespace LiveArith

open LiveArith.Grammar LiveArith.Parse

/-! ## Whole texts -/

namespace Parse

/-- What comes after the expression of a whole text: nothing but spaces. -/
def ending (t : Tree) : Parser Tree := do
  Parser.skipSpaces
  match ← Parser.lookahead with
  | none => return t
  | some _ => Parser.unexpected

variable {scope : Scope} {n : Nat} {c c' : Cursor} {t u : Tree}

theorem formula_eq : formula scope n = rule scope .expression n >>= ending := rfl

/-- The end of a text is looked for behind the spaces. -/
theorem ending_apply :
    ending u c = (if c.skipSpaces.lookahead.isNone then pure u else Parser.unexpected : Parser Tree)
      c.skipSpaces := by
  simp only [ending, bind, Parser.skipSpaces, Parser.lookahead]
  cases c.skipSpaces.lookahead <;> rfl

/-- A text may end where no token is left. -/
theorem ending_eq_ok :
    (ending u c).result = .ok (t, c') ↔ u = t ∧ c.tokens = [] ∧ c' = c.skipSpaces := by
  rw [ending_apply, ← c.tokens_skipSpaces, ← Cursor.lookahead_eq_none c.lookahead_skipSpaces]
  cases c.skipSpaces.lookahead with
  | none => simp [eq_comm]
  | some ch => simp [Parser.unexpected]

/-- A text that was read up to the cursor is whole if no token is left. -/
theorem formula_eq_ok :
    (formula scope n c).result = .ok (t, c') ↔
      ∃ c₁, (rule scope .expression n c).result = .ok (t, c₁) ∧ c₁.tokens = [] ∧
        c' = c₁.skipSpaces := by
  rw [formula_eq, Parser.bind_eq_ok]
  constructor
  · rintro ⟨u, c₁, hu, hr⟩
    obtain ⟨rfl, hnil, hc⟩ := ending_eq_ok.1 hr
    exact ⟨c₁, hu, hnil, hc⟩
  · rintro ⟨c₁, hu, hnil, hc⟩
    exact ⟨t, c₁, hu, ending_eq_ok.2 ⟨rfl, hnil, hc⟩⟩

/-- A whole text parses exactly if its tokens are an expression. -/
theorem formula_eq_ok_iff {text : List Char} :
    (∃ c, (formula scope n (.start text)).result = .ok (t, c)) ↔
      Derives scope .expression n (Token.scan text) t := by
  constructor
  · rintro ⟨c, h⟩
    obtain ⟨c₁, hu, hnil, -⟩ := formula_eq_ok.1 h
    obtain ⟨⟨ts, hts, hd⟩, -⟩ := rule_sound scope .expression n (.start text) t c₁ hu
    rw [hnil, List.append_nil, Cursor.tokens_start] at hts
    rw [hts]
    exact hd
  · intro h
    have hc : (Cursor.start text).tokens = Token.scan text ++ [] := by simp
    obtain ⟨c₁, hu, hnil⟩ := derives_yields h (.start text) [] hc (follows_nil _)
    exact ⟨c₁.skipSpaces, formula_eq_ok.2 ⟨c₁, hu, hnil, rfl⟩⟩

end Parse

/-! ## Builds -/

/-- The build failed because a level was needed and none was left: the error was raised by
    the last step of the parse. -/
def Report.RanOut (r : Report) : Prop :=
  ∃ found p, r.outcome = .error (.unexpectedCharacter found p) ∧
    r.log.getLast? = some (.parsing (.exhausted p))

/-- A build that came to a formula had levels enough. -/
theorem Report.not_ranOut_of_ok {r : Report} {f : Formula} (h : r.outcome = .ok f) :
    ¬ r.RanOut := by
  rintro ⟨found, p, he, -⟩
  exact nomatch he.symm.trans h

namespace Draft

section Outcomes

variable {limit : Nat} {d : Draft} (s : Store)

/-- A parse that fails makes the build fail, with the steps of the parse in its log. -/
theorem buildWithin_of_error {e : ParseError} (h : (d.parseWithin limit).result = .error e) :
    d.buildWithin limit s =
      ⟨d.log ++ .building d.source :: (d.parseWithin limit).steps.map .parsing, .error e⟩ := by
  simp only [buildWithin, h]

/-- A parse that succeeds makes the formula, and the log ends with its tree. -/
theorem buildWithin_of_ok {t : Tree} {c : Cursor}
    (h : (d.parseWithin limit).result = .ok (t, c)) :
    d.buildWithin limit s =
      ⟨(d.log ++ .building d.source :: (d.parseWithin limit).steps.map .parsing) ++ [.built t s],
        .ok ⟨d.source, t⟩⟩ := by
  simp only [buildWithin, h]

/-- A build that fails has the error of its parse. -/
theorem parseWithin_of_error {e : ParseError} (h : (d.buildWithin limit s).outcome = .error e) :
    (d.parseWithin limit).result = .error e := by
  cases hp : (d.parseWithin limit).result with
  | error e' =>
      rw [buildWithin_of_error s hp] at h
      rw [Except.error.inj h]
  | ok r =>
      rw [buildWithin_of_ok s hp] at h
      exact nomatch h

/-- A build whose parse ran out of levels says so at the end of its log. -/
theorem ranOut_of_exhausts (h : Exhausts (d.parseWithin limit)) :
    (d.buildWithin limit s).RanOut := by
  obtain ⟨found, p, he, hl⟩ := h
  rw [buildWithin_of_error s he]
  refine ⟨found, p, rfl, ?_⟩
  rw [List.getLast?_append, List.getLast?_cons, List.getLast?_map, hl]
  rfl

/-- A build within a limit gives the tree that its tokens have within the limit. -/
theorem buildWithin_eq_ok_iff (f : Formula) :
    (d.buildWithin limit s).outcome = .ok f ↔
      f.source = d.source ∧
        Derives d.scope .expression limit (Token.scan d.source.toList) f.root := by
  rw [← formula_eq_ok_iff]
  cases h : (d.parseWithin limit).result with
  | error e =>
      rw [buildWithin_of_error s h]
      refine ⟨nofun, ?_⟩
      rintro ⟨-, c, hc⟩
      exact nomatch h.symm.trans hc
  | ok r =>
      obtain ⟨t, c⟩ := r
      rw [buildWithin_of_ok s h]
      constructor
      · intro hf
        obtain rfl := Except.ok.inj hf
        exact ⟨rfl, c, h⟩
      · rintro ⟨hsource, c', hc⟩
        obtain ⟨rfl, -⟩ := Prod.mk.inj (Except.ok.inj (h.symm.trans hc))
        rw [← hsource]

/-- However many levels an expression was derived with, its parse gives its tree or runs out of
    levels. -/
theorem parse_or_exhausts {n : Nat} {t : Tree}
    (h : Derives d.scope .expression n (Token.scan d.source.toList) t) :
    (∃ c, (d.parseWithin maxDepth).result = .ok (t, c)) ∨ Exhausts (d.parseWithin maxDepth) := by
  obtain ⟨c, hc⟩ := formula_eq_ok_iff.2 (derives_mono h (Nat.le_max_left n maxDepth))
  rcases formula_curbed d.scope (Nat.le_max_right n maxDepth) (.start d.source.toList) with he | hr
  · exact Or.inr he
  · exact Or.inl ⟨c, hr.trans hc⟩

/-- An expression builds to its tree, or the build runs out of levels. -/
theorem build_or_ranOut {n : Nat} {t : Tree}
    (h : Derives d.scope .expression n (Token.scan d.source.toList) t) :
    (d.build s).outcome = .ok ⟨d.source, t⟩ ∨ (d.build s).RanOut := by
  rcases parse_or_exhausts h with ⟨c, hp⟩ | he
  · exact Or.inl (by rw [build, buildWithin_of_ok s hp])
  · exact Or.inr (ranOut_of_exhausts s he)

end Outcomes

/-- **THE LANGUAGE.** A text builds exactly if its tokens are an expression that nests within the
    limit, and then to the tree of the expression.  An expression that nests deeper is refused
    for want of a level or has the tree that it builds to. -/
theorem build_iff_derives (d : Draft) (s : Store) :
    (∀ f, (d.build s).outcome = .ok f ↔
      f.source = d.source ∧
        Derives d.scope .expression maxDepth (Token.scan d.source.toList) f.root) ∧
    ∀ n t, Derives d.scope .expression n (Token.scan d.source.toList) t →
      (d.build s).outcome = .ok ⟨d.source, t⟩ ∨ (d.build s).RanOut :=
  ⟨buildWithin_eq_ok_iff s, fun _ _ => build_or_ranOut s⟩

end Draft

end LiveArith
