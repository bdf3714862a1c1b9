import LiveArith.Proofs.Reports

/-! # Decided — the first error hides what comes after it

    A parser looks one character ahead.  So a text that has all that an error
    reports, at its place, fails with the same error after the same steps, whatever
    stands behind that.  The route:

    * up to the place the two texts are one, and from there they begin alike
      (`Facing`, `Tails`);
    * a run over the first text goes past the place, or fails with another error, or
      does all that the run over the second does (`blind`);
    * a run that fails with the error does neither of the first two. -/

namespace LiveArith

open LiveArith.Grammar LiveArith.Parse LiveArith.Token

namespace ParseError

/-- The kind of the run that the error reports. -/
def kind? : ParseError → Option RunKind
  | unexpectedCharacter _ _ => none
  | unknownFunction _ _ => some .letters
  | invalidNumber _ _ => some .figures

theorem kind?_ofRun (k : RunKind) (run : String) (p : Nat) : (ofRun k run p).kind? = some k := by
  cases k <;> rfl

/-- The text begins as the source does, up to the end of what the error reports, and a run ends
    there as well. -/
def DecidedIn (source text : List Char) : ParseError → Prop
  | unexpectedCharacter found p => found ≠ none ∧ text.take (p + 1) = source.take (p + 1)
  | unknownFunction name p =>
      text.take (p + name.length) = source.take (p + name.length) ∧
        ∀ ch ∈ text[p + name.length]?, Scope.isLetter ch = false
  | invalidNumber literal p =>
      text.take (p + literal.length) = source.take (p + literal.length) ∧
        ∀ ch ∈ text[p + literal.length]?, Literal.isFigure ch = false

end ParseError

/-! ## What stands behind the place -/

namespace Cursor

variable {q : Nat} {ch : Char} {us : List Char} {f : Char → Bool}

theorem run_cons_of_pos (h : f ch = true) : run ⟨q, ch :: us⟩ f = ch :: run ⟨q + 1, us⟩ f :=
  List.takeWhile_cons_of_pos h

theorem run_cons_of_neg (h : ¬ f ch = true) : run ⟨q, ch :: us⟩ f = [] :=
  List.takeWhile_cons_of_neg h

theorem skip_cons_of_pos (h : f ch = true) : skip ⟨q, ch :: us⟩ f = skip ⟨q + 1, us⟩ f := by
  rw [skip, skip, run_cons_of_pos h, List.dropWhile_cons_of_pos h, List.length_cons,
    Nat.add_comm (run ⟨q + 1, us⟩ f).length, ← Nat.add_assoc]

theorem skip_cons_of_neg (h : ¬ f ch = true) : skip ⟨q, ch :: us⟩ f = ⟨q, ch :: us⟩ := by
  rw [skip, run_cons_of_neg h, List.dropWhile_cons_of_neg h]
  rfl

end Cursor

/-- Two rests begin alike: with the same character and, where the error reports a run, with the
    same run. -/
structure Tails (e : ParseError) (rest rest' : List Char) : Prop where
  head_eq : rest.head? = rest'.head?
  run_eq : ∀ k, e.kind? = some k → rest.takeWhile k.holds = rest'.takeWhile k.holds

/-- The cursors are at one place of two texts that are one text up to place `p`. -/
def Facing (p : Nat) (rest rest' : List Char) (c d : Cursor) : Prop :=
  ∃ q front, c = ⟨q, front ++ rest⟩ ∧ d = ⟨q, front ++ rest'⟩ ∧ q + front.length = p

namespace Facing

variable {e : ParseError} {p : Nat} {rest rest' : List Char} {c d : Cursor}

/-- Facing cursors are at one place. -/
theorem position_eq (h : Facing p rest rest' c d) : c.position = d.position := by
  obtain ⟨q, front, rfl, rfl, -⟩ := h
  rfl

/-- Facing cursors look at one character. -/
theorem lookahead_eq (h : Facing p rest rest' c d) (ht : rest.head? = rest'.head?) :
    c.lookahead = d.lookahead := by
  obtain ⟨q, front, rfl, rfl, -⟩ := h
  cases front with
  | nil => exact ht
  | cons ch front => rfl

/-- At the place itself, a run that both rests begin with is the run of both cursors. -/
theorem run_eq (h : Facing p rest rest' c d) (hp : c.position = p) {f : Char → Bool}
    (hrun : rest.takeWhile f = rest'.takeWhile f) : c.run f = d.run f := by
  obtain ⟨q, front, rfl, rfl, hq⟩ := h
  have hp : q = p := hp
  obtain rfl : front = [] := List.eq_nil_of_length_eq_zero (by omega)
  exact hrun

/-- Past one character the cursors face each other again, or they are past the place. -/
theorem drop (h : Facing p rest rest' c d) :
    p < (c.drop 1).position ∨ Facing p rest rest' (c.drop 1) (d.drop 1) := by
  obtain ⟨q, front, rfl, rfl, hp⟩ := h
  cases front with
  | nil =>
      rw [List.length_nil, Nat.add_zero] at hp
      rw [← hp]
      exact Or.inl (Nat.lt_succ_self q)
  | cons ch front =>
      rw [List.length_cons, Nat.add_comm front.length, ← Nat.add_assoc] at hp
      exact Or.inr ⟨q + 1, front, rfl, rfl, hp⟩

/-- A longest run leads past the place, or it is the same run of both texts. -/
theorem skip (h : Facing p rest rest' c d) (ht : rest.head? = rest'.head?) (f : Char → Bool) :
    p < (c.skip f).position ∨
      c.run f = d.run f ∧ Facing p rest rest' (c.skip f) (d.skip f) := by
  obtain ⟨q, front, rfl, rfl, hp⟩ := h
  induction front generalizing q with
  | nil =>
      rw [List.nil_append, List.nil_append]
      have hself : Facing p rest rest' ⟨q, rest⟩ ⟨q, rest'⟩ := ⟨q, [], rfl, rfl, hp⟩
      cases rest with
      | nil =>
          obtain rfl : rest' = [] := List.head?_eq_none_iff.1 ht.symm
          exact Or.inr ⟨rfl, hself⟩
      | cons ch tail =>
          obtain ⟨tail', rfl⟩ := List.head?_eq_some_iff.1 ht.symm
          by_cases hf : f ch = true
          · left
            rw [Cursor.skip_cons_of_pos hf, ← hp]
            exact Nat.lt_of_lt_of_le (Nat.lt_succ_self q) (Cursor.position_le_skip ⟨q + 1, tail⟩ f)
          · rw [Cursor.skip_cons_of_neg hf, Cursor.skip_cons_of_neg hf, Cursor.run_cons_of_neg hf,
              Cursor.run_cons_of_neg hf]
            exact Or.inr ⟨rfl, hself⟩
  | cons ch front ih =>
      rw [List.cons_append, List.cons_append]
      by_cases hf : f ch = true
      · rw [Cursor.skip_cons_of_pos hf, Cursor.skip_cons_of_pos hf, Cursor.run_cons_of_pos hf,
          Cursor.run_cons_of_pos hf]
        rw [List.length_cons, Nat.add_comm front.length, ← Nat.add_assoc] at hp
        rcases ih (q + 1) hp with hbeyond | ⟨hrun, hskip⟩
        · exact Or.inl hbeyond
        · exact Or.inr ⟨congrArg (ch :: ·) hrun, hskip⟩
      · rw [Cursor.skip_cons_of_neg hf, Cursor.skip_cons_of_neg hf, Cursor.run_cons_of_neg hf,
          Cursor.run_cons_of_neg hf]
        exact Or.inr ⟨rfl, q, ch :: front, rfl, rfl, hp⟩

end Facing

/-! ## Runs that see no further -/

namespace Parse

open LiveArith.Parse.Parser LiveArith.Cursor

variable {α β : Type} {scope : Scope} {e : ParseError} {rest rest' : List Char} {c d : Cursor}

/-- The run fails with another error, or it succeeds past the place of this one. -/
inductive Past (e : ParseError) (r : Run α) : Prop where
  | other {e' : ParseError} : r.result = .error e' → e' ≠ e → Past e r
  | beyond {a : α} {c : Cursor} : r.result = .ok (a, c) → e.position < c.position → Past e r

/-- A run that is past the error does not fail with it. -/
theorem Past.ne_error {r : Run α} (h : Past e r) : r.result ≠ .error e := by
  intro he
  cases h with
  | other hr hne => exact hne (Except.error.inj (hr.symm.trans he))
  | beyond hr _ => exact nomatch hr.symm.trans he

/-- A run that ends past the place of the error does not fail with it. -/
theorem Past.of_stop {r : Run α} (h : e.position < r.stop) : Past e r := by
  cases hr : r.result with
  | error e' =>
      rw [Run.stop_of_error hr] at h
      refine .other hr fun he => ?_
      rw [he] at h
      exact Nat.lt_irrefl _ h
  | ok x =>
      obtain ⟨a, c⟩ := x
      rw [Run.stop_of_ok hr] at h
      exact .beyond hr h

/-- What is past the place stays past it. -/
theorem Past.bind {p : Parser α} {f : α → Parser β} (h : Past e (p c))
    (hf : ∀ a, Forward (f a)) : Past e ((p >>= f) c) := by
  cases h with
  | other hr hne =>
      rw [bind_of_error f hr]
      exact .other rfl hne
  | @beyond a c' hr hlt =>
      rw [bind_of_ok f hr]
      exact .of_stop (Nat.lt_of_lt_of_le hlt (hf a c').1)

/-- A rule is past the error if its body is. -/
theorem Past.within {p : Parser α} {rule : Rule} {n : Nat} (h : Past e (p c)) :
    Past e (within rule n p c) := by
  cases h with
  | other hr hne =>
      rw [within_of_error hr]
      exact .other rfl hne
  | beyond hr hlt =>
      rw [within_of_ok hr]
      exact .beyond rfl hlt

/-- Both runs took the same steps and fail with the error or come to the same. -/
structure SameRun (e : ParseError) (Q : α → Cursor → Cursor → Prop) (r r' : Run α) : Prop where
  steps_eq : r.steps = r'.steps
  result : r.result = .error e ∧ r'.result = .error e ∨
    ∃ a c d, r.result = .ok (a, c) ∧ r'.result = .ok (a, d) ∧ Q a c d

/-- Two sequences stay alike as long as their second parts do, or they are past the error. -/
theorem SameRun.bind {Q : α → Cursor → Cursor → Prop} {S : β → Cursor → Cursor → Prop}
    {p q : Parser α} {f g : α → Parser β} (h : SameRun e Q (p c) (q d))
    (hf : ∀ a c' d', Q a c' d' → Past e (f a c') ∨ SameRun e S (f a c') (g a d')) :
    Past e ((p >>= f) c) ∨ SameRun e S ((p >>= f) c) ((q >>= g) d) := by
  obtain ⟨hsteps, ⟨hp, hq⟩ | ⟨a, c', d', hp, hq, hQ⟩⟩ := h
  · rw [bind_of_error f hp, bind_of_error g hq]
    exact Or.inr ⟨hsteps, Or.inl ⟨rfl, rfl⟩⟩
  · rw [bind_of_ok f hp, bind_of_ok g hq]
    rcases hf a c' d' hQ with hpast | ⟨hsteps', hresult⟩
    · left
      cases hpast with
      | other hr hne => exact .other hr hne
      | beyond hr hlt => exact .beyond hr hlt
    · exact Or.inr ⟨congrArg₂ (· ++ ·) hsteps hsteps', hresult⟩

/-- Two runs of a rule are alike if those of its body are. -/
theorem SameRun.within {p q : Parser α} {rule : Rule} {n : Nat}
    (hposition : c.position = d.position)
    (h : SameRun e (fun _ => Facing e.position rest rest') (p c) (q d)) :
    SameRun e (fun _ => Facing e.position rest rest') (within rule n p c) (within rule n q d) := by
  obtain ⟨hsteps, ⟨hp, hq⟩ | ⟨a, c', d', hp, hq, hfacing⟩⟩ := h
  · rw [within_of_error hp, within_of_error hq, hsteps, hposition]
    exact ⟨rfl, Or.inl ⟨rfl, rfl⟩⟩
  · rw [within_of_ok hp, within_of_ok hq, hsteps, hposition, hfacing.position_eq]
    exact ⟨rfl, Or.inr ⟨a, c', d', rfl, rfl, hfacing⟩⟩

/-- Where the same error is raised after the same steps, it is the error or another one. -/
theorem past_or_sameRun_of_error {Q : α → Cursor → Cursor → Prop} {r r' : Run α} {e' : ParseError}
    (hsteps : r.steps = r'.steps) (hr : r.result = .error e') (hr' : r'.result = .error e') :
    Past e r ∨ SameRun e Q r r' := by
  by_cases he : e' = e
  · rw [he] at hr hr'
    exact Or.inr ⟨hsteps, Or.inl ⟨hr, hr'⟩⟩
  · exact Or.inl (.other hr he)

/-- A run of characters that goes past the place is no error, or another one. -/
theorem past_or_sameRun_of_ok {a : α} {steps : List Step}
    (h : e.position < c.position ∨ Facing e.position rest rest' c d) :
    Past e (⟨steps, .ok (a, c)⟩ : Run α) ∨
      SameRun e (fun _ => Facing e.position rest rest') (⟨steps, .ok (a, c)⟩ : Run α)
        ⟨steps, .ok (a, d)⟩ := by
  rcases h with hlt | hfacing
  · exact Or.inl (.beyond rfl hlt)
  · exact Or.inr ⟨rfl, Or.inr ⟨a, c, d, rfl, rfl, hfacing⟩⟩

/-- A leaf before the place of the error is read alike in both texts, or it is past the error. -/
theorem leaf_blind {k : RunKind} (h : Facing e.position rest rest' c d) (ht : Tails e rest rest') :
    Past e (leaf scope k c) ∨
      SameRun e (fun _ => Facing e.position rest rest') (leaf scope k c) (leaf scope k d) := by
  rcases h.skip ht.head_eq k.holds with hlt | ⟨hrun, hskip⟩
  · cases hread : reading? scope k (c.run k.holds) with
    | some r =>
        rw [leaf_of_some hread]
        exact Or.inl (.beyond rfl hlt)
    | none =>
        rw [leaf_of_none hread]
        by_cases he : e = .ofRun k (String.ofList (c.run k.holds)) c.position
        · -- the error itself: the run ends alike in both texts
          have hposition : c.position = e.position := by rw [he, ParseError.position_ofRun]
          have hkind : e.kind? = some k := by rw [he, ParseError.kind?_ofRun]
          have hrun := h.run_eq hposition (ht.run_eq k hkind)
          rw [hrun] at hread
          rw [leaf_of_none hread, hrun, h.position_eq]
          exact past_or_sameRun_of_error rfl rfl rfl
        · exact Or.inl (.other rfl (Ne.symm he))
  · cases hread : reading? scope k (c.run k.holds) with
    | some r =>
        rw [leaf_of_some hread]
        rw [hrun] at hread
        rw [leaf_of_some hread]
        exact past_or_sameRun_of_ok (Or.inr hskip)
    | none =>
        rw [leaf_of_none hread, h.position_eq, hrun]
        rw [hrun] at hread
        rw [leaf_of_none hread]
        exact past_or_sameRun_of_error rfl rfl rfl

/-- **BLIND.** What stands behind the place of an error makes no difference up to there. -/
def blind (scope : Scope) {e : ParseError} {rest rest' : List Char} (ht : Tails e rest rest') :
    Lockstep scope where
  place := Facing e.position rest rest'
  counts := Eq
  opens _ := Eq
  holds Q r r' := Past e r ∨ SameRun e Q r r'
  holds_pure hQ := Or.inr ⟨rfl, Or.inr ⟨_, _, _, rfl, rfl, hQ⟩⟩
  holds_bind h hf forward := h.elim (fun hp => Or.inl (hp.bind forward)) fun hs => hs.bind hf
  holds_within hr hplace h := by
    subst hr
    exact h.imp Past.within (SameRun.within hplace.position_eq)
  holds_countFold hc h := by
    subst hc
    rw [countFold, countFold, h.position_eq]
    exact past_or_sameRun_of_ok (Or.inr h)
  holds_skipSpaces {c d} h := by
    rcases h.skip ht.head_eq (· == ' ') with hlt | ⟨-, hskip⟩
    · exact Or.inl (.beyond rfl hlt)
    · exact Or.inr ⟨rfl, Or.inr ⟨(), _, _, rfl, rfl, hskip, lookahead_skipSpaces c,
        lookahead_skipSpaces d⟩⟩
  lookahead_eq h _ := h.lookahead_eq ht.head_eq
  holds_mark _ h _ _ hQ := by
    rcases h.drop with hlt | hdrop
    · exact Or.inl (.beyond rfl hlt)
    · exact Or.inr ⟨rfl, Or.inr ⟨_, _, _, rfl, rfl, hQ hdrop⟩⟩
  holds_unexpected {_ _ c d} h _ := by
    rw [unexpected, unexpected, h.lookahead_eq ht.head_eq, h.position_eq]
    exact past_or_sameRun_of_error rfl rfl rfl
  holds_leaf h _ _ := leaf_blind h ht

/-- Running out of levels reports the next character, which is the same in both texts. -/
theorem exhausted_blind (ht : Tails e rest rest') :
    (blind scope ht).Keeps (exhausted : Parser Tree) exhausted := by
  refine ⟨fun {c d} h => ?_, .exhausted⟩
  have hsteps : (exhausted c : Run Tree).steps = (exhausted d : Run Tree).steps := by
    show [Step.exhausted c.position] = [Step.exhausted d.position]
    rw [h.position_eq]
  have hresult : (exhausted d : Run Tree).result =
      .error (.unexpectedCharacter c.lookahead c.position) := by
    rw [h.lookahead_eq ht.head_eq, h.position_eq]
    rfl
  exact past_or_sameRun_of_error hsteps rfl hresult

/-- A text that fails with the error and a text that goes on alike are parsed alike. -/
theorem formula_blind (ht : Tails e rest rest') {n : Nat}
    (hfacing : Facing e.position rest rest' c d) (he : (formula scope n c).result = .error e) :
    (formula scope n d).result = .error e ∧
      (formula scope n c).steps = (formula scope n d).steps := by
  rcases ((blind scope ht).formula_keeps (fun _ => rfl) (fun _ _ => rfl) (exhausted_blind ht)
    n).holds hfacing with hpast | ⟨hsteps, ⟨-, he'⟩ | ⟨a, c', d', hok, -⟩⟩
  · exact absurd he hpast.ne_error
  · exact ⟨he', hsteps⟩
  · exact nomatch he.symm.trans hok

end Parse

/-! ## Texts that decide an error -/

/-- A text that begins as another one is what both begin with and a rest of its own. -/
theorem eq_append_of_take_eq {front seen rest text : List Char}
    (h : text.take (front.length + seen.length) =
      (front ++ (seen ++ rest)).take (front.length + seen.length)) :
    text = front ++ (seen ++ text.drop (front.length + seen.length)) := by
  rw [← List.append_assoc, ← List.length_append, List.take_left] at h
  calc text = text.take (front ++ seen).length ++ text.drop (front ++ seen).length :=
        (List.take_append_drop _ text).symm
    _ = (front ++ seen) ++ text.drop (front ++ seen).length := by rw [h]
    _ = front ++ (seen ++ text.drop (front.length + seen.length)) := by
        rw [List.append_assoc, List.length_append]

/-- A longest run is what is taken of its text. -/
theorem Token.Longest.takeWhile_append {f : Char → Bool} {run rest : List Char}
    (h : Longest f run rest) : (run ++ rest).takeWhile f = run := by
  cases run with
  | nil => exact absurd rfl h.ne_nil
  | cons ch run =>
      rw [List.cons_append, List.takeWhile_cons_of_pos (h.all ch List.mem_cons_self),
        h.takeWhile_cons.1]

/-- A run that stands whole in the source stands whole in a text that has it too and does not go
    on with it. -/
theorem Token.WholeAt.exists_tails {e : ParseError} {k : RunKind} {source text run : List Char}
    {p : Nat} (h : WholeAt k source p run) (hk : ∀ k', e.kind? = some k' → k' = k)
    (htake : text.take (p + run.length) = source.take (p + run.length))
    (hend : ∀ ch ∈ text[p + run.length]?, k.holds ch = false) :
    ∃ front rest rest', source = front ++ rest ∧ text = front ++ rest' ∧ front.length = p ∧
      Tails e rest rest' := by
  obtain ⟨front, rest, rfl, rfl, hlong, -⟩ := h
  have hlong' : Longest k.holds run (text.drop (front.length + run.length)) := by
    refine ⟨hlong.ne_nil, hlong.all, fun ch hch => hend ch ?_⟩
    rwa [List.head?_drop] at hch
  refine ⟨front, run ++ rest, _, rfl, eq_append_of_take_eq htake, rfl, ?_, fun k' hk' => ?_⟩
  · rw [List.head?_append_of_ne_nil _ hlong.ne_nil, List.head?_append_of_ne_nil _ hlong.ne_nil]
  · rw [hk k' hk', hlong.takeWhile_append, hlong'.takeWhile_append]

/-- A text that has all that a true error reports is the source up to its place, and goes on like
    it there. -/
theorem ParseError.Truthful.exists_tails {scope : Scope} {e : ParseError}
    {source text : List Char} (h : e.Truthful scope source) (ht : e.DecidedIn source text) :
    ∃ front rest rest', source = front ++ rest ∧ text = front ++ rest' ∧
      front.length = e.position ∧ Tails e rest rest' := by
  cases e with
  | unexpectedCharacter found p =>
      obtain ⟨-, hfound, -⟩ := h
      obtain ⟨hne, htake⟩ := ht
      obtain ⟨ch, hch⟩ := Option.ne_none_iff_exists'.1 hne
      obtain ⟨hp, hget⟩ := List.getElem?_eq_some_iff.1 (hfound.symm.trans hch)
      obtain ⟨front, tail, rfl, rfl⟩ : ∃ front tail,
          source = front ++ ([ch] ++ tail) ∧ front.length = p := by
        refine ⟨source.take p, source.drop (p + 1), ?_, List.length_take_of_le (Nat.le_of_lt hp)⟩
        rw [← hget, List.singleton_append, ← List.drop_eq_getElem_cons, List.take_append_drop]
      have htext : text = front ++ ([ch] ++ text.drop (front.length + 1)) :=
        eq_append_of_take_eq htake
      exact ⟨front, [ch] ++ tail, _, rfl, htext, rfl, rfl, nofun⟩
  | unknownFunction name p =>
      obtain ⟨letters, rfl, hwhole, -⟩ := h
      obtain ⟨htake, hend⟩ := ht
      rw [String.length_ofList] at htake hend
      exact hwhole.exists_tails (fun k hk => (Option.some.inj hk).symm) htake hend
  | invalidNumber literal p =>
      obtain ⟨run, rfl, hwhole, -⟩ := h
      obtain ⟨htake, hend⟩ := ht
      rw [String.length_ofList] at htake hend
      exact hwhole.exists_tails (fun k hk => (Option.some.inj hk).symm) htake hend

namespace Draft

/-- **THE FIRST ERROR.** A text that begins as a source whose build fails, up to the end of what
    the error reports, fails with the same error and the same records: nothing that comes after is
    looked at. -/
theorem build_error_decided {d : Draft} {s : Store} {e : ParseError}
    (he : (d.build s).outcome = .error e) {text : String}
    (ht : e.DecidedIn d.source.toList text.toList) (s' : Store) :
    ((d.withSource text).build s').outcome = .error e ∧
      ∃ records, (d.build s).log = d.log ++ .building d.source :: records ∧
        ((d.withSource text).build s').log = d.log ++ .building text :: records := by
  have hp := parseWithin_of_error s he
  obtain ⟨c, moved, hraised⟩ := exists_raised hp
  obtain ⟨before, hstands⟩ := moved.stands (Cursor.stands_start d.source.toList)
  obtain ⟨front, rest, rest', hsource, htext, hlen, htails⟩ :=
    (hraised.truthful hstands).exists_tails ht
  have hfacing : Facing e.position rest rest' (.start d.source.toList) (.start text.toList) := by
    refine ⟨0, front, ?_, ?_, ?_⟩
    · rw [hsource, Cursor.start]
    · rw [htext, Cursor.start]
    · rw [hlen, Nat.zero_add]
  obtain ⟨hp', hsteps⟩ := formula_blind htails hfacing hp
  have hsteps : (d.parseWithin maxDepth).steps =
      ((d.withSource text).parseWithin maxDepth).steps := hsteps
  rw [build, build, buildWithin_of_error s hp, buildWithin_of_error (d := d.withSource text) s' hp',
    hsteps]
  exact ⟨rfl, _, rfl, rfl⟩

/-- After an unknown name nothing is looked at: not its argument and no parenthesis. -/
theorem build_error_decided_unknownName :
    let e : ParseError := .unknownFunction "foo" 2
    ((ofSource "2*foo(1)").build .empty).outcome = .error e ∧
      e.DecidedIn "2*foo(1)".toList "2*foo))$".toList ∧
        (((ofSource "2*foo(1)").withSource "2*foo))$").build .empty).outcome = .error e ∧
          ∃ records, ((ofSource "2*foo(1)").build .empty).log =
              .building "2*foo(1)" :: records ∧
            (((ofSource "2*foo(1)").withSource "2*foo))$").build .empty).log =
              .building "2*foo))$" :: records := by
  have he : ((ofSource "2*foo(1)").build .empty).outcome = .error (.unknownFunction "foo" 2) := by
    rfl
  have ht : (ParseError.unknownFunction "foo" 2).DecidedIn "2*foo(1)".toList "2*foo))$".toList := by
    refine ⟨by decide, ?_⟩
    intro ch hch
    obtain rfl : ')' = ch := Option.some.inj hch
    decide
  exact ⟨he, ht, build_error_decided he ht .empty⟩

end Draft

end LiveArith
