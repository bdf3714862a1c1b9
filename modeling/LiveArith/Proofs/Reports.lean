import LiveArith.Proofs.Lockstep

/-! # Reports — what an error says of its text

    An error names a place and what was found there, and both are as it says: the
    text before the place could stand in a formula, and what is reported stands at
    the place, whole.  The route:

    * each error is raised at a cursor that a parser can reach (`Raised`);
    * two texts of the same tokens are read in step, and errors are raised at
      cursors before the same tokens (`abreast`); a text beside itself gives the
      place of its own error (`exists_raised`);
    * of such a cursor it is known what stands before it (`Cursor.Stands`). -/

namespace LiveArith

open LiveArith.Grammar LiveArith.Parse LiveArith.Token

/-- The same report of another place. -/
def ParseError.moved (e : ParseError) (p : Nat) : ParseError :=
  match e with
  | .unexpectedCharacter found _ => .unexpectedCharacter found p
  | .unknownFunction name _ => .unknownFunction name p
  | .invalidNumber literal _ => .invalidNumber literal p

/-- The error of a run may be said of another place. -/
theorem ParseError.moved_ofRun (k : RunKind) (run : String) (p q : Nat) :
    (ofRun k run p).moved q = ofRun k run q := by
  cases k <;> rfl

namespace Cursor

/-- Past the spaces, the tokens that are left tell the next character. -/
theorem lookahead_eq_of_tokens {c d : Cursor} (h : Sighted c d) (ht : c.tokens = d.tokens) :
    c.lookahead = d.lookahead := by
  have hfilter : ∀ e : Cursor, e.lookahead ≠ some ' ' →
      e.lookahead = (e.tokens.flatMap chars).head? := by
    intro e he
    rw [tokens, chars_scan]
    obtain ⟨p, rest⟩ := e
    cases rest with
    | nil => rfl
    | cons ch rest =>
        have hne : ch ≠ ' ' := fun hch => he (by rw [hch]; rfl)
        show some ch = ((ch :: rest).filter (· ≠ ' ')).head?
        rw [List.filter_cons_of_pos (by simpa using hne)]
        rfl
  rw [hfilter c h.1, hfilter d h.2, ht]

end Cursor

namespace Parse

open LiveArith.Parse.Parser LiveArith.Cursor

variable {α β : Type} {scope : Scope} {text text' : List Char} {c d : Cursor}

/-! ## Where errors are raised -/

/-- The error tells what stands at the cursor and why it cannot stand there. -/
inductive Raised (scope : Scope) (c : Cursor) : ParseError → Prop where
  | unexpected : Raised scope c (.unexpectedCharacter c.lookahead c.position)
  | run (k : RunKind) : c.lookahead.any k.holds = true →
      reading? scope k (c.run k.holds) = none →
      Raised scope c (.ofRun k (String.ofList (c.run k.holds)) c.position)

/-- An error is raised at the cursor. -/
theorem Raised.position_eq {e : ParseError} (h : Raised scope c e) :
    e.position = c.position := by
  cases h with
  | unexpected => rfl
  | run k _ _ => exact ParseError.position_ofRun k _ _

/-- Cursors in two texts, before the same tokens. -/
structure Abreast (text text' : List Char) (c d : Cursor) : Prop where
  left : Moves (.start text) c
  right : Moves (.start text') d
  tokens_eq : c.tokens = d.tokens

/-- Behind the spaces the cursors are still abreast. -/
theorem Abreast.skipSpaces (h : Abreast text text' c d) :
    Abreast text text' c.skipSpaces d.skipSpaces :=
  ⟨h.left.spaces, h.right.spaces, by rw [tokens_skipSpaces, tokens_skipSpaces, h.tokens_eq]⟩

/-- Past the spaces, before the same tokens, both look at one character. -/
theorem Abreast.lookahead_eq (h : Abreast text text' c d) (hs : Sighted c d) :
    c.lookahead = d.lookahead :=
  lookahead_eq_of_tokens hs h.tokens_eq

/-- Behind a mark the cursors are still abreast. -/
theorem Abreast.drop (h : Abreast text text' c d) {ch : Char} (hm : ch ∈ marks)
    (hc : c.lookahead = some ch) (hd : d.lookahead = some ch) :
    Abreast text text' (c.drop 1) (d.drop 1) := by
  refine ⟨h.left.mark hm hc, h.right.mark hm hd, ?_⟩
  have ht := h.tokens_eq
  rw [tokens_drop_of_lookahead (isMark_of_mem_marks hm) hc,
    tokens_drop_of_lookahead (isMark_of_mem_marks hm) hd] at ht
  exact (List.cons.inj ht).2

/-- The run at the cursors is one token, and past it they are before the same tokens. -/
theorem Abreast.run (h : Abreast text text' c d) (hs : Sighted c d) (k : RunKind)
    (hc : c.lookahead.any k.holds = true) :
    c.run k.holds = d.run k.holds ∧ Abreast text text' (c.skip k.holds) (d.skip k.holds) := by
  have hd := hc
  rw [h.lookahead_eq hs] at hd
  have ht := h.tokens_eq
  rw [tokens_run k hc, tokens_run k hd] at ht
  obtain ⟨hrun, hrest⟩ := List.cons.inj ht
  exact ⟨(RunKind.token_inj hrun).2, h.left.run k, h.right.run k, hrest⟩

/-- Two errors raised before the same tokens: one report past the spaces, or both for want of
    a level. -/
structure RaisedAbreast (scope : Scope) (text text' : List Char) (r r' : Run α)
    (e e' : ParseError) (c d : Cursor) : Prop where
  left : r.result = .error e
  right : r'.result = .error e'
  abreast : Abreast text text' c d
  raised : Raised scope c e
  raised' : Raised scope d e'
  report : Sighted c d ∧ e' = e.moved d.position ∨ Exhausts r ∧ Exhausts r'

/-- What two runs over texts of the same tokens come to. -/
def AbreastOutcome (scope : Scope) (text text' : List Char) (Q : α → Cursor → Cursor → Prop)
    (r r' : Run α) : Prop :=
  (∃ e e' c d, RaisedAbreast scope text text' r r' e e' c d) ∨
    ∃ a c d, r.result = .ok (a, c) ∧ r'.result = .ok (a, d) ∧ Q a c d

/-- Two sequences fail or succeed abreast if their parts do. -/
theorem AbreastOutcome.bind {Q : α → Cursor → Cursor → Prop} {S : β → Cursor → Cursor → Prop}
    {p q : Parser α} {f g : α → Parser β}
    (h : AbreastOutcome scope text text' Q (p c) (q d))
    (hf : ∀ a c' d', Q a c' d' → AbreastOutcome scope text text' S (f a c') (g a d')) :
    AbreastOutcome scope text text' S ((p >>= f) c) ((q >>= g) d) := by
  rcases h with ⟨e, e', c', d', h⟩ | ⟨a, c', d', hp, hq, hQ⟩
  · refine Or.inl ⟨e, e', c', d', ?_, ?_, h.abreast, h.raised, h.raised', ?_⟩
    · rw [bind_of_error f h.left]
    · rw [bind_of_error g h.right]
    · exact h.report.imp_right fun hx => ⟨hx.1.bind_left f, hx.2.bind_left g⟩
  · rcases hf a c' d' hQ with ⟨e, e', c₁, d₁, h⟩ | ⟨b, c₁, d₁, hb, hb', hS⟩
    · refine Or.inl ⟨e, e', c₁, d₁, ?_, ?_, h.abreast, h.raised, h.raised', ?_⟩
      · rw [bind_of_ok f hp]
        exact h.left
      · rw [bind_of_ok g hq]
        exact h.right
      · exact h.report.imp_right fun hx => ⟨hx.1.bind_right hp, hx.2.bind_right hq⟩
    · refine Or.inr ⟨b, c₁, d₁, ?_, ?_, hS⟩
      · rw [bind_of_ok f hp]
        exact hb
      · rw [bind_of_ok g hq]
        exact hb'

/-- Two runs of a rule fail or succeed abreast if those of its body do. -/
theorem AbreastOutcome.within {Q : α → Cursor → Cursor → Prop} {p q : Parser α} {rule : Rule}
    {n m : Nat} (h : AbreastOutcome scope text text' Q (p c) (q d)) :
    AbreastOutcome scope text text' Q (within rule n p c) (within rule m q d) := by
  rcases h with ⟨e, e', c', d', h⟩ | ⟨a, c', d', hp, hq, hQ⟩
  · refine Or.inl ⟨e, e', c', d', ?_, ?_, h.abreast, h.raised, h.raised', ?_⟩
    · rw [within_of_error h.left]
    · rw [within_of_error h.right]
    · exact h.report.imp_right fun hx => ⟨hx.1.within, hx.2.within⟩
  · exact Or.inr ⟨a, c', d', within_eq_ok.2 hp, within_eq_ok.2 hq, hQ⟩

/-- A leaf is read abreast in both texts. -/
theorem leaf_abreast {k : RunKind} (h : Abreast text text' c d) (hs : Sighted c d)
    (hc : c.lookahead.any k.holds = true) :
    AbreastOutcome scope text text' (fun _ => Abreast text text') (leaf scope k c)
      (leaf scope k d) := by
  have hd := hc
  rw [h.lookahead_eq hs] at hd
  obtain ⟨hrun, hskip⟩ := h.run hs k hc
  cases hread : reading? scope k (c.run k.holds) with
  | none =>
      have hread' := hread
      rw [hrun] at hread'
      rw [leaf_of_none hread, leaf_of_none hread']
      refine Or.inl ⟨_, _, c, d, rfl, rfl, h, .run k hc hread, .run k hd hread', Or.inl ⟨hs, ?_⟩⟩
      rw [ParseError.moved_ofRun, hrun]
  | some r =>
      have hread' := hread
      rw [hrun] at hread'
      rw [leaf_of_some hread, leaf_of_some hread']
      exact Or.inr ⟨_, _, _, rfl, rfl, hskip⟩

/-- **ABREAST.** Texts of the same tokens are read in step. -/
def abreast (scope : Scope) (text text' : List Char) : Lockstep scope where
  place := Abreast text text'
  counts := Eq
  opens _ := Eq
  holds := AbreastOutcome scope text text'
  holds_pure hQ := Or.inr ⟨_, _, _, rfl, rfl, hQ⟩
  holds_bind h hf _ := h.bind hf
  holds_within _ _ h := h.within
  holds_countFold _ h := Or.inr ⟨(), _, _, rfl, rfl, h⟩
  holds_skipSpaces h :=
    Or.inr ⟨(), _, _, rfl, rfl, h.skipSpaces, lookahead_skipSpaces _, lookahead_skipSpaces _⟩
  lookahead_eq := Abreast.lookahead_eq
  holds_mark hm h hc hd hQ := Or.inr ⟨_, _, _, rfl, rfl, hQ (h.drop hm hc hd)⟩
  holds_unexpected {_ _ c d} h hs :=
    Or.inl ⟨_, _, c, d, rfl, rfl, h, .unexpected, .unexpected,
      Or.inl ⟨hs, by rw [h.lookahead_eq hs]; rfl⟩⟩
  holds_leaf := leaf_abreast

/-- Out of levels, both parsers report what they look at. -/
theorem exhausted_abreast :
    (abreast scope text text').Keeps (exhausted : Parser Tree) exhausted := by
  refine ⟨fun {c d} h => Or.inl ⟨_, _, c, d, rfl, rfl, h, .unexpected, .unexpected, ?_⟩,
    .exhausted⟩
  exact Or.inr ⟨⟨_, _, rfl, rfl⟩, ⟨_, _, rfl, rfl⟩⟩

/-- Whole texts of the same tokens come to one tree, or to errors raised before the same
    tokens. -/
theorem formula_abreast (scope : Scope) (h : scan text = scan text') (n : Nat) :
    AbreastOutcome scope text text' (fun _ => Abreast text text')
      (formula scope n (.start text)) (formula scope n (.start text')) :=
  ((abreast scope text text').formula_keeps (fun _ => rfl) (fun _ _ => rfl) exhausted_abreast
    n).holds ⟨.refl, .refl, h⟩

/-- The error of a text is raised at a cursor in it. -/
theorem exists_raised {n : Nat} {e : ParseError}
    (h : (formula scope n (.start text)).result = .error e) :
    ∃ c, Moves (.start text) c ∧ Raised scope c e := by
  rcases formula_abreast scope (rfl : scan text = scan text) n with
    ⟨e', e'', c, d, hr⟩ | ⟨a, c, d, hok, -⟩
  · obtain rfl := Except.error.inj (h.symm.trans hr.left)
    exact ⟨c, hr.abreast.left, hr.raised⟩
  · exact nomatch h.symm.trans hok

end Parse

/-! ## What stands at the place of an error -/

/-- The run stands in the text at the place and is as long as it can be on both sides. -/
def Token.WholeAt (k : RunKind) (text : List Char) (p : Nat) (run : List Char) : Prop :=
  ∃ front rest, text = front ++ (run ++ rest) ∧ front.length = p ∧ Longest k.holds run rest ∧
    ∀ ch ∈ front.getLast?, k.holds ch = false

/-- What the error reports is so in the text. -/
def ParseError.Truthful (scope : Scope) (text : List Char) : ParseError → Prop
  | .unexpectedCharacter found p =>
      p ≤ text.length ∧ found = text[p]? ∧ (found = none ↔ p = text.length)
  | .unknownFunction name p =>
      ∃ letters, name = String.ofList letters ∧ WholeAt .letters text p letters ∧
        scope.find? name = none ∧ ∀ f : Builtin, f.name ≠ name
  | .invalidNumber literal p =>
      ∃ run, literal = String.ofList run ∧ WholeAt .figures text p run ∧
        (run.any Char.isDigit = false ∨ 2 ≤ run.count '.')

namespace Cursor

variable {text front : List Char} {c : Cursor}

/-- A run at a cursor between tokens is whole. -/
theorem Stands.wholeAt (h : Stands text front c) (k : RunKind)
    (hc : c.lookahead.any k.holds = true) : WholeAt k text c.position (c.run k.holds) := by
  obtain ⟨ch, hch, hk⟩ : ∃ ch, c.lookahead = some ch ∧ k.holds ch = true := by
    cases hch : c.lookahead with
    | none =>
        rw [hch] at hc
        exact nomatch hc
    | some ch =>
        rw [hch] at hc
        exact ⟨ch, rfl, hc⟩
  refine ⟨front, (c.skip k.holds).rest, ?_, h.position_eq.symm, ?_, ?_⟩
  · rw [run_append_skip]
    exact h.text_eq
  · obtain ⟨rest, hrest⟩ := List.head?_eq_some_iff.1 hch
    have hlong := longest_takeWhile hk rest
    rw [← List.takeWhile_cons_of_pos hk, ← List.dropWhile_cons_of_pos hk, ← hrest] at hlong
    exact hlong
  · intro x hx
    by_contra hkx
    exact h.seam ⟨k, ⟨x, hx, by simpa using hkx⟩, ch, hch, hk⟩

/-- The character that comes next is the one at the place of the cursor. -/
theorem Stands.lookahead_eq (h : Stands text front c) : c.lookahead = text[c.position]? := by
  rw [h.text_eq, h.position_eq, List.getElem?_append_right (Nat.le_refl _), Nat.sub_self,
    ← List.head?_eq_getElem?]
  rfl

/-- What stands before the cursor is the text up to its place. -/
theorem Stands.take_eq (h : Stands text front c) : text.take c.position = front := by
  rw [h.text_eq, h.position_eq, List.take_left]

/-- The place of the cursor is in the text. -/
theorem Stands.position_le (h : Stands text front c) : c.position ≤ text.length := by
  rw [h.text_eq, h.position_eq, List.length_append]
  exact Nat.le_add_right _ _

end Cursor

/-- A name that means nothing is neither bound nor a builtin. -/
theorem Scope.find?_of_meaning?_eq_none {scope : Scope} {name : String}
    (h : scope.meaning? name = none) : scope.find? name = none ∧ ∀ f : Builtin, f.name ≠ name := by
  rw [meaning?] at h
  cases hf : scope.find? name with
  | some c =>
      rw [hf] at h
      exact absurd h (Option.some_ne_none _)
  | none =>
      rw [hf] at h
      refine ⟨rfl, fun f hname => ?_⟩
      rw [← hname, Builtin.ofName?_name] at h
      exact absurd h (Option.some_ne_none _)

/-- A run that is no number has no digit or more than one dot. -/
theorem Literal.of_read?_eq_none {run : List Char} (h : read? run = none) :
    run.any Char.isDigit = false ∨ 2 ≤ run.count '.' := by
  rw [read?] at h
  cases hany : run.any Char.isDigit with
  | false => exact Or.inl rfl
  | true =>
      refine Or.inr (Nat.lt_of_not_le fun hcount => ?_)
      rw [if_pos (by simp [isValid, hany, hcount])] at h
      exact nomatch h

/-- An error that is raised at a cursor of the text says the truth of the text. -/
theorem Parse.Raised.truthful {scope : Scope} {text front : List Char} {c : Cursor}
    {e : ParseError} (h : Raised scope c e) (hc : Cursor.Stands text front c) :
    e.Truthful scope text := by
  cases h with
  | unexpected =>
      refine ⟨hc.position_le, hc.lookahead_eq, ?_⟩
      rw [hc.lookahead_eq, List.getElem?_eq_none_iff]
      exact ⟨fun hle => Nat.le_antisymm hc.position_le hle, Nat.le_of_eq ∘ Eq.symm⟩
  | run k hlook hread =>
      have hwhole := hc.wholeAt k hlook
      cases k with
      | figures =>
          have hnone : Literal.read? (c.run Literal.isFigure) = none :=
            Option.map_eq_none_iff.1 hread
          exact ⟨_, rfl, hwhole, Literal.of_read?_eq_none hnone⟩
      | letters =>
          have hnone : scope.meaning? (String.ofList (c.run Scope.isLetter)) = none :=
            Option.map_eq_none_iff.1 hread
          exact ⟨_, rfl, hwhole, Scope.find?_of_meaning?_eq_none hnone⟩

/-- Every character of a formula takes one byte. -/
theorem Token.InAlphabet.utf8Size_eq {ch : Char} (h : InAlphabet ch) : ch.utf8Size = 1 := by
  refine Char.utf8Size_eq_one_iff.2 ?_
  rcases h with rfl | hf | hl | hm
  · decide
  · rcases Bool.or_eq_true_iff.1 hf with hd | hdot
    · have hrange : (decide ('0'.val ≤ ch.val) && decide (ch.val ≤ '9'.val)) = true := hd
      exact UInt32.le_trans (of_decide_eq_true (Bool.and_eq_true_iff.1 hrange).2) (by decide)
    · rw [beq_iff_eq.1 hdot]
      decide
  · have hrange : (decide ('a'.val ≤ ch.val) && decide (ch.val ≤ 'z'.val)) = true := hl
    exact UInt32.le_trans (of_decide_eq_true (Bool.and_eq_true_iff.1 hrange).2) (by decide)
  · rcases List.mem_append.1 hm with hm | hm
    · obtain ⟨op, -, rfl⟩ := List.mem_map.1 hm
      cases op <;> decide
    · rcases List.mem_pair.1 hm with rfl | rfl <;> decide

/-- In the alphabet of the grammar a character is a byte. -/
theorem Token.utf8ByteSize_eq {text : List Char} (h : ∀ ch ∈ text, InAlphabet ch) :
    (String.ofList text).utf8ByteSize = text.length := by
  induction text with
  | nil => rfl
  | cons ch text ih =>
      rw [String.ofList_cons, String.utf8ByteSize_append, String.utf8ByteSize_singleton,
        (h ch List.mem_cons_self).utf8Size_eq, ih fun x hx => h x (List.mem_cons_of_mem ch hx),
        List.length_cons, Nat.add_comm]

namespace Draft

/-- **TRUE REPORTS.** Where a build fails, all before the place of the error could stand in a
    formula, so that the place counts bytes as well as characters; and what the error reports
    stands there, whole, and is no name or number that the text may use. -/
theorem build_error_truthful {d : Draft} {s : Store} {e : ParseError}
    (he : (d.build s).outcome = .error e) :
    (∀ ch ∈ d.source.toList.take e.position, InAlphabet ch) ∧
      (String.ofList (d.source.toList.take e.position)).utf8ByteSize = e.position ∧
        e.Truthful d.scope d.source.toList := by
  obtain ⟨c, moved, hraised⟩ := exists_raised (parseWithin_of_error s he)
  obtain ⟨front, hstands⟩ := moved.stands (Cursor.stands_start d.source.toList)
  rw [hraised.position_eq, hstands.take_eq]
  refine ⟨hstands.alphabet, ?_, hraised.truthful hstands⟩
  rw [utf8ByteSize_eq hstands.alphabet, hstands.position_eq]

/-- A name is looked up whole: `sinh` is reported although `sin` begins it. -/
theorem build_error_truthful_sinh :
    let d := ofSource "sin(2*sinh 1)"
    let e : ParseError := .unknownFunction "sinh" 6
    (d.build .empty).outcome = .error e ∧
      (∀ ch ∈ d.source.toList.take e.position, InAlphabet ch) ∧
        (String.ofList (d.source.toList.take e.position)).utf8ByteSize = e.position ∧
          e.Truthful d.scope d.source.toList := by
  have he : ((ofSource "sin(2*sinh 1)").build .empty).outcome =
      .error (.unknownFunction "sinh" 6) := by rfl
  exact ⟨he, build_error_truthful he⟩

end Draft

end LiveArith
