import LiveArith.Proofs.Reports

/-! # Places — one report under every spacing

    Texts of the same tokens that fail to build fail after the same tokens.  They
    fail with the same report at the place of the same token, unless a report is of
    a space: then a level was needed where the space stands and none was left, for
    that is the one failure that is raised before the spaces are passed.  The route:

    * a token has its place in the text as the tokens before it say
      (`Cursor.Stands.getElem?_places`), and no space has one (`ne_space_of_mem_places`);
    * the two errors are raised at cursors before the same tokens (`formula_abreast`),
      and where no space stands they look at the same character;
    * parentheses alone use up the levels, and then what follows them is reported
      (`rule_parentheses`). -/

namespace LiveArith

open LiveArith.Grammar LiveArith.Parse LiveArith.Token

namespace Token

/-! ## Places of tokens -/

/-- The places at which the tokens of a text start, and then its end. -/
def places (text : List Char) : List Nat :=
  (placed 0 text).map Prod.fst ++ [text.length]

theorem placed_space (p : Nat) (rest : List Char) :
    placed p (' ' :: rest) = placed (p + 1) rest := by
  rw [placed, if_pos rfl]

theorem placed_isMark {ch : Char} (h : IsMark ch) (p : Nat) (rest : List Char) :
    placed p (ch :: rest) = (p, mark ch) :: placed (p + 1) rest := by
  rw [placed, if_neg h.1, if_neg (by simp [h.2.1]), if_neg (by simp [h.2.2])]

/-- A longest run is a token of as many places as it has characters. -/
theorem placed_run (k : RunKind) {run rest : List Char} (h : Longest k.holds run rest) (p : Nat) :
    placed p (run ++ rest) = (p, k.token run) :: placed (p + run.length) rest := by
  cases run with
  | nil => exact absurd rfl h.ne_nil
  | cons ch run =>
      obtain ⟨ht, hd⟩ := h.takeWhile_cons
      have hch := h.all ch List.mem_cons_self
      have hs : ch ≠ ' ' := by
        rintro rfl
        exact nomatch k.holds_space.symm.trans hch
      have hlen : p + 1 + run.length = p + (ch :: run).length := by
        rw [List.length_cons, Nat.add_assoc, Nat.add_comm 1]
      rw [List.cons_append, placed, if_neg hs, ← hlen]
      cases k with
      | figures =>
          have hf : Literal.isFigure ch = true := hch
          have ht : (run ++ rest).takeWhile Literal.isFigure = run := ht
          have hd : (run ++ rest).dropWhile Literal.isFigure = rest := hd
          rw [if_pos hf, ht, hd]
          rfl
      | letters =>
          have hf : ¬ Literal.isFigure ch = true := by simp [isFigure_of_isLetter hch]
          have hl : Scope.isLetter ch = true := hch
          have ht : (run ++ rest).takeWhile Scope.isLetter = run := ht
          have hd : (run ++ rest).dropWhile Scope.isLetter = rest := hd
          rw [if_neg hf, if_pos hl, ht, hd]
          rfl

/-- **PARTS IN PLACE.** Where no run goes across the seam of two texts, the tokens of each have
    their places. -/
theorem placed_append_of_not_joined {rest : List Char} : ∀ front, ¬ Joined front rest → ∀ p,
    placed p (front ++ rest) = placed p front ++ placed (p + front.length) rest := by
  intro front
  induction front using text_induction with
  | nil =>
      intro _ p
      rw [placed_nil, List.nil_append, List.nil_append]
      rfl
  | space front ih =>
      intro hj p
      rw [List.cons_append, placed_space, placed_space, ih fun h => hj (h.prepend [' ']),
        List.length_cons, Nat.add_assoc, Nat.add_comm 1]
  | run k run front hr ih =>
      intro hj p
      rw [List.append_assoc, placed_run k (hr.append_of_not_joined hj), placed_run k hr,
        ih fun h => hj (h.prepend run), List.cons_append, List.length_append, Nat.add_assoc]
  | mark ch front hm ih =>
      intro hj p
      rw [List.cons_append, placed_isMark hm, placed_isMark hm, ih fun h => hj (h.prepend [ch]),
        List.cons_append, List.length_cons, Nat.add_assoc, Nat.add_comm 1]

/-- What is no space begins a token. -/
theorem exists_placed_cons {ch : Char} (h : ch ≠ ' ') (p : Nat) (rest : List Char) :
    ∃ t us, placed p (ch :: rest) = (p, t) :: us := by
  rw [placed, if_neg h]
  split
  · exact ⟨_, _, rfl⟩
  · split <;> exact ⟨_, _, rfl⟩

/-- No token starts with a space. -/
theorem placed_ne_space : ∀ (text : List Char) (p : Nat), ∀ q ∈ (placed p text).map Prod.fst,
    p ≤ q ∧ text[q - p]? ≠ some ' ' := by
  intro text
  induction text using text_induction with
  | nil =>
      intro p q hq
      rw [placed_nil] at hq
      exact nomatch hq
  | space rest ih =>
      intro p q hq
      rw [placed_space] at hq
      obtain ⟨hle, hne⟩ := ih (p + 1) q hq
      refine ⟨Nat.le_of_succ_le hle, ?_⟩
      rwa [show q - p = (q - (p + 1)) + 1 by omega, List.getElem?_cons_succ]
  | run k run rest hr ih =>
      intro p q hq
      rw [placed_run k hr] at hq
      rcases List.mem_cons.1 hq with rfl | hq
      · refine ⟨Nat.le_refl _, fun hspace => ?_⟩
        rw [Nat.sub_self, ← List.head?_eq_getElem?,
          List.head?_append_of_ne_nil _ hr.ne_nil] at hspace
        have hholds := hr.all ' ' (List.mem_of_mem_head? hspace)
        exact nomatch k.holds_space.symm.trans hholds
      · obtain ⟨hle, hne⟩ := ih (p + run.length) q hq
        refine ⟨Nat.le_trans (Nat.le_add_right _ _) hle, ?_⟩
        rwa [List.getElem?_append_right (by omega),
          show q - p - run.length = q - (p + run.length) by omega]
  | mark ch rest hm ih =>
      intro p q hq
      rw [placed_isMark hm] at hq
      rcases List.mem_cons.1 hq with rfl | hq
      · refine ⟨Nat.le_refl _, fun hspace => hm.1 ?_⟩
        rw [Nat.sub_self, List.getElem?_cons_zero] at hspace
        exact Option.some.inj hspace
      · obtain ⟨hle, hne⟩ := ih (p + 1) q hq
        refine ⟨Nat.le_of_succ_le hle, ?_⟩
        rwa [show q - p = (q - (p + 1)) + 1 by omega, List.getElem?_cons_succ]

/-- No token starts at a space. -/
theorem ne_space_of_mem_places {text : List Char} {p : Nat} (h : p ∈ places text) :
    text[p]? ≠ some ' ' := by
  rcases List.mem_append.1 h with h | h
  · exact (placed_ne_space text 0 p h).2
  · rw [List.mem_singleton.1 h, List.getElem?_eq_none (Nat.le_refl _)]
    exact nofun

end Token

/-- A cursor past the spaces is at the place of its next token, or at the end. -/
theorem Cursor.Stands.getElem?_places {text front : List Char} {c : Cursor}
    (h : Stands text front c) (hs : c.lookahead ≠ some ' ') :
    (places text)[(scan front).length]? = some c.position := by
  have hlen : (scan front).length = ((placed 0 front).map Prod.fst).length := by
    rw [scan, List.length_map, List.length_map]
  have hplaces : places text = (placed 0 front).map Prod.fst ++
      ((placed front.length c.rest).map Prod.fst ++ [text.length]) := by
    rw [places]
    conv_lhs => rw [h.text_eq]
    rw [placed_append_of_not_joined front h.seam, List.map_append, Nat.zero_add, List.append_assoc,
      ← h.text_eq]
  rw [hplaces, hlen, List.getElem?_append_right (Nat.le_refl _), Nat.sub_self, h.position_eq]
  obtain ⟨p, rest⟩ := c
  cases rest with
  | nil =>
      rw [placed_nil, h.text_eq, List.append_nil]
      rfl
  | cons ch rest =>
      have hch : ch ≠ ' ' := fun e => hs (by rw [e]; rfl)
      obtain ⟨t, us, hplaced⟩ := exists_placed_cons hch front.length rest
      rw [hplaced]
      rfl

/-! ## One report -/

/-- The errors of two texts are one report: they say the same, each at the place that the same
    token has in its text, or each at the end of its text. -/
def SameReport (text text' : List Char) (e e' : ParseError) : Prop :=
  e' = e.moved e'.position ∧
    ∃ i : Nat, (places text)[i]? = some e.position ∧ (places text')[i]? = some e'.position

/-- The error reports a space. -/
def ParseError.AtSpace (e : ParseError) : Prop :=
  ∃ p, e = .unexpectedCharacter (some ' ') p

namespace Parse

open LiveArith.Parse.Parser LiveArith.Cursor

variable {scope : Scope} {text text' : List Char} {c d : Cursor} {e e' : ParseError}

/-- An unexpected character is the one at the cursor. -/
theorem Raised.found_eq {found : Option Char} {p : Nat}
    (h : Raised scope c (.unexpectedCharacter found p)) : found = c.lookahead := by
  generalize he : ParseError.unexpectedCharacter found p = e at h
  cases h with
  | unexpected => exact (ParseError.unexpectedCharacter.inj he).1
  | run k _ _ => cases k <;> exact nomatch he

/-- An error at a space is raised before one. -/
theorem Raised.lookahead_of_atSpace (h : Raised scope c e) (hs : e.AtSpace) :
    c.lookahead = some ' ' := by
  obtain ⟨p, rfl⟩ := hs
  exact h.found_eq.symm

/-- A report of a space is at the place of no token. -/
theorem Raised.not_mem_places (h : Raised scope c e) (hc : Moves (.start text) c)
    (hs : e.AtSpace) : e.position ∉ places text := by
  intro hmem
  obtain ⟨front, hstands⟩ := hc.stands (stands_start text)
  refine ne_space_of_mem_places hmem ?_
  rw [h.position_eq, ← hstands.lookahead_eq, h.lookahead_of_atSpace hs]

/-- Cursors that are abreast in texts of the same tokens are behind the same tokens. -/
theorem Abreast.scan_take_eq (h : Abreast text text' c d) (ht : scan text = scan text') :
    scan (text.take c.position) = scan (text'.take d.position) := by
  have hc := (scan_of_moves h.left).2
  have hd := (scan_of_moves h.right).2
  rw [ht, hd, h.tokens_eq] at hc
  exact (List.append_cancel_right hc).symm

/-- Before the same tokens, and past the spaces, two cursors are at the place of one token. -/
theorem Abreast.getElem?_places (h : Abreast text text' c d) (ht : scan text = scan text')
    (hs : Sighted c d) :
    ∃ i : Nat, (places text)[i]? = some c.position ∧ (places text')[i]? = some d.position := by
  obtain ⟨front, hc⟩ := h.left.stands (stands_start text)
  obtain ⟨front', hd⟩ := h.right.stands (stands_start text')
  have hscan := h.scan_take_eq ht
  rw [hc.take_eq, hd.take_eq] at hscan
  refine ⟨(scan front).length, hc.getElem?_places hs.1, ?_⟩
  rw [hscan]
  exact hd.getElem?_places hs.2

/-- **ONE REPORT.** Errors raised before the same tokens are one report exactly if neither is of
    a space. -/
theorem RaisedAbreast.sameReport_iff {α : Type} {r r' : Run α}
    (h : RaisedAbreast scope text text' r r' e e' c d) (ht : scan text = scan text') :
    SameReport text text' e e' ↔ ¬ e.AtSpace ∧ ¬ e'.AtSpace := by
  constructor
  · rintro ⟨-, i, hi, hi'⟩
    constructor
    · exact fun hs => h.raised.not_mem_places h.abreast.left hs (List.mem_of_getElem? hi)
    · exact fun hs => h.raised'.not_mem_places h.abreast.right hs (List.mem_of_getElem? hi')
  · rintro ⟨hs, hs'⟩
    have hplaces := fun hsighted => h.abreast.getElem?_places ht hsighted
    rw [← h.raised.position_eq, ← h.raised'.position_eq] at hplaces
    rcases h.report with ⟨hsighted, he⟩ | ⟨⟨found, p, hr, -⟩, found', p', hr', -⟩
    · rw [← h.raised'.position_eq] at he
      exact ⟨he, hplaces hsighted⟩
    · -- a level ran out in both texts, so both report what stands at the cursor
      obtain rfl := Except.error.inj (h.left.symm.trans hr)
      obtain rfl := Except.error.inj (h.right.symm.trans hr')
      have hc : found = c.lookahead := h.raised.found_eq
      have hd : found' = d.lookahead := h.raised'.found_eq
      have hsighted : Sighted c d := by
        rw [Sighted, ← hc, ← hd]
        exact ⟨fun hf => hs ⟨p, by rw [hf]⟩, fun hf => hs' ⟨p', by rw [hf]⟩⟩
      refine ⟨?_, hplaces hsighted⟩
      rw [hc, hd, h.abreast.lookahead_eq hsighted]
      rfl

/-- A space is reported only for want of a level. -/
theorem RaisedAbreast.exhausts_of_atSpace {α : Type} {r r' : Run α}
    (h : RaisedAbreast scope text text' r r' e e' c d) (hs : e.AtSpace ∨ e'.AtSpace) :
    Exhausts r ∧ Exhausts r' := by
  refine h.report.resolve_left ?_
  rintro ⟨hsighted, -⟩
  rcases hs with hs | hs
  · exact hsighted.1 (h.raised.lookahead_of_atSpace hs)
  · exact hsighted.2 (h.raised'.lookahead_of_atSpace hs)

end Parse

namespace Draft

/-- **SPACING OF ERRORS.** Texts of the same tokens whose builds fail do so after the same tokens.
    They fail with one report, of the same token or of the end, exactly if neither reports a
    space; and a space is reported only where a level was needed and none was left. -/
theorem build_sameReport_iff (d : Draft) {a b : String}
    (h : scan a.toList = scan b.toList) (s s' : Store) {e e' : ParseError}
    (he : ((d.withSource a).build s).outcome = .error e)
    (he' : ((d.withSource b).build s').outcome = .error e') :
    scan (a.toList.take e.position) = scan (b.toList.take e'.position) ∧
      (SameReport a.toList b.toList e e' ↔ ¬ e.AtSpace ∧ ¬ e'.AtSpace) ∧
        (e.AtSpace ∨ e'.AtSpace →
          ((d.withSource a).build s).RanOut ∧ ((d.withSource b).build s').RanOut) := by
  have hp := parseWithin_of_error s he
  have hp' := parseWithin_of_error s' he'
  rcases formula_abreast d.scope h maxDepth with
    ⟨e₁, e₁', c, c', hr⟩ | ⟨t, c, c', hok, -⟩
  · obtain rfl := Except.error.inj (hp.symm.trans hr.left)
    obtain rfl := Except.error.inj (hp'.symm.trans hr.right)
    refine ⟨?_, hr.sameReport_iff h, fun hs => ?_⟩
    · rw [hr.raised.position_eq, hr.raised'.position_eq]
      exact hr.abreast.scan_take_eq h
    · obtain ⟨hx, hx'⟩ := hr.exhausts_of_atSpace hs
      exact ⟨ranOut_of_exhausts s hx, ranOut_of_exhausts s' hx'⟩
  · exact nomatch hp.symm.trans hok

/-- An unknown name is reported at its place in either text. -/
theorem build_sameReport_unknownName :
    let a := "2 *( 3- foo )"
    let b := "2*(3-foo)"
    let e : ParseError := .unknownFunction "foo" 8
    let e' : ParseError := .unknownFunction "foo" 5
    (scan a.toList = scan b.toList ∧ ((twoNames.withSource a).build .empty).outcome = .error e ∧
      ((twoNames.withSource b).build .empty).outcome = .error e') ∧
      scan (a.toList.take e.position) = scan (b.toList.take e'.position) ∧
        (SameReport a.toList b.toList e e' ↔ ¬ e.AtSpace ∧ ¬ e'.AtSpace) ∧
          (e.AtSpace ∨ e'.AtSpace → ((twoNames.withSource a).build .empty).RanOut ∧
            ((twoNames.withSource b).build .empty).RanOut) := by
  have hscan : scan "2 *( 3- foo )".toList = scan "2*(3-foo)".toList := by decide +kernel
  have he : ((twoNames.withSource "2 *( 3- foo )").build .empty).outcome =
      .error (.unknownFunction "foo" 8) := by rfl
  have he' : ((twoNames.withSource "2*(3-foo)").build .empty).outcome =
      .error (.unknownFunction "foo" 5) := by rfl
  exact ⟨⟨hscan, he, he'⟩, build_sameReport_iff twoNames hscan .empty .empty he he'⟩

end Draft

/-! ## A report of a space -/

namespace Parse

open LiveArith.Parse.Parser

variable {scope : Scope}

/-- A factor that begins with a parenthesis has the error of the expression after it. -/
theorem signed_parenthesis {expression factor : Parser Tree} {p : Nat} {rest : List Char}
    {e : ParseError} (h : (expression ⟨p + 1, rest⟩).result = .error e) :
    (signed scope expression factor ⟨p, '(' :: rest⟩).result = .error e := by
  have hplus : take '+' ⟨p, '(' :: rest⟩ = ⟨[], .ok (false, ⟨p, '(' :: rest⟩)⟩ := rfl
  have hminus : take '-' ⟨p, '(' :: rest⟩ = ⟨[], .ok (false, ⟨p, '(' :: rest⟩)⟩ := rfl
  have hopen : take '(' ⟨p, '(' :: rest⟩ = ⟨[], .ok (true, ⟨p + 1, rest⟩)⟩ := rfl
  have hgroup : (group expression ⟨p + 1, rest⟩).result = .error e := by
    rw [group, bind_of_error _ h]
  have hbase : (base scope expression factor ⟨p, '(' :: rest⟩).result = .error e := by
    rw [base, bind_of_eq _ hopen]
    exact hgroup
  rw [signed, bind_of_eq _ hplus, if_neg Bool.false_ne_true, bind_of_eq _ hminus,
    if_neg Bool.false_ne_true, bind_of_error _ hbase]

/-- Each opening parenthesis takes two levels; where they are used up, what follows the
    parentheses is reported. -/
theorem rule_parentheses (scope : Scope) (rest : List Char) : ∀ k p,
    (rule scope .expression (2 * k) ⟨p, List.replicate k '(' ++ rest⟩).result =
      .error (.unexpectedCharacter rest.head? (p + k)) := by
  intro k
  induction k with
  | zero =>
      intro p
      rw [rule_expression_zero, within_of_error (e := .unexpectedCharacter rest.head? p) rfl]
      rfl
  | succ k ih =>
      intro p
      have hexpression := ih (p + 1)
      rw [Nat.add_assoc, Nat.add_comm 1] at hexpression
      have hfactor : (rule scope .factor (2 * k + 1)
          ⟨p, List.replicate (k + 1) '(' ++ rest⟩).result =
            .error (.unexpectedCharacter rest.head? (p + (k + 1))) := by
        rw [rule_factor_succ, List.replicate_succ, List.cons_append,
          within_of_error (signed_parenthesis hexpression)]
      have hterm : (rule scope .term (2 * k + 1)
          ⟨p, List.replicate (k + 1) '(' ++ rest⟩).result =
            .error (.unexpectedCharacter rest.head? (p + (k + 1))) := by
        rw [rule_term, within_of_error]
        rw [bind_of_error _ hfactor]
      rw [show 2 * (k + 1) = 2 * k + 1 + 1 from rfl, rule_expression_succ, within_of_error]
      rw [bind_of_error _ hterm]

/-- Two levels for each parenthesis, and the limit is spent. -/
theorem formula_parentheses (rest : List Char) :
    (formula scope maxDepth (.start (List.replicate 256 '(' ++ rest))).result =
      .error (.unexpectedCharacter rest.head? 256) := by
  have hrule := rule_parentheses scope rest 256 0
  rw [Nat.zero_add] at hrule
  rw [formula_eq, Cursor.start, show maxDepth = 2 * 256 from rfl, bind_of_error _ hrule]

end Parse

/-- **PARENTHESES BEYOND THE LIMIT.** After so many opening parentheses that no level is left,
    a build reports the next character, a space as well. -/
theorem Draft.build_parentheses (d : Draft) (s : Store) (rest : List Char) :
    ((d.withSource (String.ofList (List.replicate 256 '(' ++ rest))).build s).outcome =
      .error (.unexpectedCharacter rest.head? 256) := by
  have hp : ((d.withSource (String.ofList (List.replicate 256 '(' ++ rest))).parseWithin
      maxDepth).result = .error (.unexpectedCharacter rest.head? 256) := by
    rw [parseWithin, withSource, String.toList_ofList]
    exact formula_parentheses rest
  rw [build, buildWithin_of_error s hp]

/-- A space before a token alters the report: the space itself is reported in place of the
    token after it. -/
theorem Draft.exists_report_of_space :
    let a := String.ofList (List.replicate 256 '(' ++ [' ', '1'])
    let b := String.ofList (List.replicate 256 '(' ++ ['1'])
    let e : ParseError := .unexpectedCharacter (some ' ') 256
    let e' : ParseError := .unexpectedCharacter (some '1') 256
    scan a.toList = scan b.toList ∧
      (((Draft.ofSource "").withSource a).build .empty).outcome = .error e ∧
        (((Draft.ofSource "").withSource b).build .empty).outcome = .error e' ∧
          ¬ SameReport a.toList b.toList e e' := by
  have hscan : scan (List.replicate 256 '(' ++ [' ', '1']) =
      scan (List.replicate 256 '(' ++ ['1']) := by decide +kernel
  intro a b e e'
  refine ⟨?_, Draft.build_parentheses _ _ _, Draft.build_parentheses _ _ _, fun h => ?_⟩
  · rw [String.toList_ofList, String.toList_ofList]
    exact hscan
  · exact absurd h.1 (by decide)

end LiveArith
