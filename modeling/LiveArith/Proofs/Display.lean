import LiveArith.Proofs.Comparison
import LiveArith.Proofs.Numerals
import LiveArith.Proofs.Splicing

/-! # Display — the text of a value as a formula

    A value is displayed by the shortest digits of its magnitude, after a minus sign where
    its sign bit is set.  As a formula the digits are a literal and the minus sign negates
    it.  The route:

    * a value is its magnitude and its sign bit, and negation flips the sign bit alone
      (`Binary64.eq_of_magnitude_eq`, `Binary64.bits_neg`);
    * the text is those of the two parts (`NumberText.render_plain_of_isFinite`), and the
      digits are one token, a literal of the magnitude (`derives_digits`);
    * a text whose first factor is refused does not build (`Draft.build_of_factor_error`). -/

namespace LiveArith

open LiveArith.Grammar LiveArith.Parse LiveArith.Token

/-! ## Signs and magnitudes -/

namespace Binary64

section Fields

open Float.Model Float.Model.UnpackedFloat

/-- The bits of a value. -/
def bits (x : Float) : BitVec Format.binary64.numBits := x.toBits.toBitVec

/-- Without the sign bit the bits are those of the exponent and of the mantissa. -/
theorem magnitude_eq (x : Float) :
    magnitude x = (unpackExponent (bits x)).toNat * binade + (unpackMantissa (bits x)).toNat := by
  have hbits : magnitude x = (bits x).toNat % signBit := rfl
  rw [hbits, unpackExponent_def, unpackMantissa_def]
  simp only [signBit, binade, BitVec.extractLsb'_toNat, Nat.shiftRight_eq_div_pow, Nat.reducePow]
  omega

/-- The sign bit of a value is the first of its bits. -/
theorem isNegative_eq (x : Float) : isNegative x = decide (unpackSign (bits x) = 1#1) := by
  have hlt : (bits x).toNat < 2 ^ 64 := (bits x).isLt
  have hbits : isNegative x = decide (signBit ≤ (bits x).toNat) := rfl
  rw [hbits, decide_eq_decide, unpackSign_def, ← BitVec.toNat_inj]
  simp only [signBit, BitVec.extractLsb'_toNat, Nat.shiftRight_eq_div_pow, Nat.reducePow,
    Nat.reduceAdd, BitVec.toNat_ofNat, Nat.reduceMod] at hlt ⊢
  omega

/-- A value is its magnitude and its sign. -/
theorem eq_of_magnitude_eq {x y : Float} (h : magnitude x = magnitude y)
    (hs : isNegative x = isNegative y) : x = y := by
  rw [← Float.toBits_inj, ← UInt64.toNat_inj]
  rw [isNegative, isNegative, decide_eq_decide] at hs
  have hx := x.toBits.toNat_lt
  have hy := y.toBits.toNat_lt
  simp only [magnitude, signBit] at h hs
  omega

/-- Only the exponent tells whether a value is finite. -/
theorem isFinite_iff (x : Float) : x.isFinite = true ↔ unpackExponent (bits x) ≠ -1#_ := by
  have hunpack : x.isFinite = (UnpackedFloat.unpack .binary64 (bits x)).isFinite := rfl
  rw [hunpack]
  constructor
  · intro h hexponent
    rw [UnpackedFloat.unpack, if_pos hexponent] at h
    split at h <;> exact nomatch h
  · intro hexponent
    rw [UnpackedFloat.unpack, if_neg hexponent]
    split
    · split <;> rfl
    · rfl

/-- A finite value has a finite magnitude. -/
theorem magnitude_lt {x : Float} (h : x.isFinite = true) : magnitude x < infinity := by
  have hexponent : (unpackExponent (bits x)).toNat ≠ 0x7FF := fun he =>
    (isFinite_iff x).1 h (BitVec.eq_of_toNat_eq he)
  have he : (unpackExponent (bits x)).toNat < 0x800 := (unpackExponent (bits x)).isLt
  have hm : (unpackMantissa (bits x)).toNat < binade := (unpackMantissa (bits x)).isLt
  rw [binade] at hm
  rw [magnitude_eq, binade, infinity]
  omega

/-- A value that is not finite has no more than its mantissa above infinity. -/
theorem magnitude_of_exponent {x : Float} (h : unpackExponent (bits x) = -1#_) :
    magnitude x = infinity + (unpackMantissa (bits x)).toNat := by
  rw [magnitude_eq, h]
  rfl

/-- The magnitude of an infinity is infinity. -/
theorem magnitude_of_isInf {x : Float} (h : x.isInf = true) : magnitude x = infinity := by
  change (UnpackedFloat.unpack .binary64 (bits x)).isInf = true at h
  rw [UnpackedFloat.unpack] at h
  split_ifs at h with hexponent hmantissa
  · rw [magnitude_of_exponent hexponent, hmantissa]
    rfl
  all_goals exact nomatch h

/-- The magnitude of a NaN is beyond infinity. -/
theorem infinity_lt_magnitude {x : Float} (h : x.isNaN = true) : infinity < magnitude x := by
  change (UnpackedFloat.unpack .binary64 (bits x)).isNaN = true at h
  rw [UnpackedFloat.unpack] at h
  split_ifs at h with hexponent hmantissa
  case neg =>
    rw [magnitude_of_exponent hexponent]
    have hpos := (BitVec.toNat_pos _).2 ((BitVec.pos_iff_ne_zero _).2 hmantissa)
    omega
  all_goals exact nomatch h

/-- The bits with the other sign. -/
def flipped (b : BitVec Format.binary64.numBits) : BitVec Format.binary64.numBits :=
  packComponents .binary64 (-Sign.ofBitVec (unpackSign b)) (unpackExponent b) (unpackMantissa b)

/-- Flipping the sign bit negates the number. -/
theorem unpack_flipped (b : BitVec Format.binary64.numBits) :
    UnpackedFloat.unpack .binary64 (flipped b) = (UnpackedFloat.unpack .binary64 b).neg := by
  simp only [UnpackedFloat.unpack, flipped, unpackMantissa_packComponents,
    unpackExponent_packComponents, unpackSign_packComponents, Sign.ofBitVec_toBitVec]
  split_ifs <;> rfl

/-- **NEGATION** of a finite value flips its sign bit and no other. -/
theorem bits_neg {x : Float} (h : x.isFinite = true) : bits (-x) = flipped (bits x) := by
  have hneg : bits (-x) =
      UnpackedFloat.pack .binary64 (UnpackedFloat.unpack .binary64 (bits x)).neg := rfl
  have hnot : isNaNBits (flipped (bits x)) = false := by
    rw [isNaNBits, flipped, unpackExponent_packComponents, decide_eq_false_iff_not]
    exact fun hnan => (isFinite_iff x).1 h hnan.1
  rw [hneg, ← unpack_flipped, pack_unpack, hnot, if_neg Bool.false_ne_true]

/-- Negation keeps the magnitude. -/
theorem magnitude_neg {x : Float} (h : x.isFinite = true) : magnitude (-x) = magnitude x := by
  rw [magnitude_eq, magnitude_eq, bits_neg h, flipped, unpackExponent_packComponents,
    unpackMantissa_packComponents]

/-- Negation keeps a value finite. -/
theorem isFinite_neg {x : Float} (h : x.isFinite = true) : (-x).isFinite = true := by
  rw [isFinite_iff, bits_neg h, flipped, unpackExponent_packComponents]
  exact (isFinite_iff x).1 h

/-- Negation turns the sign bit. -/
theorem isNegative_neg {x : Float} (h : x.isFinite = true) : isNegative (-x) = !isNegative x := by
  have hsign : ∀ b : BitVec 1, decide ((-Sign.ofBitVec b).toBitVec = 1#1) = !decide (b = 1#1) := by
    decide
  rw [isNegative_eq, isNegative_eq, bits_neg h, flipped, unpackSign_packComponents, hsign]

end Fields

variable {x : Float}

/-- Negation undoes itself, on the bits as well. -/
theorem neg_neg (h : x.isFinite = true) : -(-x) = x := by
  refine eq_of_magnitude_eq ?_ ?_
  · rw [magnitude_neg (isFinite_neg h), magnitude_neg h]
  · rw [isNegative_neg (isFinite_neg h), isNegative_neg h, Bool.not_not]

/-- A finite value with a clear sign bit is that of its magnitude. -/
theorem toFloat_magnitude (h : x.isFinite = true) (hs : isNegative x = false) :
    toFloat (magnitude x) = x := by
  have hle : magnitude x ≤ infinity := Nat.le_of_lt (magnitude_lt h)
  refine eq_of_magnitude_eq ?_ ?_
  · rw [magnitude, toNat_toBits_toFloat hle]
    exact Nat.mod_eq_of_lt (Nat.lt_of_le_of_lt hle (by decide))
  · rw [(isMagnitude_toFloat hle).isNegative, hs]

/-- The magnitude of a finite value with the sign bit set is that of its negation. -/
theorem toFloat_magnitude_of_isNegative (h : x.isFinite = true) (hs : isNegative x = true) :
    toFloat (magnitude x) = -x := by
  rw [← magnitude_neg h, toFloat_magnitude (isFinite_neg h)]
  rw [isNegative_neg h, hs]
  rfl

end Binary64

/-! ## The text of a value -/

namespace NumberText

variable {x : Float}

/-- A display that asks for nothing is the plain rendering. -/
theorem display_default (x : Float) : display {} x = render plain x := by
  have hpad : ∀ text : String, pad 0 .right text = text := by
    intro text
    rw [pad, Nat.zero_sub]
    exact String.append_empty.trans String.empty_append
  exact hpad _

/-- The sign of a number is a minus where its sign bit is set. -/
theorem sign_of_le (h : Binary64.magnitude x ≤ Binary64.infinity) :
    sign "" x = if Binary64.isNegative x then "-" else "" :=
  if_neg (Nat.not_lt.2 h)

theorem plain_write (d : Decimal) : plain.write d = String.ofList d.positional := by
  have htail : (if d.isWhole then plain.wholeTail else "") = "" := by
    split <;> rfl
  rw [Style.write, htail]
  exact String.append_empty

/-- A finite value is displayed by the shortest digits of its magnitude, with its sign. -/
theorem render_plain_of_isFinite (h : x.isFinite = true) : render plain x =
    (if Binary64.isNegative x then "-" else "") ++
      String.ofList (Decimal.shortest (Binary64.magnitude x)).positional := by
  have hlt := Binary64.magnitude_lt h
  have hunsigned : unsigned (fun b => plain.write (Decimal.shortest b)) x =
      plain.write (Decimal.shortest (Binary64.magnitude x)) := if_pos hlt
  rw [render, sign_of_le (Nat.le_of_lt hlt), hunsigned, plain_write]

/-- An infinity is displayed as `inf`, with its sign. -/
theorem render_plain_of_isInf (h : x.isInf = true) :
    render plain x = (if Binary64.isNegative x then "-" else "") ++ "inf" := by
  have heq := Binary64.magnitude_of_isInf h
  have hunsigned : unsigned (fun b => plain.write (Decimal.shortest b)) x = "inf" :=
    (if_neg (Nat.not_lt.2 (Nat.le_of_eq heq.symm))).trans (if_pos heq)
  rw [render, sign_of_le (Nat.le_of_eq heq), hunsigned]

/-- A NaN is displayed as `NaN`, without a sign. -/
theorem render_plain_of_isNaN (h : x.isNaN = true) : render plain x = "NaN" := by
  have hlt := Binary64.infinity_lt_magnitude h
  have hsign : sign "" x = "" := if_pos hlt
  have hunsigned : unsigned (fun b => plain.write (Decimal.shortest b)) x = "NaN" :=
    (if_neg (Nat.not_lt.2 (Nat.le_of_lt hlt))).trans (if_neg (Nat.ne_of_gt hlt))
  rw [render, hsign, hunsigned]
  rfl

end NumberText

/-! ## The text as a formula -/

namespace Parse

open LiveArith.Parse.Parser

variable {scope : Scope} {c : Cursor} {n : Nat} {e : ParseError}

/-- A text fails as its first factor does. -/
theorem formula_of_factor_error (h : (rule scope .factor n c).result = .error e) :
    (formula scope (n + 1) c).result = .error e := by
  have hterm : (rule scope .term n c).result = .error e := by
    rw [rule_term, within_of_error (congrArg Run.result (bind_of_error _ h))]
  have hexpression : (rule scope .expression (n + 1) c).result = .error e := by
    rw [rule_expression_succ, within_of_error (congrArg Run.result (bind_of_error _ hterm))]
  rw [formula_eq, bind_of_error _ hexpression]

/-- A factor that begins with neither a sign nor a parenthesis fails as its number or its name
    does, or at once. -/
theorem factor_of_unopened_error (hspace : c.lookahead ≠ some ' ')
    (hhead : ∀ ch ∈ ['+', '-', '('], c.tokens.head? ≠ some (.mark ch))
    (h : ((if c.lookahead.any Literal.isFigure then number
      else if c.lookahead.any Scope.isLetter then named scope (rule scope .factor n)
      else unexpected) c).result = .error e) :
    (rule scope .factor (n + 1) c).result = .error e := by
  have hskip := Cursor.skipSpaces_of_lookahead hspace
  have hplus := hhead '+' (by decide)
  have hminus := hhead '-' (by decide)
  have hopen := hhead '(' (by decide)
  have hbase : (base scope (rule scope .expression n) (rule scope .factor n) c).result =
      .error e := by
    rw [base_of_take (take_of_ne (by decide) hopen), hskip]
    exact h
  have hsigned : (signed scope (rule scope .expression n) (rule scope .factor n) c).result =
      .error e := by
    rw [signed, bind_of_eq _ (take_of_ne (by decide) hplus), hskip, if_neg Bool.false_ne_true,
      bind_of_eq _ (take_of_ne (by decide) hminus), hskip, if_neg Bool.false_ne_true,
      bind_of_error _ hbase]
  rw [rule_factor_succ, within_of_error hsigned]

/-- A name without a meaning is no factor. -/
theorem factor_of_unknown {letters : List Char} (hne : letters ≠ [])
    (hletter : ∀ ch ∈ letters, Scope.isLetter ch = true)
    (hmeaning : scope.meaning? (String.ofList letters) = none) (p : Nat) :
    (rule scope .factor (n + 1) ⟨p, letters⟩).result =
      .error (.unknownFunction (String.ofList letters) p) := by
  have htokens : (⟨p, letters⟩ : Cursor).tokens = [.word letters] := 
    scan_whole_run .letters hne hletter
  have hrun : (⟨p, letters⟩ : Cursor).run Scope.isLetter = letters :=
    List.takeWhile_eq_self_iff.2 hletter
  have hname : (name scope ⟨p, letters⟩).result =
      .error (.unknownFunction (String.ofList letters) p) := by
    rw [name_apply, hrun, hmeaning]
  obtain ⟨first, rest, rfl⟩ := List.exists_cons_of_ne_nil hne
  have hfirst := hletter first List.mem_cons_self
  have hfigure : ¬ (⟨p, first :: rest⟩ : Cursor).lookahead.any Literal.isFigure = true := by
    rw [Bool.not_eq_true]
    exact isFigure_of_isLetter hfirst
  have hword : (⟨p, first :: rest⟩ : Cursor).lookahead.any Scope.isLetter = true := hfirst
  refine factor_of_unopened_error (fun hspace => ?_) (fun ch _ => ?_) ?_
  · obtain rfl : first = ' ' := Option.some.inj hspace
    exact absurd hfirst (by decide)
  · rw [htokens]
    simp
  · rw [if_neg hfigure, if_pos hword, named, bind_of_error _ hname]

/-- No builtin is named `inf`. -/
theorem factor_of_inf (h : scope.find? "inf" = none) (p : Nat) :
    (rule scope .factor (n + 1) ⟨p, ['i', 'n', 'f']⟩).result =
      .error (.unknownFunction "inf" p) := by
  have hname : String.ofList ['i', 'n', 'f'] = "inf" := rfl
  have hletters : ['i', 'n', 'f'].all Scope.isLetter = true := by decide
  have hmeaning : scope.meaning? (String.ofList ['i', 'n', 'f']) = none := by
    rw [hname, Scope.meaning?, h]
    rfl
  exact factor_of_unknown (List.cons_ne_nil _ _) (List.all_eq_true.1 hletters) hmeaning p

/-- A mark that is neither a sign nor a parenthesis begins no factor. -/
theorem factor_of_mark {ch : Char} (hm : IsMark ch) (hne : ch ∉ ['+', '-', '(']) (p : Nat)
    (rest : List Char) :
    (rule scope .factor (n + 1) ⟨p, ch :: rest⟩).result =
      .error (.unexpectedCharacter (some ch) p) := by
  have htokens : (⟨p, ch :: rest⟩ : Cursor).tokens = .mark ch :: scan rest := scan_isMark hm rest
  have hfigure : ¬ (⟨p, ch :: rest⟩ : Cursor).lookahead.any Literal.isFigure = true := by
    rw [Bool.not_eq_true]
    exact hm.2.1
  have hletter : ¬ (⟨p, ch :: rest⟩ : Cursor).lookahead.any Scope.isLetter = true := by
    rw [Bool.not_eq_true]
    exact hm.2.2
  refine factor_of_unopened_error (fun hspace => hm.1 (Option.some.inj hspace))
    (fun other hother hhead => ?_) ?_
  · rw [htokens] at hhead
    obtain rfl : ch = other := Token.mark.inj (Option.some.inj hhead)
    exact hne hother
  · rw [if_neg hfigure, if_neg hletter]
    rfl

/-- A minus sign is followed by a factor. -/
theorem factor_of_minus {rest : List Char} {p : Nat}
    (h : (rule scope .factor n ⟨p + 1, rest⟩).result = .error e) :
    (rule scope .factor (n + 1) ⟨p, '-' :: rest⟩).result = .error e := by
  have hplus : take '+' ⟨p, '-' :: rest⟩ = ⟨[], .ok (false, ⟨p, '-' :: rest⟩)⟩ := rfl
  have hminus : take '-' ⟨p, '-' :: rest⟩ = ⟨[], .ok (true, ⟨p + 1, rest⟩)⟩ := rfl
  have hsigned : (signed scope (rule scope .expression n) (rule scope .factor n)
      ⟨p, '-' :: rest⟩).result = .error e := by
    rw [signed, bind_of_eq _ hplus, if_neg Bool.false_ne_true, bind_of_eq _ hminus, if_pos rfl,
      bind_of_error _ h]
  rw [rule_factor_succ, within_of_error hsigned]

end Parse

/-- **DIGITS.** The shortest digits of a finite pattern are one token, a literal of its value. -/
theorem derives_digits {scope : Scope} {b : Nat} (hb : b < Binary64.infinity) (n : Nat) :
    Derives scope .factor (n + 1) (scan (Decimal.shortest b).positional)
      (.constant (Binary64.toFloat b)) := by
  have hwritten := (Decimal.shortest b).written_positional
  rw [scan_whole_run .figures hwritten.ne_nil fun c => hwritten.isFigure]
  exact .bare (.number (Decimal.read?_positional_shortest hb))

namespace Draft

variable (d : Draft) (s : Store) {text : String}

/-- A text that is one factor builds. -/
theorem build_of_factor {t : Tree} (h : Derives d.scope .factor 511 (scan text.toList) t) :
    ((d.withSource text).build s).outcome = .ok ⟨text, t⟩ := by
  refine (buildWithin_eq_ok_iff s ⟨text, t⟩).2 ⟨rfl, ?_⟩
  have hexpression := Derives.expression (Derives.term h .lastFactor) .lastTerm
  rwa [List.append_nil, List.append_nil] at hexpression

/-- A text whose first factor fails does not build. -/
theorem build_of_factor_error {e : ParseError}
    (h : (rule d.scope .factor 511 (.start text.toList)).result = .error e) :
    ((d.withSource text).build s).outcome = .error e := by
  have hparse : ((d.withSource text).parseWithin maxDepth).result = .error e :=
    formula_of_factor_error h
  rw [build, buildWithin_of_error s hparse]

/-- **DISPLAY.** The displayed text of a finite value builds, whatever names are registered, to
    a constant with the value or, where the sign bit is set, to a negation of one, and evaluates
    back to the value.  An infinity is read as the name `inf`, and a NaN not at all. -/
theorem build_display (v : Float) :
    (v.isFinite = true →
      ∃ f, ((d.withSource (NumberText.display {} v)).build s).outcome = .ok f ∧
        f.root = (if Binary64.isNegative v then .negate (.constant (-v)) else .constant v) ∧
        ∀ s', (f.eval s').toBits = v.toBits) ∧
    (v.isInf = true → d.scope.find? "inf" = none →
      ((d.withSource (NumberText.display {} v)).build s).outcome =
        .error (.unknownFunction "inf" (if Binary64.isNegative v then 1 else 0))) ∧
    (v.isNaN = true →
      ((d.withSource (NumberText.display {} v)).build s).outcome =
        .error (.unexpectedCharacter (some 'N') 0)) := by
  rw [NumberText.display_default]
  refine ⟨fun h => ?_, fun h hfind => ?_, fun h => ?_⟩
  · have hdigits : ∀ n, Derives d.scope .factor (n + 1) _ _ :=
      derives_digits (Binary64.magnitude_lt h)
    rw [NumberText.render_plain_of_isFinite h]
    cases hsign : Binary64.isNegative v with
    | false =>
        rw [Binary64.toFloat_magnitude h hsign] at hdigits
        refine ⟨⟨_, .constant v⟩, build_of_factor d s ?_, rfl, fun s' => rfl⟩
        rw [if_neg Bool.false_ne_true, String.empty_append, String.toList_ofList]
        exact hdigits 510
    | true =>
        rw [Binary64.toFloat_magnitude_of_isNegative h hsign] at hdigits
        have hminus : ∀ run : List Char, scan ("-" ++ String.ofList run).toList =
            .mark '-' :: scan run := by
          intro run
          have hmark : IsMark '-' := by decide
          rw [String.toList_append, String.toList_ofList, String.toList_ofList]
          exact scan_isMark hmark run
        refine ⟨⟨_, .negate (.constant (-v))⟩, build_of_factor d s ?_, rfl,
          fun s' => congrArg Float.toBits (Binary64.neg_neg h)⟩
        rw [if_pos rfl, hminus]
        exact .minus (hdigits 509)
  · have hunknown := fun n => factor_of_inf (n := n) hfind
    rw [NumberText.render_plain_of_isInf h]
    refine build_of_factor_error d s ?_
    cases Binary64.isNegative v with
    | false => exact hunknown 510 0
    | true => exact factor_of_minus (hunknown 509 1)
  · rw [NumberText.render_plain_of_isNaN h]
    exact build_of_factor_error d s (factor_of_mark (by decide) (by decide) 0 ['a', 'N'])

end Draft

end LiveArith
