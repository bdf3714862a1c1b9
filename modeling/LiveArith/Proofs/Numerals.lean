import Mathlib.Data.List.TakeWhile
import LiveArith.Number.Literal
import LiveArith.Number.Text

/-! # Numerals — the digits of a magnitude read back

    A value is written by its shortest digits, without an exponent, and a literal is a
    run of digits and dots.  The first is one of the second, with the same magnitude.
    The route:

    * rounding keeps what needs no rounding (`Binary64.nearest_units`), so the finest
      grid reads back and the search ends with a decimal that does
      (`Decimal.magnitude_shortest`);
    * positional notation is a literal of the decimal it writes, up to zeros that move
      from the exponent into the digits (`Decimal.decimal_positional`,
      `Decimal.magnitude_decimal_positional`). -/

namespace LiveArith

/-! ## Magnitudes that need no rounding -/

namespace Binary64

/-- A pattern of a later binade than the first has 53 bits, and its steps are as wide as the
    binade says. -/
theorem log2_units {b : Nat} (h : b / binade ≠ 0) :
    (units b).log2 - 52 = b / binade - 1 := by
  have hbinade : binade = 2 ^ 52 := rfl
  have hrest : b % binade < 2 ^ 52 := Nat.mod_lt _ (by decide)
  have hunits : units b = (2 ^ 52 + b % binade) * 2 ^ (b / binade - 1) := if_neg h
  have hpow : 0 < 2 ^ (b / binade - 1) := Nat.two_pow_pos _
  have hlog : (units b).log2 = 52 + (b / binade - 1) := by
    rw [Nat.log2_eq_iff (by rw [hunits]; exact Nat.ne_of_gt (Nat.mul_pos (by omega) hpow)), hunits]
    constructor
    · rw [Nat.pow_add]
      exact Nat.mul_le_mul_right _ (Nat.le_add_right _ _)
    · rw [Nat.add_right_comm, Nat.pow_add 2 (52 + 1)]
      exact Nat.mul_lt_mul_of_pos_right (by omega) hpow
  rw [hlog, Nat.add_sub_cancel_left]

/-- **EXACTNESS.** The magnitude of a finite pattern is nearest to that pattern. -/
theorem nearest_units {b den : Nat} (hb : b < infinity) (hden : 0 < den) :
    nearest (units b * den) den = b := by
  have hround : (units b).log2 - 52 = b / binade - 1 →
      (b / binade - 1) * binade +
        Rounding.halfEven (units b * den) (den * Nat.pow 2 (b / binade - 1)) = b →
      nearest (units b * den) den = b := by
    intro hk hb'
    rw [nearest, Nat.mul_div_cancel _ hden, hk, hb']
    exact Nat.min_eq_left (Nat.le_of_lt hb)
  have hsplit : binade * (b / binade) + b % binade = b := Nat.div_add_mod b binade
  by_cases h : b / binade = 0
  · -- the patterns of the first binade count units
    have hunits : units b = b := if_pos h
    have hlt : b < 2 ^ 52 := Nat.lt_of_div_eq_zero (by decide) h
    refine hround ?_ ?_
    · rw [hunits, h, Nat.sub_eq_zero_of_le]
      by_cases hzero : b = 0
      · rw [hzero]
        decide
      · exact Nat.le_of_lt ((Nat.log2_lt hzero).2 hlt)
    · rw [hunits, h]
      show 0 * binade + Rounding.halfEven (b * den) (den * 1) = b
      rw [Nat.mul_one, Rounding.halfEven_mul b hden]
      omega
  · have hunits : units b = (binade + b % binade) * Nat.pow 2 (b / binade - 1) := if_neg h
    have hpow : 0 < den * Nat.pow 2 (b / binade - 1) := Nat.mul_pos hden (Nat.two_pow_pos _)
    refine hround (log2_units h) ?_
    rw [hunits, Nat.mul_assoc, Nat.mul_comm _ den, Rounding.halfEven_mul _ hpow, Nat.sub_mul,
      Nat.mul_comm (b / binade)]
    have hbinade : binade ≤ binade * (b / binade) :=
      Nat.le_mul_of_pos_right _ (Nat.pos_of_ne_zero h)
    omega

end Binary64

/-! ## The shortest decimal -/

namespace Decimal

/-- The magnitude of digits with a number of decimal places. -/
theorem magnitude_places (x n : Nat) :
    (⟨x, -(n : Int)⟩ : Decimal).magnitude =
      Binary64.nearest (x * Binary64.one) (Nat.pow 10 n) := by
  have hwhole : (-(n : Int)).toNat = 0 := by omega
  have hplaces : (- -(n : Int)).toNat = n := by omega
  have hunit : x * Nat.pow 10 0 = x := Nat.mul_one x
  rw [magnitude, hwhole, hplaces, hunit]

/-- The finest grid holds every finite magnitude. -/
theorem magnitude_exact {b : Nat} (hb : b < Binary64.infinity) :
    (onGrid (exactDigits b) 0).magnitude = b := by
  have hgrid : onGrid (exactDigits b) 0 = ⟨exactDigits b, -(exactPlaces : Int)⟩ := by
    rw [onGrid, Int.ofNat_zero, Int.zero_sub]
  have hpow : ∀ n, Nat.pow 5 n * Nat.pow 2 n = Nat.pow 10 n := fun n => (Nat.mul_pow 5 2 n).symm
  have hpos : ∀ n, 0 < Nat.pow 10 n := fun n => Nat.pow_pos (by decide)
  have hplaces : exactPlaces = 1074 := rfl
  rw [hgrid, magnitude_places, exactDigits]
  delta Binary64.one
  rw [← hplaces, Nat.mul_assoc, hpow]
  exact Binary64.nearest_units hb (hpos _)

/-- The search ends with a decimal that reads back if its finest grid has one. -/
theorem magnitude_search {b x : Nat} (h : (onGrid x 0).magnitude = b) (p : Nat) :
    (search b x p).magnitude = b := by
  induction p with
  | zero => exact h
  | succ p ih =>
      rw [search]
      split
      · next n hn =>
          have hfound := List.find?_some hn
          exact beq_iff_eq.1 hfound
      · exact ih

/-- **SHORTEST DIGITS** read back. -/
theorem magnitude_shortest {b : Nat} (hb : b < Binary64.infinity) : (shortest b).magnitude = b := by
  by_cases h : b = 0
  · subst h
    rw [shortest, if_pos rfl, magnitude, Nat.zero_mul, Nat.zero_mul]
    rfl
  · rw [shortest, if_neg h]
    exact magnitude_search (magnitude_exact hb) _

end Decimal

/-! ## Positional notation -/

namespace Literal

variable {run whole fraction : List Char}

/-- A run of digits is a whole number. -/
theorem decimal_digits (h : ∀ c ∈ run, c.isDigit = true) :
    decimal run = ⟨Nat.ofDigitChars 10 run 0, 0⟩ := by
  have hpoint : run.dropWhile (· != '.') = [] := by
    refine List.dropWhile_eq_nil_iff.2 fun c hc => bne_iff_ne.2 ?_
    rintro rfl
    exact nomatch h _ hc
  rw [decimal, List.filter_eq_self.2 h, hpoint]
  rfl

/-- A point says how many of the digits are decimal places. -/
theorem decimal_point (hw : ∀ c ∈ whole, c.isDigit = true) (hf : ∀ c ∈ fraction, c.isDigit = true) :
    decimal (whole ++ '.' :: fraction) =
      ⟨Nat.ofDigitChars 10 (whole ++ fraction) 0, -(fraction.length : Int)⟩ := by
  have hpoint : (whole ++ '.' :: fraction).dropWhile (· != '.') = '.' :: fraction := by
    rw [List.dropWhile_append_of_pos]
    · rfl
    · intro c hc
      refine bne_iff_ne.2 ?_
      rintro rfl
      exact nomatch hw _ hc
  have hdigits : (whole ++ '.' :: fraction).filter Char.isDigit = whole ++ fraction := by
    rw [List.filter_append, List.filter_cons_of_neg (by decide), List.filter_eq_self.2 hw,
      List.filter_eq_self.2 hf]
  rw [decimal, hpoint, hdigits]
  rfl

end Literal

namespace Decimal

variable (d : Decimal)

/-- The figures of a decimal are digits. -/
theorem isDigit_of_mem_figures {c : Char} (h : c ∈ d.figures) : c.isDigit = true :=
  Nat.isDigit_of_mem_toDigits (by decide) (by decide) h

/-- A cut takes no digit away and leaves one before it. -/
theorem cut_spec (figures : List Char) (places : Nat) :
    ∃ whole fraction, cut figures places = (whole, fraction) ∧ whole ≠ [] ∧
      fraction.length = places ∧
      whole ++ fraction = List.replicate (places + 1 - figures.length) '0' ++ figures := by
  have hlength : (List.replicate (places + 1 - figures.length) '0' ++ figures).length =
      places + 1 - figures.length + figures.length := by
    rw [List.length_append, List.length_replicate]
  refine ⟨_, _, List.splitAt_eq, ?_, ?_, List.take_append_drop _ _⟩
  · refine List.ne_nil_of_length_pos ?_
    rw [List.length_take, hlength]
    omega
  · rw [List.length_drop, hlength]
    omega

/-- The decimal in positional notation: with zeros after its figures, or with zeros before them
    and a point among them. -/
inductive Written : List Char → Prop where
  | whole : 0 ≤ d.exponent → Written (d.figures ++ List.replicate d.exponent.toNat '0')
  | point {whole fraction n} : whole ≠ [] →
      whole ++ fraction = List.replicate n '0' ++ d.figures →
      d.exponent = -(fraction.length : Int) → Written (whole ++ '.' :: fraction)

/-- Positional notation writes the decimal. -/
theorem written_positional : d.Written d.positional := by
  by_cases h : 0 ≤ d.exponent
  · rw [positional, if_pos h]
    exact .whole h
  · obtain ⟨whole, fraction, hcut, hwhole, hlength, happend⟩ :=
      cut_spec d.figures (-d.exponent).toNat
    rw [positional, if_neg h, hcut]
    exact .point hwhole happend (by omega)

namespace Written

variable {d : Decimal} {run : List Char}

/-- Figures with zeros after them are digits. -/
theorem isDigit_of_whole {n : Nat} {c : Char} (hc : c ∈ d.figures ++ List.replicate n '0') :
    c.isDigit = true := by
  rcases List.mem_append.1 hc with hc | hc
  · exact d.isDigit_of_mem_figures hc
  · rw [List.eq_of_mem_replicate hc]
    rfl

/-- On both sides of the point there are digits. -/
theorem isDigit_of_point {whole fraction : List Char} {n : Nat}
    (h : whole ++ fraction = List.replicate n '0' ++ d.figures) {c : Char}
    (hc : c ∈ whole ∨ c ∈ fraction) : c.isDigit = true := by
  rw [← List.mem_append, h, List.mem_append, or_comm, ← List.mem_append] at hc
  exact isDigit_of_whole hc

/-- What is written are digits and a point. -/
theorem isFigure (h : d.Written run) {c : Char} (hc : c ∈ run) : Literal.isFigure c = true := by
  have hdigit : c.isDigit = true → Literal.isFigure c = true :=
    fun hc => Bool.or_eq_true_iff.2 (Or.inl hc)
  cases h with
  | whole _ => exact hdigit (isDigit_of_whole hc)
  | point _ happend _ =>
      rcases List.mem_append.1 hc with hc | hc
      · exact hdigit (isDigit_of_point happend (Or.inl hc))
      · rcases List.mem_cons.1 hc with rfl | hc
        · rfl
        · exact hdigit (isDigit_of_point happend (Or.inr hc))

/-- Something is written. -/
theorem ne_nil (h : d.Written run) : run ≠ [] := by
  cases h with
  | whole _ => exact List.append_ne_nil_of_left_ne_nil Nat.toDigits_ne_nil _
  | point hwhole _ _ => exact List.append_ne_nil_of_left_ne_nil hwhole _

/-- There is a digit, and at most one point. -/
theorem isValid (h : d.Written run) : Literal.isValid run = true := by
  have hpoint : ∀ {cs : List Char}, (∀ c ∈ cs, c.isDigit = true) → cs.count '.' = 0 :=
    fun hcs => List.count_eq_zero.2 fun hc => nomatch hcs _ hc
  have hvalid : ∀ {cs : List Char} {c : Char}, c ∈ cs → c.isDigit = true → cs.count '.' ≤ 1 →
      Literal.isValid cs = true := fun hc hdigit hcount =>
    Bool.and_eq_true_iff.2 ⟨List.any_eq_true.2 ⟨_, hc, hdigit⟩, decide_eq_true hcount⟩
  cases h with
  | whole _ =>
      obtain ⟨c, hc⟩ := List.exists_mem_of_ne_nil d.figures Nat.toDigits_ne_nil
      refine hvalid (List.mem_append_left _ hc) (d.isDigit_of_mem_figures hc) ?_
      rw [hpoint fun c => isDigit_of_whole]
      exact Nat.zero_le 1
  | @point whole fraction n hwhole happend _ =>
      have hdigits := fun c => isDigit_of_point (c := c) happend
      obtain ⟨c, hc⟩ := List.exists_mem_of_ne_nil whole hwhole
      refine hvalid (List.mem_append_left _ hc) (hdigits c (Or.inl hc)) ?_
      rw [List.count_append, List.count_cons_self, hpoint fun c hc => hdigits c (Or.inl hc),
        hpoint fun c hc => hdigits c (Or.inr hc)]

/-- **ROUND TRIP.** What is written is read with the magnitude of the decimal. -/
theorem magnitude_eq (h : d.Written run) : (Literal.decimal run).magnitude = d.magnitude := by
  have hfigures : Nat.ofDigitChars 10 d.figures 0 = d.digits := Nat.ofDigitChars_ten_toDigits
  cases h with
  | whole hexponent =>
      have hplaces : (-d.exponent).toNat = 0 := by omega
      rw [Literal.decimal_digits fun c => isDigit_of_whole, Nat.ofDigitChars_append, hfigures,
        Nat.ofDigitChars_replicate_zero, Nat.mul_comm]
      refine (magnitude_places _ 0).trans ?_
      rw [magnitude, hplaces]
      rfl
  | point hwhole happend hexponent =>
      have hdigits := fun c => isDigit_of_point (c := c) happend
      rw [Literal.decimal_point (fun c hc => hdigits c (Or.inl hc))
        (fun c hc => hdigits c (Or.inr hc)), happend, Nat.ofDigitChars_append,
        Nat.ofDigitChars_replicate_zero, Nat.mul_zero, hfigures, ← hexponent]

end Written

/-- **READING BACK.** The shortest digits of a finite pattern are a literal of its value. -/
theorem read?_positional_shortest {b : Nat} (hb : b < Binary64.infinity) :
    Literal.read? (shortest b).positional = some (Binary64.toFloat b) := by
  have hwritten := (shortest b).written_positional
  rw [Literal.read?, if_pos hwritten.isValid, hwritten.magnitude_eq, magnitude_shortest hb]

end Decimal

end LiveArith
