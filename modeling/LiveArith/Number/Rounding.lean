/-! # Rounding — a quotient to the nearest whole number

    One rule serves reading and writing numbers: of the two whole numbers about a
    quotient the nearer is taken, and of two equally near the even one. -/

namespace LiveArith.Rounding

/-- The whole number nearest to `num / den`; a half goes to the even neighbour. -/
def halfEven (num den : Nat) : Nat :=
  let q := num / den
  let twice := 2 * (num % den)
  if twice < den then q
  else if den < twice then q + 1
  else q + q % 2

/-- A whole quotient is not changed. -/
theorem halfEven_mul (q : Nat) {den : Nat} (h : 0 < den) : halfEven (q * den) den = q := by
  simp [halfEven, Nat.mul_div_cancel q h, h]

/-- The result is within half a unit of the quotient. -/
theorem halfEven_near (num : Nat) {den : Nat} (h : 0 < den) :
    2 * (halfEven num den * den) ≤ 2 * num + den ∧
      2 * num ≤ 2 * (halfEven num den * den) + den := by
  have hd : den * (num / den) + num % den = num := Nat.div_add_mod num den
  have hr : num % den < den := Nat.mod_lt _ h
  have hc : den * (num / den) = num / den * den := Nat.mul_comm _ _
  have hs : (num / den + 1) * den = num / den * den + den := Nat.succ_mul _ _
  simp only [halfEven]
  split
  · omega
  · split
    · omega
    · rcases Nat.mod_two_eq_zero_or_one (num / den) with he | he <;> rw [he]
      · rw [Nat.add_zero]; omega
      · omega

/-- **Ties.** Exactly half way between two whole numbers, the even one is taken. -/
theorem halfEven_tie {num den : Nat} (h : 2 * (num % den) = den) :
    halfEven num den % 2 = 0 := by
  simp only [halfEven, h, Nat.lt_irrefl, if_false]
  omega

end LiveArith.Rounding
