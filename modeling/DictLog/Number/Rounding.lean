/-
# Rounding a quotient of natural numbers

Every rounding in this library is the same one: to the nearest integer, and to the even neighbour
when both are equally near.

* `two_mul_roundHalfEven_sub_le`, `two_mul_sub_roundHalfEven_le` — the result is within half a
  unit of the quotient;
* `roundHalfEven_mul_right` — a quotient that is an integer is left alone;
* `roundHalfEven_mul_mul` — only the quotient matters, not the pair that gives it.
-/

namespace DictLog

/-- The integer nearest to `num / den`; of two equally near, the even one. -/
def roundHalfEven (num den : Nat) : Nat :=
  let floor := num / den
  let twice := 2 * (num % den)
  if twice < den || (twice == den && floor % 2 == 0) then floor else floor + 1

/-- A quotient that is an integer is left alone. -/
theorem roundHalfEven_mul_right (q : Nat) {den : Nat} (h : 0 < den) :
    roundHalfEven (q * den) den = q := by
  simp [roundHalfEven, Nat.mul_div_cancel _ h, h]

/-- Only the quotient matters, not the pair that gives it. -/
theorem roundHalfEven_mul_mul {c : Nat} (h : 0 < c) (num den : Nat) :
    roundHalfEven (c * num) (c * den) = roundHalfEven num den := by
  have hd : c * num / (c * den) = num / den := Nat.mul_div_mul_left _ _ h
  have hm : c * num % (c * den) = c * (num % den) := Nat.mul_mod_mul_left _ _ _
  have hlt : 2 * (c * (num % den)) < c * den ↔ 2 * (num % den) < den := by
    rw [Nat.mul_left_comm]; exact Nat.mul_lt_mul_left h
  have heq : 2 * (c * (num % den)) = c * den ↔ 2 * (num % den) = den := by
    rw [Nat.mul_left_comm]; exact Nat.mul_right_inj (by omega)
  unfold roundHalfEven
  simp only [hd, hm, hlt, heq, Bool.beq_eq_decide_eq]

/-- The result exceeds the quotient by at most a half. -/
theorem two_mul_roundHalfEven_sub_le (num : Nat) {den : Nat} (h : 0 < den) :
    2 * (roundHalfEven num den * den) ≤ 2 * num + den := by
  have hdiv : den * (num / den) + num % den = num := Nat.div_add_mod num den
  have hcomm : num / den * den = den * (num / den) := Nat.mul_comm _ _
  have hlt := Nat.mod_lt num h
  simp only [roundHalfEven]
  split
  · omega
  · rename_i hn
    simp only [Bool.or_eq_true, decide_eq_true_eq, not_or] at hn
    rw [Nat.add_mul]
    omega

/-- The quotient exceeds the result by at most a half. -/
theorem two_mul_sub_roundHalfEven_le (num : Nat) {den : Nat} (h : 0 < den) :
    2 * num ≤ 2 * (roundHalfEven num den * den) + den := by
  have hdiv : den * (num / den) + num % den = num := Nat.div_add_mod num den
  have hcomm : num / den * den = den * (num / den) := Nat.mul_comm _ _
  have hlt := Nat.mod_lt num h
  simp only [roundHalfEven]
  split
  · rename_i hy
    simp only [Bool.or_eq_true, decide_eq_true_eq, Bool.and_eq_true, beq_iff_eq] at hy
    omega
  · rw [Nat.add_mul]
    omega

end DictLog
