/-
# The digits of a double are read back as it

Reading rounds a decimal to the nearest magnitude, and skips the rounding where the power of ten
alone decides.  The shortcuts change nothing: what is cut off above is out of range when it is
rounded too, and what is cut off below is rounded to zero (`magnitude_or`).  So the magnitude of a
decimal depends on its value alone (`magnitude_congr`), and however the digits of a magnitude were
searched for, they are read back as it (`magnitude_shortest`).
-/
import Mathlib.Tactic.Ring
import DictLog.Number.Decimal

namespace DictLog

/-! ## 1. Quotients far out -/

namespace Binary64

variable {num den num' den' k : Nat}

/-- Rounding depends on the quotient alone. -/
theorem nearest_congr (hden : 0 < den) (hden' : 0 < den') (h : num * den' = num' * den) :
    nearest num den = nearest num' den' := by
  calc nearest num den
      = nearest (den' * num) (den' * den) := (nearest_mul_mul hden' num den).symm
    _ = nearest (den * num') (den * den') := by
        rw [Nat.mul_comm den' num, h, Nat.mul_comm num' den, Nat.mul_comm den' den]
    _ = nearest num' den' := nearest_mul_mul hden num' den'

theorem unitsPerOne_eq : unitsPerOne = 2 ^ unitExponent := by
  rw [unitsPerOne, Nat.shiftLeft_eq, Nat.one_mul]

theorem nearest_zero (den : Nat) : nearest 0 den = 0 := by
  rcases Nat.eq_zero_or_pos den with rfl | hden <;> simp [nearest, roundHalfEven, *]

/-- A quotient of 2^1025 or more is out of range.  The bound is generous, since the exact one is not
needed: decimals are only cut off far beyond it. -/
theorem infinity_le_nearest (hden : 0 < den) (hk : 1025 ≤ k) (h : den * 2 ^ k ≤ num) :
    infinity ≤ nearest num den := by
  have hunit : unitExponent = 1074 := rfl
  have hquotient : 2 ^ (k + unitExponent) ≤ num * unitsPerOne / den := by
    rw [Nat.le_div_iff_mul_le hden, unitsPerOne_eq, Nat.pow_add, Nat.mul_right_comm,
      Nat.mul_comm _ den]
    exact Nat.mul_le_mul_right _ h
  have hlog : k + unitExponent ≤ (num * unitsPerOne / den).log2 := by
    refine (Nat.le_log2 ?_).mpr hquotient
    have := Nat.two_pow_pos (k + unitExponent)
    omega
  have hdrop : 2047 * fractions ≤ ((num * unitsPerOne / den).log2 - 52) * fractions :=
    Nat.mul_le_mul_right _ (by omega)
  exact Nat.le_trans hdrop (Nat.le_add_right _ _)

/-- A quotient of 2^-1076 or less is rounded to zero: it is less than half of the least unit. -/
theorem nearest_eq_zero (hk : 1076 ≤ k) (h : num * 2 ^ k ≤ den) :
    nearest num den = 0 := by
  rcases Nat.eq_zero_or_pos num with rfl | hnum
  · exact nearest_zero den
  have hunit : unitExponent = 1074 := rfl
  have hhalf : 2 * (num * unitsPerOne) < den :=
    calc 2 * (num * unitsPerOne)
        = num * 2 ^ (unitExponent + 1) := by rw [unitsPerOne_eq, Nat.pow_succ]; ring
      _ < num * 2 ^ k :=
          Nat.mul_lt_mul_of_pos_left (Nat.pow_lt_pow_right (by decide) (by omega)) hnum
      _ ≤ den := h
  have hlt : num * unitsPerOne < den := by omega
  have hquotient : num * unitsPerOne / den = 0 := Nat.div_eq_of_lt hlt
  unfold nearest
  simp [hquotient, roundHalfEven, Nat.mod_eq_of_lt hlt, hhalf]

end Binary64

namespace Decimal

open Binary64

variable {d d' : Decimal} {m k : Nat}

/-! ## 2. What a power of ten decides -/

theorem den_pos (d : Decimal) : 0 < d.den :=
  Nat.pow_pos (by decide)

/-- The exponent of the power of ten above a decimal: how many digits it has before its point, or
less than zero if zeros follow the point. -/
def pointPlace (d : Decimal) : Int :=
  d.exponent + (Nat.toDigits 10 d.coefficient).length

/-- What is known of powers of two carries over to powers of ten, three for one. -/
theorem two_pow_le_ten_pow (k : Nat) : 2 ^ (3 * k) ≤ 10 ^ k :=
  calc 2 ^ (3 * k)
      = 8 ^ k := Nat.pow_mul 2 3 k
    _ ≤ 10 ^ k := Nat.pow_le_pow_left (by decide) k

/-- With more than 400 digits before its point, a decimal is out of range.  So it need not be
computed, which keeps reading a number with a huge exponent cheap. -/
theorem infinity_le_of_pointPlace (h : d.coefficient ≠ 0) (hk : 400 ≤ k)
    (hplace : k < d.pointPlace) : infinity ≤ nearest d.num d.den := by
  refine @infinity_le_nearest _ _ (3 * k) d.den_pos (by omega) ?_
  have hpos := @Nat.length_toDigits_pos 10 d.coefficient
  -- As many digits as it has, so large is the coefficient at least.
  have hlow : 10 ^ ((Nat.toDigits 10 d.coefficient).length - 1) ≤ d.coefficient := by
    rcases Nat.lt_or_ge 1 (Nat.toDigits 10 d.coefficient).length with hlong | hshort
    · refine Nat.le_of_not_lt fun hlt => ?_
      have := (Nat.length_toDigits_le_iff (by decide) (by omega)).mpr hlt
      omega
    · rw [Nat.sub_eq_zero_of_le hshort]
      omega
  have hpowers : (-d.exponent).toNat + k ≤
      (Nat.toDigits 10 d.coefficient).length - 1 + d.exponent.toNat := by
    simp only [pointPlace] at hplace
    omega
  calc d.den * 2 ^ (3 * k)
      ≤ d.den * 10 ^ k := Nat.mul_le_mul_left _ (two_pow_le_ten_pow k)
    _ = 10 ^ ((-d.exponent).toNat + k) := (Nat.pow_add ..).symm
    _ ≤ 10 ^ ((Nat.toDigits 10 d.coefficient).length - 1 + d.exponent.toNat) :=
        Nat.pow_le_pow_right (by decide) hpowers
    _ = 10 ^ ((Nat.toDigits 10 d.coefficient).length - 1) * 10 ^ d.exponent.toNat := Nat.pow_add ..
    _ ≤ d.num := Nat.mul_le_mul_right _ hlow

/-- With 400 zeros or more behind its point, a decimal is rounded to zero, and need not be computed
either. -/
theorem nearest_of_pointPlace (hk : 400 ≤ k) (hplace : d.pointPlace + k ≤ 0) :
    nearest d.num d.den = 0 := by
  refine @nearest_eq_zero _ _ (3 * k) (by omega) ?_
  have hpos := @Nat.length_toDigits_pos 10 d.coefficient
  have hhigh : d.coefficient < 10 ^ (Nat.toDigits 10 d.coefficient).length :=
    (Nat.length_toDigits_le_iff (by decide) hpos).mp (Nat.le_refl _)
  simp only [pointPlace] at hplace
  have hnum : d.num = d.coefficient := by
    rw [num, show d.exponent.toNat = 0 by omega]
    exact Nat.mul_one _
  rw [hnum]
  calc d.coefficient * 2 ^ (3 * k)
      ≤ 10 ^ (Nat.toDigits 10 d.coefficient).length * 10 ^ k :=
        Nat.mul_le_mul (Nat.le_of_lt hhigh) (two_pow_le_ten_pow k)
    _ = 10 ^ ((Nat.toDigits 10 d.coefficient).length + k) := (Nat.pow_add ..).symm
    _ ≤ d.den := Nat.pow_le_pow_right (by decide) (by omega)

/-- Reading a decimal is rounding it, or it is out of range.  The shortcuts for decimals that are far
too large or too small make no difference but how far out of range the former are. -/
theorem magnitude_or (d : Decimal) : d.magnitude = nearest d.num d.den ∨
    infinity ≤ d.magnitude ∧ infinity ≤ nearest d.num d.den := by
  have hpos := @Nat.length_toDigits_pos 10 d.coefficient
  unfold magnitude
  split
  · rename_i hzero
    rw [num, hzero, Nat.zero_mul]
    exact .inl (nearest_zero _).symm
  · rename_i hzero
    split
    · refine .inr ⟨Nat.le_refl _, infinity_le_of_pointPlace hzero (Nat.le_refl 400) ?_⟩
      simp only [pointPlace]
      omega
    · split
      · rename_i hsmall
        refine .inl (nearest_of_pointPlace (Nat.le_refl 400) ?_).symm
        -- The shortcut looks at the number of binary digits, of which there are no fewer.
        have hbinary : (Nat.toDigits 10 d.coefficient).length ≤ d.coefficient.log2 + 1 := by
          refine (Nat.length_toDigits_le_iff (by decide) (Nat.succ_pos _)).mpr ?_
          exact Nat.lt_of_lt_of_le Nat.lt_log2_self (Nat.pow_le_pow_left (by decide) _)
        simp only [pointPlace]
        omega
      · exact .inl rfl

theorem magnitude_eq_nearest (h : d.magnitude < infinity) : d.magnitude = nearest d.num d.den := by
  rcases magnitude_or d with heq | ⟨hout, -⟩
  · exact heq
  · omega

/-- A decimal that is rounded to something in range is read as that. -/
theorem magnitude_of_nearest (hm : m < infinity) (h : nearest d.num d.den = m) :
    d.magnitude = m := by
  rcases magnitude_or d with heq | ⟨-, hout⟩
  · exact heq.trans h
  · omega

/-- The point of a decimal that is in range and not rounded to zero is not far from its digits. -/
theorem pointPlace_bounds (h : d.magnitude < infinity) (hne : d.magnitude ≠ 0) :
    -400 < d.pointPlace ∧ d.pointPlace ≤ 400 := by
  have hnearest := magnitude_eq_nearest h
  have hzero : d.coefficient ≠ 0 := fun hzero => hne (by rw [magnitude, if_pos hzero])
  constructor
  · refine Int.lt_of_not_ge fun hplace => hne ?_
    rw [hnearest, nearest_of_pointPlace (Nat.le_refl 400) (by omega)]
  · refine Int.le_of_not_gt fun hplace => ?_
    have := infinity_le_of_pointPlace hzero (Nat.le_refl 400) hplace
    omega

/-! ## 3. Decimals of one value -/

/-- Two decimals stand for one number. -/
def SameValue (d d' : Decimal) : Prop :=
  d.num * d'.den = d'.num * d.den

/-- The magnitude of a decimal depends on its value alone. -/
theorem magnitude_congr (h : SameValue d d') (hfinite : d.magnitude < infinity) :
    d'.magnitude = d.magnitude := by
  refine magnitude_of_nearest hfinite ?_
  rw [magnitude_eq_nearest hfinite]
  exact (nearest_congr d.den_pos d'.den_pos h).symm

/-- Zeros moved from the power of ten into the coefficient change nothing. -/
theorem sameValue_zeros (coefficient zeros : Nat) (exponent : Int) :
    SameValue ⟨coefficient, exponent⟩ ⟨coefficient * Nat.pow 10 zeros, exponent - zeros⟩ := by
  have hpowers : exponent.toNat + (-(exponent - zeros)).toNat =
      zeros + (exponent - zeros).toNat + (-exponent).toNat := by omega
  simp only [SameValue, num, den, Nat.pow_eq, Nat.mul_assoc, ← Nat.pow_add, hpowers, Nat.add_assoc]

/-- Dropping the zeros of a coefficient changes nothing, as each of them goes to the power of ten. -/
theorem magnitude_trimFrom : ∀ (fuel : Nat) (d : Decimal), d.magnitude < infinity →
    (trimFrom fuel d).magnitude = d.magnitude
  | 0, _, _ => rfl
  | fuel + 1, d, h => by
    rw [trimFrom]
    split
    · rename_i hzeros
      simp only [Bool.and_eq_true, beq_iff_eq] at hzeros
      have hsame := sameValue_zeros (d.coefficient / 10) 1 (d.exponent + 1)
      have htenfold : d.coefficient / 10 * Nat.pow 10 1 = d.coefficient := by
        rw [show Nat.pow 10 1 = 10 from rfl]
        omega
      rw [htenfold, show d.exponent + 1 - (1 : Nat) = d.exponent by omega] at hsame
      have hshorter := magnitude_congr hsame.symm h
      rw [magnitude_trimFrom fuel _ (hshorter ▸ h), hshorter]
    · rfl

/-- So trimming changes nothing, as often as it is tried. -/
theorem magnitude_trim (h : d.magnitude < infinity) : d.trim.magnitude = d.magnitude :=
  magnitude_trimFrom _ d h

/-! ## 4. The search for digits -/

/-- All the digits of a magnitude are read back. -/
theorem magnitude_exact (hm : m < infinity) : (exact m).magnitude = m := by
  refine magnitude_of_nearest hm ?_
  have hsame : (exact m).num * unitsPerOne = units m * (exact m).den := by
    have hpowers : ∀ n : Nat, Nat.pow 5 n * (1 <<< n) = Nat.pow 10 n := fun n => by
      rw [Nat.shiftLeft_eq, Nat.one_mul]
      exact (Nat.mul_pow 5 2 n).symm
    have hnum : (exact m).num = units m * Nat.pow 5 unitExponent := by
      rw [num, exact, Int.toNat_neg_natCast]
      exact Nat.mul_one _
    rw [hnum, den, exact, Int.neg_neg, Int.toNat_natCast, Nat.mul_assoc, unitsPerOne, hpowers]
  rw [nearest_congr (exact m).den_pos unitsPerOne_pos hsame, nearest_units]

/-- A candidate is taken only if it is read back, so there is nothing to be said of how it was
found. -/
theorem magnitude_onGrid {exponent : Int} (h : onGrid? m exponent = some d) : d.magnitude = m := by
  have hhit : ∀ near far : Decimal, (if near.magnitude == m then some near
      else if far.magnitude == m then some far else none) = some d → d.magnitude = m := by
    intro near far
    split
    · rename_i hnear
      rintro ⟨⟩
      exact beq_iff_eq.mp hnear
    · split
      · rename_i hfar
        rintro ⟨⟩
        exact beq_iff_eq.mp hfar
      · rintro ⟨⟩
  exact hhit _ _ h

/-- The search ends with all digits at the latest, and those are read back. -/
theorem magnitude_shortestFrom (hm : m < infinity) (fuel : Nat) :
    ∀ exponent, (shortestFrom m fuel exponent).magnitude = m := by
  induction fuel with
  | zero => exact fun _ => magnitude_exact hm
  | succ fuel ih =>
    intro exponent
    rw [shortestFrom]
    split
    · rename_i hgrid
      exact magnitude_onGrid hgrid
    · exact ih _

/-- The digits that are written for a magnitude are read back as it. -/
theorem magnitude_shortest (hm : m < infinity) : (shortest m).magnitude = m := by
  unfold shortest
  split
  · rename_i hzero
    rw [hzero]
    rfl
  · have hfrom := magnitude_shortestFrom hm 20 (leadingExponent m)
    rw [magnitude_trim (by rw [hfrom]; exact hm), hfrom]

/-- Zero is written as zero, without a power of ten. -/
theorem shortest_of_coefficient (hm : m < infinity) (h : (shortest m).coefficient = 0) :
    shortest m = ⟨0, 0⟩ := by
  have hzero : m = 0 := by rw [← magnitude_shortest hm, magnitude, if_pos h]
  rw [hzero]
  rfl

end Decimal

end DictLog
