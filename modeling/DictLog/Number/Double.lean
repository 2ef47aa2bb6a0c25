/-
# Finite binary64 numbers

A double is kept as its 64 bits, since that is what a stream carries, together with the fact that
it is finite.  Below the sign bit stands the **magnitude**: 52 bits of fraction and above them the
exponent.  Every finite magnitude is a whole number of **units** of 2^-1074, and that is how all
arithmetic here is done, exactly, in natural numbers.

* `nearest_units` — rounding the value of a magnitude gives the magnitude back;
* `nearest_mul_mul` — rounding depends on the quotient alone.
-/
import DictLog.Number.Rounding

namespace DictLog

namespace Binary64

/-- The number of fractions, and the least magnitude with an exponent. -/
abbrev fractions : Nat := 0x10000000000000

/-- The first magnitude that is no longer finite. -/
abbrev infinity : Nat := 0x7FF0000000000000

/-- The bit that makes a number negative. -/
abbrev signBit : Nat := 0x8000000000000000

/-- The least positive double is one half to this power. -/
def unitExponent : Nat := 1074

/-- The number of units in the number one. -/
def unitsPerOne : Nat := 1 <<< unitExponent

theorem unitsPerOne_pos : 0 < unitsPerOne := by
  rw [unitsPerOne, Nat.shiftLeft_eq, Nat.one_mul]
  exact Nat.two_pow_pos _

/-- The number of units of 2^-1074 in a magnitude. -/
def units (magnitude : Nat) : Nat :=
  let exponent := magnitude / fractions
  if exponent = 0 then magnitude else (fractions + magnitude % fractions) <<< (exponent - 1)

/-- The magnitude nearest to `num / den`; of two equally near, the even one.  A result of at
least `infinity` means that the quotient is out of range. -/
def nearest (num den : Nat) : Nat :=
  let scaled := num * unitsPerOne
  let drop := (scaled / den).log2 - 52
  drop * fractions + roundHalfEven scaled (den <<< drop)

/-- Rounding depends on the quotient alone. -/
theorem nearest_mul_mul {c : Nat} (h : 0 < c) (num den : Nat) :
    nearest (c * num) (c * den) = nearest num den := by
  have hq : c * num * unitsPerOne / (c * den) = num * unitsPerOne / den := by
    rw [Nat.mul_assoc]; exact Nat.mul_div_mul_left _ _ h
  unfold nearest
  simp only [hq, Nat.shiftLeft_eq]
  rw [Nat.mul_assoc c num, Nat.mul_assoc c den, roundHalfEven_mul_mul h]

/-- The binary logarithm of a number of 53 bits, shifted. -/
theorem log2_shiftLeft {m : Nat} (hm : m < 2 * fractions) (hm' : fractions ≤ m) (s : Nat) :
    (m <<< s).log2 = 52 + s := by
  have hpos := Nat.two_pow_pos s
  have hm0 : m ≠ 0 := by simp only [fractions] at hm'; omega
  rw [Nat.shiftLeft_eq, Nat.log2_eq_iff (Nat.mul_ne_zero hm0 (Nat.ne_of_gt hpos))]
  constructor
  · rw [Nat.pow_add]
    exact Nat.mul_le_mul_right _ hm'
  · rw [show 52 + s + 1 = 53 + s by omega, Nat.pow_add]
    exact Nat.mul_lt_mul_of_pos_right hm hpos

/-- A unit count of 53 bits or fewer, shifted, is a magnitude exactly.  Nothing is lost to rounding,
since that many bits are kept. -/
theorem nearest_shifted (m s : Nat) (hm : m < 2 * fractions) (hs : s = 0 ∨ fractions ≤ m) :
    nearest (m <<< s) unitsPerOne = s * fractions + m := by
  have hpos := unitsPerOne_pos
  have hlog : (m <<< s).log2 - 52 = s := by
    rcases hs with rfl | hm'
    · have : m.log2 < 53 := by
        rcases Nat.eq_zero_or_pos m with rfl | h
        · decide
        · exact (Nat.log2_lt (by omega)).mpr hm
      simp only [Nat.shiftLeft_zero]
      omega
    · rw [log2_shiftLeft hm hm']
      omega
  unfold nearest
  simp only [Nat.mul_div_cancel _ hpos, hlog]
  rw [Nat.shiftLeft_eq, Nat.shiftLeft_eq, Nat.mul_assoc, Nat.mul_comm _ unitsPerOne,
    roundHalfEven_mul_right m (Nat.mul_pos hpos (Nat.two_pow_pos s))]

/-- Rounding the value of a magnitude gives the magnitude back. -/
theorem nearest_units (magnitude : Nat) : nearest (units magnitude) unitsPerOne = magnitude := by
  have hdiv := Nat.div_add_mod magnitude fractions
  have hmod := Nat.mod_lt magnitude (by decide : 0 < fractions)
  simp only [fractions] at hdiv hmod
  simp only [units]
  split <;> rename_i h <;> simp only [fractions] at h
  · have := nearest_shifted magnitude 0 (by simp only [fractions]; omega) (.inl rfl)
    simpa using this
  · rw [nearest_shifted _ _ (by simp only [fractions]; omega) (.inr (by omega))]
    simp only [fractions]
    omega

end Binary64

/-! ## The type of doubles -/

/-- A finite binary64 number, as its bits. -/
structure Double where
  bits : UInt64
  finite : bits.toNat % Binary64.signBit < Binary64.infinity
  deriving DecidableEq

namespace Double

/-- The double of some bits, unless they stand for an infinity or for no number. -/
def ofBits? (bits : UInt64) : Option Double :=
  if h : bits.toNat % Binary64.signBit < Binary64.infinity then some ⟨bits, h⟩ else none

/-- Whether the sign bit is set. -/
def negative (d : Double) : Bool :=
  Binary64.signBit ≤ d.bits.toNat

/-- The bits below the sign. -/
def magnitude (d : Double) : Nat :=
  d.bits.toNat % Binary64.signBit

/-- The double of a sign and a magnitude, if the magnitude is finite. -/
def ofMagnitude? (negative : Bool) (magnitude : Nat) : Option Double :=
  if magnitude < Binary64.infinity then
    ofBits? (UInt64.ofNat (if negative then Binary64.signBit + magnitude else magnitude))
  else none

theorem ofBits?_bits (d : Double) : ofBits? d.bits = some d := by
  rw [ofBits?, dif_pos d.finite]

/-- A double is told by its sign and its magnitude. -/
theorem ofMagnitude?_magnitude (d : Double) : ofMagnitude? d.negative d.magnitude = some d := by
  have hlt : d.magnitude < Binary64.infinity := d.finite
  have hbits := d.bits.toNat_lt
  have hword : UInt64.ofNat (if d.negative then Binary64.signBit + d.magnitude else d.magnitude) = d.bits := by
    apply UInt64.toNat_inj.mp
    rw [UInt64.toNat_ofNat']
    simp only [negative, magnitude, decide_eq_true_eq, Binary64.signBit]
    split <;> omega
  rw [ofMagnitude?, if_pos hlt, hword, ofBits?_bits]

/-- The eight bytes of some bits, lowest first. -/
def littleEndian (bits : UInt64) : List UInt8 :=
  (List.range 8).map fun i => (bits >>> UInt64.ofNat (8 * i)).toUInt8

/-- The bits of some bytes, lowest first. -/
def ofLittleEndian (bytes : List UInt8) : UInt64 :=
  bytes.foldr (fun b high => high <<< 8 ||| b.toUInt64) 0

end Double

end DictLog
