/-
# Integers that JSON numbers hold exactly

From −2^63 up to 2^64 − 1: what fits a signed or an unsigned 64-bit word.  The bounds are part of
the type, so that an integer always has a tag and a varint of at most 64 bits in a stream.
-/

namespace DictLog

/-- An integer from −2^63 up to 2^64 − 1. -/
structure Integer where
  value : Int
  lower : -0x8000000000000000 ≤ value
  upper : value < 0x10000000000000000
  deriving DecidableEq, Repr

namespace Integer

/-- The integer of an unsigned word. -/
def ofWord (n : UInt64) : Integer where
  value := n.toNat
  lower := by omega
  upper := by have := n.toNat_lt; omega

/-- An unsigned integer, if it fits 64 bits. -/
def ofNat? (n : Nat) : Option Integer :=
  if h : n < 0x10000000000000000 then some ⟨n, by omega, by omega⟩ else none

/-- The opposite of an unsigned integer, if it is not below −2^63. -/
def negate? (n : Nat) : Option Integer :=
  if h : n ≤ 0x8000000000000000 then some ⟨-n, by omega, by omega⟩ else none

/-- The decimal digits of an integer, after a minus sign if it is negative. -/
def digits (n : Integer) : List Char :=
  if n.value < 0 then '-' :: Nat.toDigits 10 n.value.natAbs else Nat.toDigits 10 n.value.natAbs

end Integer

end DictLog
