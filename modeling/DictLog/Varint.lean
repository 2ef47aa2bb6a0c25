/-
# Varints: unsigned integers in groups of seven bits

An integer is cut into groups of seven bits, lowest first, one group a byte; every byte but the
last has its high bit set.  64 bits take at most ten groups, and the tenth has room for one bit.
Readers accept any number of leading zero groups that fits those ten bytes; `encode` writes none.

`Accumulator.push` takes one byte at a time and is what every reader of varints is made of;
`decode` reads one varint at the front of some bytes.
-/
import DictLog.Fault

namespace DictLog.Varint

/-- The most bytes a varint may have. -/
def maxLength : Nat := 10

/-- The groups of an integer, lowest first. -/
def encode (n : Nat) : List UInt8 :=
  if n < 128 then [UInt8.ofNat n] else UInt8.ofNat (n % 128 + 128) :: encode (n / 128)
termination_by n
decreasing_by omega

/-- The groups read so far. -/
structure Accumulator where
  /-- Their bits. -/
  value : UInt64 := 0
  /-- The place of the next group's lowest bit. -/
  shift : Nat := 0
  deriving DecidableEq, Repr

/-- Add a group: the integer if that was the last one.  A tenth group must be the last and may
hold one bit only; a group that does not fit leaves everything as it was. -/
def Accumulator.push (byte : UInt8) : EStateM Fault Accumulator (Option UInt64) := fun acc =>
  let bits := byte &&& 0x7F
  let last := byte &&& 0x80 == 0
  if acc.shift == 63 && (1 < bits || !last) then .error .integerOverflow acc
  else
    let value := acc.value ||| bits.toUInt64 <<< UInt64.ofNat acc.shift
    if last then .ok (some value) { acc with value }
    else .ok none { value, shift := acc.shift + 7 }

/-- The integer at the front of some bytes, the groups before them accumulated, and the number of
bytes taken up to its end. -/
def decodeFrom (acc : Accumulator) (taken : Nat) : List UInt8 → Except Fault (UInt64 × Nat)
  | [] => .error .truncated
  | byte :: rest =>
    match Accumulator.push byte acc with
    | .ok (some value) _ => .ok (value, taken + 1)
    | .ok none acc => decodeFrom acc (taken + 1) rest
    | .error fault _ => .error fault

/-- The integer at the front of some bytes, and how many bytes it takes. -/
def decode (bytes : List UInt8) : Except Fault (UInt64 × Nat) :=
  decodeFrom {} 0 bytes

theorem encode_of_lt {n : Nat} (h : n < 128) : encode n = [UInt8.ofNat n] := by
  rw [encode, if_pos h]

theorem encode_of_le {n : Nat} (h : 128 ≤ n) :
    encode n = UInt8.ofNat (n % 128 + 128) :: encode (n / 128) := by
  rw [encode, if_neg (by omega)]

/-- Zero has a group, too. -/
theorem encode_ne_nil (n : Nat) : encode n ≠ [] := by
  rw [encode]
  split <;> simp

end DictLog.Varint
