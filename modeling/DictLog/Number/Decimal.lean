/-
# Doubles in decimal: read to the nearest, written with the fewest digits

A `Decimal` is a natural coefficient times a power of ten.  Reading rounds it to the nearest
double.  Writing looks for the fewest digits that are read back as the same double: on the grid
of one digit, of two digits and so on, the two neighbours of the exact value are tried, and of
two that both read back the nearer wins (the even one on a tie).  On the grid of 10^-1074 the
value itself is a neighbour, so the search always ends with digits that read back.

How the digits are then laid out is `Layout`; JSON's choices are in `Json.numberLayout`.
-/
import DictLog.Number.Double

namespace DictLog

/-- A natural coefficient times a power of ten. -/
structure Decimal where
  coefficient : Nat
  exponent : Int
  deriving DecidableEq, Repr

namespace Decimal

/-! ## 1. Reading -/

/-- The numerator of a decimal as a quotient of natural numbers. -/
def num (d : Decimal) : Nat :=
  d.coefficient * Nat.pow 10 d.exponent.toNat

/-- The denominator of a decimal as a quotient of natural numbers. -/
def den (d : Decimal) : Nat :=
  Nat.pow 10 (-d.exponent).toNat

/-- The magnitude of the double nearest to a decimal, `Binary64.infinity` or more if there is
none.  Powers of ten that decide the matter by themselves are not computed. -/
def magnitude (d : Decimal) : Nat :=
  if d.coefficient = 0 then 0
  else if d.exponent > 400 then Binary64.infinity
  else if d.exponent + d.coefficient.log2 + 1 < -400 then 0
  else Binary64.nearest d.num d.den

/-- The double nearest to a signed decimal, unless it is out of range. -/
def toDouble? (negative : Bool) (d : Decimal) : Option Double :=
  Double.ofMagnitude? negative d.magnitude

/-! ## 2. Writing -/

/-- Drop the zeros at the end of the coefficient. -/
def trimFrom : Nat → Decimal → Decimal
  | 0, d => d
  | fuel + 1, d =>
    if d.coefficient % 10 == 0 && d.coefficient != 0 then
      trimFrom fuel ⟨d.coefficient / 10, d.exponent + 1⟩
    else d

/-- The same number without zeros at the end of its coefficient. -/
def trim (d : Decimal) : Decimal :=
  trimFrom d.coefficient.log2 d

/-- The decimal exponent of the first digit of a positive magnitude. -/
def leadingExponent (magnitude : Nat) : Int :=
  let scaled := Binary64.units magnitude * Nat.pow 10 400 / Binary64.unitsPerOne
  ((Nat.toDigits 10 scaled).length : Int) - 401

/-- The neighbours of a magnitude on the grid of `10 ^ exponent`: the one below or equal, and
whether the value is nearer to the one above (a tie counts as nearer to the even one). -/
def floorOnGrid (magnitude : Nat) (exponent : Int) : Nat × Bool :=
  let num := Binary64.units magnitude * Nat.pow 10 (-exponent).toNat
  let den := Binary64.unitsPerOne * Nat.pow 10 exponent.toNat
  (num / den, roundHalfEven num den != num / den)

/-- A neighbour of a magnitude on the grid of `10 ^ exponent` that is read back as it. -/
def onGrid? (magnitude : Nat) (exponent : Int) : Option Decimal :=
  let (floor, upper) := floorOnGrid magnitude exponent
  let below : Decimal := ⟨floor, exponent⟩
  let above : Decimal := ⟨floor + 1, exponent⟩
  let near := if upper then above else below
  let far := if upper then below else above
  if near.magnitude == magnitude then some near
  else if far.magnitude == magnitude then some far
  else none

/-- All the digits of a magnitude. -/
def exact (magnitude : Nat) : Decimal :=
  ⟨Binary64.units magnitude * Nat.pow 5 Binary64.unitExponent, -Binary64.unitExponent⟩

/-- The first hit on the grids of `10 ^ exponent`, `10 ^ (exponent - 1)` and so on. -/
def shortestFrom (magnitude : Nat) : Nat → Int → Decimal
  | 0, _ => exact magnitude
  | fuel + 1, exponent =>
    match onGrid? magnitude exponent with
    | some d => d
    | none => shortestFrom magnitude fuel (exponent - 1)

/-- The decimal of fewest digits that is read back as the given magnitude. -/
def shortest (magnitude : Nat) : Decimal :=
  if magnitude = 0 then ⟨0, 0⟩
  else trim (shortestFrom magnitude 20 (leadingExponent magnitude))

/-! ## 3. Laying out -/

/-- How the digits of a decimal are laid out. -/
structure Layout where
  /-- The least exponent of the first digit that is written without a power of ten. -/
  plainFrom : Int
  /-- The first exponent that is written with a power of ten again. -/
  plainBelow : Int
  /-- What stands between the digits and the power of ten. -/
  mark : Char

/-- A signed exponent: the sign is always written. -/
def signed (e : Int) : List Char :=
  (if e < 0 then '-' else '+') :: Nat.toDigits 10 e.natAbs

/-- The text of a decimal.  A plain number always has a point with a digit on either side; with
a power of ten, the point is left out if there is one digit only. -/
def Layout.write (layout : Layout) (d : Decimal) : List Char :=
  let digits := Nat.toDigits 10 d.coefficient
  let leading : Int := d.exponent + digits.length - 1
  if layout.plainFrom ≤ leading && leading < layout.plainBelow then
    if 0 ≤ d.exponent then digits ++ List.replicate d.exponent.toNat '0' ++ ['.', '0']
    else if 0 ≤ leading then
      digits.take (leading.toNat + 1) ++ '.' :: digits.drop (leading.toNat + 1)
    else '0' :: '.' :: List.replicate (-leading - 1).toNat '0' ++ digits
  else
    let fraction := if digits.length ≤ 1 then [] else '.' :: digits.drop 1
    digits.take 1 ++ fraction ++ layout.mark :: signed leading

end Decimal

/-- The text of a double: a minus sign if the sign bit is set, then the shortest digits. -/
def Double.write (layout : Decimal.Layout) (d : Double) : List Char :=
  let text := layout.write (Decimal.shortest d.magnitude)
  if d.negative then '-' :: text else text

end DictLog
