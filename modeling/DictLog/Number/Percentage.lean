/-
# Percentages

A percentage is computed in doubles: the quotient of two counts is rounded, and the hundredfold of
that is rounded again.  It is shown with one digit behind the point, rounded from the exact value
of the double.
-/
import DictLog.Number.Double

namespace DictLog

/-- The magnitude of the double that says how many percent `part` is of `whole`, zero if there is
no whole. -/
def percentMagnitude (part whole : Nat) : Nat :=
  if whole = 0 then 0
  else
    let ratio := Binary64.units (Binary64.nearest part whole)
    Binary64.nearest (100 * ratio) Binary64.unitsPerOne

/-- A magnitude in tenths. -/
def tenths (magnitude : Nat) : Nat :=
  roundHalfEven (10 * Binary64.units magnitude) Binary64.unitsPerOne

/-- How many percent `part` is of `whole`, with one digit behind the point. -/
def percentage (part whole : Nat) : String :=
  let n := tenths (percentMagnitude part whole)
  s!"{n / 10}.{n % 10}"

end DictLog
