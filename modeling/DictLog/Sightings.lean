/-
# Counting the sightings of strings

Before a string at value position enters the dictionary it has to be seen a number of times.  The
counts are kept for a bounded number of strings, in the order in which their counting began; when
there is no room for one more, the string whose counting began first is forgotten, however often
it has been seen since.  With no room at all nothing is counted and nothing ever recurs.
-/

namespace DictLog

/-- The strings being counted. -/
structure Sightings where
  /-- The count at which a string recurs often enough. -/
  threshold : Nat
  /-- The most strings that are counted at a time. -/
  capacity : Nat
  /-- The counts, the one begun first in front. -/
  counts : List (String × Nat) := []
  deriving DecidableEq, Repr

namespace Sightings

/-- The count of a string that is being counted. -/
def count? (t : Sightings) (s : String) : Option Nat :=
  t.counts.lookup s

/-- The number of strings being counted. -/
def size (t : Sightings) : Nat :=
  t.counts.length

/-- Stop counting a string. -/
def forget (t : Sightings) (s : String) : Sightings :=
  { t with counts := t.counts.filter fun entry => entry.1 != s }

/-- Stop counting altogether. -/
def clear (t : Sightings) : Sightings :=
  { t with counts := [] }

/-- One more sighting of a string that is being counted. -/
def bump (t : Sightings) (s : String) : Sightings :=
  { t with counts := t.counts.map fun entry => if entry.1 = s then (s, entry.2 + 1) else entry }

/-- Begin to count a string, forgetting the one begun first if there is no room. -/
def begin (t : Sightings) (s : String) : Sightings :=
  let kept := if t.counts.length < t.capacity then t.counts else t.counts.drop 1
  { t with counts := kept ++ [(s, 1)] }

/-- See a string: whether its count had reached the threshold, and in that case it is no longer
counted. -/
def see (t : Sightings) (s : String) : Bool × Sightings :=
  if t.capacity = 0 then (false, t)
  else
    match t.count? s with
    | some n => if t.threshold ≤ n then (true, t.forget s) else (false, t.bump s)
    | none => (false, t.begin s)

end Sightings

end DictLog
