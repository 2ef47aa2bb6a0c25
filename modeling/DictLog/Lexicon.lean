/-
# The writing side's lexicon

A lexicon decides which strings are written as references.  It owns the dictionary of the epoch,
remembers how many of its strings have been announced in the stream, and counts the sightings of
strings that are not in it.  A key enters the dictionary when it is first seen; a string at value
position once its sightings say that it recurs.
-/
import DictLog.Dictionary
import DictLog.Options
import DictLog.Sightings

namespace DictLog

/-- What a string is in a value. -/
inductive Role where
  | key
  | value
  deriving DecidableEq, Repr

/-- The dictionary of the epoch and what feeds it. -/
structure Lexicon where
  dictionary : Dictionary := .empty
  /-- How many strings of the dictionary have been announced. -/
  announced : Nat := 0
  sightings : Sightings
  deriving DecidableEq

namespace Lexicon

/-- The lexicon before anything is seen. -/
def new (threshold capacity : Nat) : Lexicon where
  sightings := { threshold, capacity }

/-- The lexicon that some options call for. -/
def ofOptions (options : EncodeOptions) : Lexicon :=
  new options.internThreshold options.internCacheSize

/-- The strings of the dictionary in order. -/
def entries (l : Lexicon) : List String :=
  l.dictionary.toList

/-- The number of strings in the dictionary. -/
def size (l : Lexicon) : Nat :=
  l.dictionary.size

/-- The index of a string in the dictionary. -/
def lookup (l : Lexicon) (s : String) : Option Nat :=
  l.dictionary.indexOf? s

/-- The strings that have not been announced. -/
def pending (l : Lexicon) : List String :=
  l.entries.drop l.announced

/-- Whether there are strings that have not been announced. -/
def hasPending (l : Lexicon) : Bool :=
  l.announced < l.size

/-- Whether a string that is not in the dictionary is to enter it now. -/
def judge (l : Lexicon) (s : String) : Role → Bool × Sightings
  | .key => (true, l.sightings.forget s)
  | .value => l.sightings.see s

/-- See a string: the index to write, or none if it has to be written in full. -/
def see (l : Lexicon) (s : String) (role : Role) : Option Nat × Lexicon :=
  match l.lookup s with
  | some index => (some index, l)
  | none =>
    let (admitted, sightings) := l.judge s role
    if admitted then (some l.size, { l with dictionary := l.dictionary.add s, sightings })
    else (none, { l with sightings })

/-- All strings have been announced; how many had not been before. -/
def announce (l : Lexicon) : Nat × Lexicon :=
  (l.size - l.announced, { l with announced := l.size })

/-- Begin an epoch; the sightings are kept unless they are to be reset. -/
def clear (l : Lexicon) (resetUsage : Bool) : Lexicon where
  dictionary := .empty
  announced := 0
  sightings := if resetUsage then l.sightings.clear else l.sightings

end Lexicon

end DictLog
