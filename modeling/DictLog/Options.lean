/-
# The fixed numbers of the format, and what a caller may choose

`Format` holds the constants of the format itself.  `EncodeOptions` is what the writing side may
be told, `Limits` what the reading side enforces; both nest containers 512 deep by default, so
that nothing is written under the defaults that is too deep to be read under them.
-/
import DictLog.Tag

namespace DictLog

namespace Format

/-- The only version of the format. -/
def version : Nat := 1

/-- Every record ends with the terminator tag and a line feed. -/
def terminator : List UInt8 := [Tag.terminator.byte, 0x0A]

/-- How deep containers nest unless told otherwise. -/
def nestingDepth : Nat := 512

end Format

/-- What the writing side may be told. -/
structure EncodeOptions where
  /-- Sightings a string at value position needs before it enters the dictionary. -/
  internThreshold : Nat := 10
  /-- How many strings have their sightings counted at a time. -/
  internCacheSize : Nat := 10000
  /-- A new epoch begins once the dictionary holds this many strings. -/
  clearThreshold : Option Nat := none
  /-- Whether a new epoch also forgets the counted sightings. -/
  resetUsageOnClear : Bool := false
  /-- How deep the containers of a value may nest. -/
  maxNestingDepth : Nat := Format.nestingDepth
  deriving DecidableEq, Repr

/-- What the reading side enforces on streams it does not trust. -/
structure Limits where
  /-- The longest string literal, in bytes. -/
  maxStringLength : Nat := 16777216
  /-- The longest declared payload, in bytes. -/
  maxPayloadLength : Nat := 67108864
  /-- How deep the containers of a value may nest. -/
  maxNestingDepth : Nat := Format.nestingDepth
  /-- The most strings the dictionary may hold within one epoch. -/
  maxDictionaryEntries : Nat := 16777216
  deriving DecidableEq, Repr

end DictLog
