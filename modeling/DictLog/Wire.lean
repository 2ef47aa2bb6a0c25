/-
# The bytes of records

How each record is written, given what it says.  A stream is a header, and then records:

* `header` — the tag, the version as a natural-number token, the terminator;
* `clear` — the tag and the terminator: from here on the dictionary is empty;
* `add` — the tag, the backlink, string literals, the terminator;
* `value` — the tag, the backlink, the payload's length, the payload, the terminator.
-/
import DictLog.Options
import DictLog.Varint

namespace DictLog.Wire

/-- A string literal: its tag, its length in bytes, its bytes. -/
def stringLiteral (s : String) : List UInt8 :=
  let bytes := Utf8.encode s
  Tag.string.byte :: Varint.encode bytes.length ++ bytes

/-- The header of a stream of some version. -/
def header (version : Nat) : List UInt8 :=
  Tag.header.byte :: Tag.natural.byte :: Varint.encode version ++ Format.terminator

/-- The record that begins an epoch. -/
def clear : List UInt8 :=
  Tag.clear.byte :: Format.terminator

/-- The record that adds strings to the dictionary. -/
def add (backlink : Nat) (entries : List String) : List UInt8 :=
  Tag.add.byte :: Varint.encode backlink ++ entries.flatMap stringLiteral ++ Format.terminator

/-- The record around a payload. -/
def value (backlink : Nat) (payload : List UInt8) : List UInt8 :=
  Tag.value.byte :: Varint.encode backlink ++ Varint.encode payload.length ++ payload ++
    Format.terminator

end DictLog.Wire
