/-
# Payloads: one value in bytes

A value is written by recursion on its structure.  Every string asks the lexicon whether it is to
be a reference; a key always is.  Containers nest only as deep as there is `room`, and the bytes
and the changes to the lexicon that come before a container too deep stay.
-/
import DictLog.Emission
import DictLog.Json.Basic
import DictLog.Lexicon
import DictLog.Wire

namespace DictLog.Payload

/-- The tag of a boolean. -/
def boolTag (b : Bool) : Tag :=
  if b then .boolTrue else .boolFalse

/-- A tag alone. -/
def tag (t : Tag) (l : Lexicon) : Emission Lexicon :=
  .write [t.byte] l

/-- A number: an integer as its sign and magnitude, a double as its bits. -/
def number : Number → List UInt8
  | .integer n =>
    (if 0 ≤ n.value then Tag.natural else Tag.negative).byte :: Varint.encode n.value.natAbs
  | .double d => Tag.double.byte :: Double.littleEndian d.bits

/-- A string, as a reference or in full. -/
def string (role : Role) (s : String) (l : Lexicon) : Emission Lexicon :=
  match l.see s role with
  | (some index, l) => .write (Tag.reference.byte :: Varint.encode index) l
  | (none, l) => .write (Wire.stringLiteral s) l

/-- A container too deep, where so many levels may nest. -/
def tooDeep (limit : Nat) (l : Lexicon) : Emission Lexicon :=
  .fail (.limit (.writtenNesting limit)) l

mutual

/-- A value whose containers may nest `room` deep, of `limit` levels altogether. -/
def write (limit : Nat) (room : Nat) : Json → Lexicon → Emission Lexicon
  | .null, l => tag .null l
  | .bool b, l => tag (boolTag b) l
  | .number n, l => .write (number n) l
  | .string s, l => string .value s l
  | .array items, l =>
    match room with
    | 0 => tooDeep limit l
    | room + 1 =>
      (tag .arrayStart l).andThen fun l => (writeItems limit room items l).andThen (tag .arrayEnd)
  | .object members, l =>
    match room with
    | 0 => tooDeep limit l
    | room + 1 =>
      (tag .objectStart l).andThen fun l =>
        (writeMembers limit room members l).andThen (tag .objectEnd)

/-- Items one after the other. -/
def writeItems (limit : Nat) (room : Nat) : List Json → Lexicon → Emission Lexicon
  | [], l => .skip l
  | v :: rest, l => (write limit room v l).andThen (writeItems limit room rest)

/-- Members one after the other, each key before its value. -/
def writeMembers (limit : Nat) (room : Nat) : List (String × Json) → Lexicon → Emission Lexicon
  | [], l => .skip l
  | (k, v) :: rest, l =>
    (string .key k l).andThen fun l =>
      (write limit room v l).andThen (writeMembers limit room rest)

end

/-- The payload of a value whose containers may nest so deep. -/
def ofJson (maxDepth : Nat) (v : Json) (l : Lexicon) : Emission Lexicon :=
  write maxDepth maxDepth v l

end DictLog.Payload
