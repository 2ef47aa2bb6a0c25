/-
# Tags: the bytes that open tokens and records

Every token of a stream opens with one byte, its **tag**.  Four of the tags open a record; the rest
occur inside records.  The table `Tag.byte` is the only place that says which byte is which, and
`Tag.ofByte?` reads it backwards:

* `ofByte?_eq_some_iff` — a byte is the tag `t` exactly when it is the byte of `t`;
* `byte_injective` — no two tags share a byte.
-/

namespace DictLog

/-- The kinds of token a stream is made of. -/
inductive Tag where
  | header
  | clear
  | add
  | value
  | terminator
  | null
  | boolTrue
  | boolFalse
  | natural
  | negative
  | double
  | string
  | reference
  | arrayStart
  | arrayEnd
  | objectStart
  | objectEnd
  deriving DecidableEq, Repr

/-- The four kinds of record. -/
inductive RecordKind where
  | header
  | clear
  | add
  | value
  deriving DecidableEq, Repr

namespace RecordKind

/-- The name of a record kind in listings. -/
def name : RecordKind → String
  | .header => "header"
  | .clear => "clear"
  | .add => "add"
  | .value => "value"

end RecordKind

namespace Tag

/-! ## 1. The byte of a tag -/

/-- The byte that stands for a tag in a stream. -/
def byte : Tag → UInt8
  | header => 'H'.toUInt8
  | clear => 'C'.toUInt8
  | add => 'A'.toUInt8
  | value => 'V'.toUInt8
  | terminator => 'E'.toUInt8
  | null => 'N'.toUInt8
  | boolTrue => 'T'.toUInt8
  | boolFalse => 'F'.toUInt8
  | natural => 'I'.toUInt8
  | negative => 'J'.toUInt8
  | double => 'D'.toUInt8
  | string => 'S'.toUInt8
  | reference => 'X'.toUInt8
  | arrayStart => '['.toUInt8
  | arrayEnd => ']'.toUInt8
  | objectStart => '\x7b'.toUInt8
  | objectEnd => '\x7d'.toUInt8

/-- Every tag there is. -/
def all : List Tag :=
  [header, clear, add, value, terminator, null, boolTrue, boolFalse, natural, negative, double,
    string, reference, arrayStart, arrayEnd, objectStart, objectEnd]

/-- The tag a byte stands for, if it stands for any. -/
def ofByte? (b : UInt8) : Option Tag :=
  all.find? fun t => t.byte == b

theorem mem_all (t : Tag) : t ∈ all := by
  cases t <;> decide

theorem ofByte?_byte (t : Tag) : ofByte? t.byte = some t := by
  cases t <;> decide

/-- A byte is read as the tag whose byte it is, and as no other. -/
theorem ofByte?_eq_some_iff {b : UInt8} {t : Tag} : ofByte? b = some t ↔ t.byte = b := by
  constructor
  · intro h
    simpa using List.find?_some h
  · rintro rfl
    exact ofByte?_byte t

theorem byte_injective {s t : Tag} (h : s.byte = t.byte) : s = t :=
  Option.some.inj ((ofByte?_byte s).symm.trans (h ▸ ofByte?_byte t))

/-! ## 2. Tags that open a record -/

/-- The kind of record a tag opens, if it opens one. -/
def recordKind? : Tag → Option RecordKind
  | header => some .header
  | clear => some .clear
  | add => some .add
  | value => some .value
  | _ => none

/-- Whether a tag may open a record. -/
def opensRecord (t : Tag) : Bool :=
  t.recordKind?.isSome

end Tag

end DictLog
