/-
# Everything that can go wrong

A `Fault` is a **cause** with the data that belongs to it; every fault ends the operation that meets
it.  There are two renderings.  `message` is the sentence for a reader; `dump` shows the cause
with its fields, as the command line reports it.
-/
import DictLog.Tag
import DictLog.Utf8
import DictLog.Json.Syntax
import DictLog.Text.Quoted

namespace DictLog

/-- What the reading side was waiting for when another token came. -/
inductive Expectation where
  | version
  | dictionaryString
  | value
  | objectKey
  | terminator
  deriving DecidableEq, Repr

/-- The expectation in words. -/
def Expectation.message : Expectation → String
  | version => "format version integer"
  | dictionaryString => "string literal in dictionary record"
  | value => "value"
  | objectKey => "object key string"
  | terminator => "record terminator"

/-- Which limit was exceeded, and by what. -/
inductive Excess where
  | payload (length offset limit : Nat)
  | string (length offset limit : Nat)
  | dictionary (limit : Nat)
  | nesting (limit offset : Nat)
  | writtenNesting (limit : Nat)
  | lineNesting (limit line : Nat)
  deriving DecidableEq, Repr

/-- The excess in words. -/
def Excess.message : Excess → String
  | payload length offset limit => s!"payload of {length} bytes at offset {offset} exceeds {limit}"
  | string length offset limit => s!"string of {length} bytes at offset {offset} exceeds {limit}"
  | dictionary limit => s!"dictionary exceeds {limit} entries"
  | nesting limit offset => s!"nesting deeper than {limit} at offset {offset}"
  | writtenNesting limit => s!"nesting deeper than {limit}"
  | lineNesting limit line => s!"nesting deeper than {limit} on input line {line}"

/-- What the outside world can refuse. -/
inductive IoFault where
  /-- A line of text is no UTF-8. -/
  | notUtf8
  /-- The system refuses, with its number, name and sentence for the cause. -/
  | system (code : Nat) (name sentence : String)
  /-- Anything else, in words. -/
  | other (sentence : String)
  deriving DecidableEq, Repr

/-- What was refused, in words. -/
def IoFault.message : IoFault → String
  | notUtf8 => "stream did not contain valid UTF-8"
  | system code _ sentence => s!"{sentence} (os error {code})"
  | other sentence => sentence

/-- The cause of a failure. -/
inductive Fault where
  /-- A terminator tag is not followed by a line feed. -/
  | framing (offset : Nat) (found : UInt8)
  /-- A byte where a tag is due is no tag. -/
  | unknownTag (byte : UInt8) (offset : Nat)
  /-- A backlink does not lead to the last dictionary record. -/
  | desync (offset lastDictionary backlink : Nat)
  /-- The header names another version of the format. -/
  | versionMismatch (expected found : Nat)
  /-- A reference lies beyond the end of the dictionary. -/
  | indexOutOfRange (index size : Nat)
  /-- A string literal is no UTF-8. -/
  | invalidUtf8 (bytes : List UInt8) (fault : Utf8.Fault)
  /-- The input ends inside a record. -/
  | truncated
  /-- A double that is an infinity or no number has no JSON form. -/
  | notFinite (bits : UInt64) (offset : Nat)
  /-- An integer does not fit 64 bits. -/
  | integerOverflow
  /-- A token that opens no record stands where a record is due. -/
  | invalidRecordStart (tag : Tag) (offset : Nat)
  /-- A token stands where the grammar has no place for it. -/
  | unexpectedToken (expected : Expectation) (found : Tag) (offset : Nat)
  /-- A stream does not begin with a header. -/
  | missingHeader
  /-- A payload does not span its declared length. -/
  | payloadLength (offset declared actual : Nat)
  /-- A limit is exceeded. -/
  | limit (excess : Excess)
  /-- A line of input is no JSON document. -/
  | invalidLine (line : Nat) (cause : Json.SyntaxFault)
  /-- The outside world refuses. -/
  | io (cause : IoFault)
  deriving DecidableEq

namespace Fault

/-- How a double without JSON form is called. -/
def notFiniteName (bits : UInt64) : String :=
  if bits.toNat % 0x10000000000000 ≠ 0 then "NaN"
  else if 0x8000000000000000 ≤ bits.toNat then "-inf"
  else "inf"

/-- The sentence about a double without JSON form. -/
def notFiniteMessage (bits : UInt64) (offset : Nat) : String :=
  s!"non-finite float {notFiniteName bits} at offset {offset} has no JSON form"

/-- The fault in words. -/
def message : Fault → String
  | framing offset found =>
    s!"Framing error at offset {offset}: expected newline after record terminator, found 0x" ++
      Text.hexByte found
  | unknownTag byte offset => "Unknown token 0x" ++ Text.hexByte byte ++ s!" at offset {offset}"
  | desync offset lastDictionary backlink =>
    s!"Dictionary desync at offset {offset}: last dictionary record at {lastDictionary} + " ++
      s!"backlink {backlink} does not land on this record"
  | versionMismatch expected found =>
    s!"Format version mismatch: stream has {found}, expected {expected}"
  | indexOutOfRange index size =>
    s!"Dictionary index {index} out of range (dictionary holds {size} entries)"
  | invalidUtf8 _ fault => "Invalid UTF-8 in string literal: " ++ fault.message
  | truncated => "Truncated stream: input ended inside a token"
  | notFinite bits offset => "Unsupported value type: " ++ notFiniteMessage bits offset
  | integerOverflow => "Integer overflow"
  | invalidRecordStart tag offset =>
    "Invalid record start 0x" ++ Text.hexByte tag.byte ++ s!" at offset {offset}"
  | unexpectedToken expected found offset =>
    "Unexpected token 0x" ++ Text.hexByte found.byte ++
      s!" at offset {offset}: expected {expected.message}"
  | missingHeader => "Missing stream header"
  | payloadLength offset declared actual =>
    s!"Payload length mismatch at offset {offset}: declared {declared} bytes, parsed {actual}"
  | limit excess => "Limit exceeded: " ++ excess.message
  | invalidLine line cause => s!"Invalid JSON on input line {line}: {cause.message}"
  | io cause => "I/O error: " ++ cause.message

/-- A name with fields in braces. -/
def dumpFields (name : String) (fields : List (String × String)) : String :=
  name ++ " \x7b " ++ ", ".intercalate (fields.map fun f => f.1 ++ ": " ++ f.2) ++ " \x7d"

/-- The cause and its fields. -/
def dump : Fault → String
  | framing offset found =>
    dumpFields "Framing" [("offset", toString offset), ("found", toString found.toNat)]
  | unknownTag byte offset =>
    dumpFields "UnknownToken" [("tag", toString byte.toNat), ("offset", toString offset)]
  | desync offset lastDictionary backlink =>
    dumpFields "Desync" [("offset", toString offset), ("last_dict", toString lastDictionary),
      ("backlink", toString backlink)]
  | versionMismatch expected found =>
    dumpFields "VersionMismatch" [("expected", toString expected), ("found", toString found)]
  | indexOutOfRange index size =>
    dumpFields "DictionaryIndexOutOfRange" [("index", toString index), ("len", toString size)]
  | invalidUtf8 bytes fault =>
    let list := ", ".intercalate (bytes.map fun b => toString b.toNat)
    let length := match fault.badLength with
      | some n => s!"Some({n})"
      | none => "None"
    let inner := dumpFields "Utf8Error"
      [("valid_up_to", toString fault.validUpTo), ("error_len", length)]
    "InvalidUtf8(" ++ dumpFields "FromUtf8Error" [("bytes", "[" ++ list ++ "]"), ("error", inner)] ++
      ")"
  | truncated => "TruncatedStream"
  | notFinite bits offset =>
    "UnsupportedValueType(" ++ Text.quoted (notFiniteMessage bits offset) ++ ")"
  | integerOverflow => "IntegerOverflow"
  | invalidRecordStart tag offset =>
    dumpFields "InvalidRecordStart" [("tag", toString tag.byte.toNat), ("offset", toString offset)]
  | unexpectedToken expected found offset =>
    dumpFields "UnexpectedToken" [("expected", Text.quoted expected.message),
      ("found", toString found.byte.toNat), ("offset", toString offset)]
  | missingHeader => "MissingHeader"
  | payloadLength offset declared actual =>
    dumpFields "PayloadLengthMismatch" [("offset", toString offset),
      ("declared", toString declared), ("actual", toString actual)]
  | limit excess => "LimitExceeded(" ++ Text.quoted excess.message ++ ")"
  | invalidLine line cause =>
    let source := "Error(" ++ Text.quoted cause.reason.message ++
      s!", line: {cause.position.line}, column: {cause.position.column})"
    dumpFields "InvalidInputLine" [("line", toString line), ("source", source)]
  | io .notUtf8 =>
    "Io(" ++ dumpFields "Error" [("kind", "InvalidData"),
      ("message", Text.quoted IoFault.notUtf8.message)] ++ ")"
  | io (.system code name sentence) =>
    "Io(" ++ dumpFields "Os" [("code", toString code), ("kind", name),
      ("message", Text.quoted sentence)] ++ ")"
  | io (.other sentence) =>
    "Io(" ++ dumpFields "Custom" [("kind", "Other"), ("error", Text.quoted sentence)] ++ ")"

end Fault

/-- Outcomes can be compared if faults and results can. -/
instance Outcome.decEq {ε α : Type} [DecidableEq ε] [DecidableEq α] : DecidableEq (Except ε α)
  | .ok a, .ok b => decidable_of_iff (a = b) ⟨congrArg _, Except.ok.inj⟩
  | .error e, .error f => decidable_of_iff (e = f) ⟨congrArg _, Except.error.inj⟩
  | .ok _, .error _ => isFalse nofun
  | .error _, .ok _ => isFalse nofun

end DictLog
