/-
# What can be wrong with a JSON text, and where

A fault has a **reason** and a **position**, a line and a column counted in bytes.  Readers do not count:
they say how many characters are left and how many bytes further the fault is noticed (`ahead`),
and `Position.of` counts once, when a fault is reported.
-/

namespace DictLog.Json

/-- Why a text is no JSON document. -/
inductive Reason where
  | endInValue
  | endInList
  | endInObject
  | endInString
  | expectedValue
  | expectedIdent
  | expectedListCommaOrEnd
  | expectedObjectCommaOrEnd
  | expectedColon
  | keyMustBeString
  | trailingComma
  | trailingCharacters
  | invalidNumber
  | numberOutOfRange
  | invalidEscape
  | controlCharacter
  | loneSurrogate
  | unexpectedEndOfEscape
  deriving DecidableEq, Repr

/-- The reason in words. -/
def Reason.message : Reason → String
  | endInValue => "EOF while parsing a value"
  | endInList => "EOF while parsing a list"
  | endInObject => "EOF while parsing an object"
  | endInString => "EOF while parsing a string"
  | expectedValue => "expected value"
  | expectedIdent => "expected ident"
  | expectedListCommaOrEnd => "expected `,` or `]`"
  | expectedObjectCommaOrEnd => "expected `,` or `\x7d`"
  | expectedColon => "expected `:`"
  | keyMustBeString => "key must be a string"
  | trailingComma => "trailing comma"
  | trailingCharacters => "trailing characters"
  | invalidNumber => "invalid number"
  | numberOutOfRange => "number out of range"
  | invalidEscape => "invalid escape"
  | controlCharacter => "control character (\\u0000-\\u001F) found while parsing a string"
  | loneSurrogate => "lone leading surrogate in hex escape"
  | unexpectedEndOfEscape => "unexpected end of hex escape"

/-- A place in a text. -/
structure Position where
  /-- Lines are counted from 1. -/
  line : Nat
  /-- The number of bytes of the line that come before. -/
  column : Nat
  deriving DecidableEq, Repr

/-- The number of bytes of a text. -/
def byteLength (text : List Char) : Nat :=
  text.foldl (fun n c => n + c.utf8Size) 0

/-- The place `count` bytes further on, or at the end of the text. -/
def Position.advance (p : Position) (count : Nat) : List Char → Position
  | [] => p
  | c :: rest =>
    if count = 0 then p
    else if c = '\n' then advance ⟨p.line + 1, 0⟩ (count - 1) rest
    else if c.utf8Size ≤ count then advance ⟨p.line, p.column + c.utf8Size⟩ (count - c.utf8Size) rest
    else ⟨p.line, p.column + count⟩

/-- A fault while reading: what is left of the text, and how many bytes into that the fault is
noticed. -/
structure Failure where
  reason : Reason
  rest : List Char
  ahead : Nat

/-- Why and where a text is no JSON document. -/
structure SyntaxFault where
  reason : Reason
  position : Position
  deriving DecidableEq, Repr

/-- The fault that a failure to read some text amounts to. -/
def Failure.report (text : List Char) (f : Failure) : SyntaxFault where
  reason := f.reason
  position := Position.advance ⟨1, 0⟩ (byteLength text - byteLength f.rest + f.ahead) text

/-- The fault in words. -/
def SyntaxFault.message (f : SyntaxFault) : String :=
  s!"{f.reason.message} at line {f.position.line} column {f.position.column}"

end DictLog.Json
