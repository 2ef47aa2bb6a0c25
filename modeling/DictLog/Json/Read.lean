/-
# JSON text: reading

Every reader takes the characters that are left and gives what it read with those left after it,
or a `Failure`.  `document` reads one value with nothing but blanks around it; it keeps repeated
keys as they stand in the text, and `parse` then merges them.

Readers that repeat take a bound on the number of steps.  A character takes two steps at most, one
for a bracket and one for the first part behind it, so twice the length of the text is bound
enough, and `document` starts with that.
-/
import DictLog.Json.Basic
import DictLog.Json.Syntax
import DictLog.Number.Decimal

namespace DictLog.Json

namespace Read

/-- What a reader gives. -/
abbrev Parsed (α : Type) := Except Failure (α × List Char)

/-- Fail before the characters that are left. -/
def fail {α : Type} (reason : Reason) (rest : List Char) : Parsed α :=
  .error ⟨reason, rest, 0⟩

/-- Fail some bytes into the characters that are left. -/
def failPast {α : Type} (ahead : Nat) (reason : Reason) (rest : List Char) : Parsed α :=
  .error ⟨reason, rest, ahead⟩

/-- The four characters that may stand between the parts of a text. -/
def isBlank (c : Char) : Bool :=
  c == ' ' || c == '\n' || c == '\r' || c == '\t'

/-- What is left after blanks. -/
def skipBlanks (cs : List Char) : List Char :=
  cs.dropWhile isBlank

/-! ## 1. Numbers -/

/-- The number that some digits write. -/
def digitsValue (digits : List Char) : Nat :=
  digits.foldl (fun n c => 10 * n + (c.toNat - '0'.toNat)) 0

/-- The digits in front, and what follows them. -/
def spanDigits (cs : List Char) : List Char × List Char :=
  (cs.takeWhile Char.isDigit, cs.dropWhile Char.isDigit)

/-- An exponent read so far, or the place at which it has become too large to matter. -/
inductive Magnitude where
  | value (n : Nat) (rest : List Char)
  | excessive (rest : List Char)

/-- The digits of an exponent, up to the first that takes it beyond 2^31 − 1. -/
def exponentDigits (n : Nat) : List Char → Magnitude
  | [] => .value n []
  | c :: rest =>
    if c.isDigit then
      let n := 10 * n + (c.toNat - '0'.toNat)
      if n > 2147483647 then .excessive rest else exponentDigits n rest
    else .value n (c :: rest)

/-- A decimal as a double. -/
def doubleNumber (negative : Bool) (d : Decimal) (rest : List Char) : Parsed Json :=
  match d.toDouble? negative with
  | some x => .ok (.number (.double x), rest)
  | none => fail .numberOutOfRange rest

/-- Digits without point and power of ten: an integer if 64 bits hold it. -/
def wholeNumber (negative : Bool) (n : Nat) (rest : List Char) : Parsed Json :=
  match if negative then (if n = 0 then none else Integer.negate? n) else Integer.ofNat? n with
  | some i => .ok (.number (.integer i), rest)
  | none => doubleNumber negative ⟨n, 0⟩ rest

/-- The power of ten after `e`, for the decimal read so far. -/
def scaledNumber (negative : Bool) (d : Decimal) (cs : List Char) : Parsed Json :=
  let (down, cs) := match cs with
    | '+' :: rest => (false, rest)
    | '-' :: rest => (true, rest)
    | _ => (false, cs)
  match cs with
  | [] => fail .endInValue []
  | c :: _ =>
    if c.isDigit then
      match exponentDigits 0 cs with
      | .value n rest =>
        let shift : Int := if down then -n else n
        doubleNumber negative ⟨d.coefficient, d.exponent + shift⟩ rest
      | .excessive rest =>
        if d.coefficient ≠ 0 ∧ ¬ down then fail .numberOutOfRange rest
        else doubleNumber negative ⟨0, 0⟩ (rest.dropWhile Char.isDigit)
    else failPast 1 .invalidNumber cs

/-- What may follow the digits of a decimal. -/
def decimalEnd (negative : Bool) (d : Decimal) (whole : Bool) (cs : List Char) : Parsed Json :=
  match cs with
  | 'e' :: rest => scaledNumber negative d rest
  | 'E' :: rest => scaledNumber negative d rest
  | _ => if whole then wholeNumber negative d.coefficient cs else doubleNumber negative d cs

/-- What may follow the first digits of a number. -/
def afterDigits (negative : Bool) (digits : List Char) (cs : List Char) : Parsed Json :=
  match cs with
  | '.' :: rest =>
    let (fraction, after) := spanDigits rest
    if fraction.isEmpty then
      match after with
      | [] => fail .endInValue []
      | _ => failPast 1 .invalidNumber after
    else
      decimalEnd negative ⟨digitsValue (digits ++ fraction), -fraction.length⟩ false after
  | _ => decimalEnd negative ⟨digitsValue digits, 0⟩ true cs

/-- A number from its first digit on. -/
def unsigned (negative : Bool) : List Char → Parsed Json
  | [] => fail .endInValue []
  | '0' :: rest =>
    match rest with
    | c :: _ => if c.isDigit then failPast 1 .invalidNumber rest else afterDigits negative ['0'] rest
    | [] => afterDigits negative ['0'] []
  | cs =>
    let (digits, rest) := spanDigits cs
    if digits.isEmpty then failPast 1 .invalidNumber cs else afterDigits negative digits rest

/-! ## 2. Strings -/

/-- The value of a hexadecimal digit. -/
def hexValue? (c : Char) : Option Nat :=
  if c.isDigit then some (c.toNat - '0'.toNat)
  else if 'a' ≤ c ∧ c ≤ 'f' then some (c.toNat - 'a'.toNat + 10)
  else if 'A' ≤ c ∧ c ≤ 'F' then some (c.toNat - 'A'.toNat + 10)
  else none

/-- The code of four hexadecimal digits.  Digits are counted in bytes: with fewer than four bytes
left the text ends too early, whatever they are. -/
def hexCode (cs : List Char) : Parsed Nat :=
  match cs with
  | a :: b :: c :: d :: rest =>
    match hexValue? a, hexValue? b, hexValue? c, hexValue? d with
    | some a, some b, some c, some d => .ok (((a * 16 + b) * 16 + c) * 16 + d, rest)
    | _, _, _, _ => failPast 4 .invalidEscape cs
  | _ => if byteLength cs < 4 then fail .endInString [] else failPast 4 .invalidEscape cs

/-- The second half of a character that is escaped in two halves. -/
def lowSurrogate (high : Nat) (cs : List Char) : Parsed Char :=
  match cs with
  | [] => fail .endInString []
  | '\\' :: [] => fail .endInString []
  | '\\' :: 'u' :: rest =>
    match hexCode rest with
    | .error f => .error f
    | .ok (low, rest) =>
      if 0xDC00 ≤ low ∧ low < 0xE000 then
        .ok (Char.ofNat (0x10000 + (high - 0xD800) * 0x400 + (low - 0xDC00)), rest)
      else fail .loneSurrogate rest
  | '\\' :: rest => failPast 1 .unexpectedEndOfEscape rest
  | _ => failPast 1 .unexpectedEndOfEscape cs

/-- The character of an escape by code. -/
def codeEscape (cs : List Char) : Parsed Char :=
  match hexCode cs with
  | .error f => .error f
  | .ok (code, rest) =>
    if 0xDC00 ≤ code ∧ code < 0xE000 then fail .loneSurrogate rest
    else if 0xD800 ≤ code ∧ code < 0xDC00 then lowSurrogate code rest
    else .ok (Char.ofNat code, rest)

/-- The character of an escape, after the backslash. -/
def escaped : List Char → Parsed Char
  | [] => fail .endInString []
  | '"' :: rest => .ok ('"', rest)
  | '\\' :: rest => .ok ('\\', rest)
  | '/' :: rest => .ok ('/', rest)
  | 'b' :: rest => .ok ('\x08', rest)
  | 'f' :: rest => .ok ('\x0c', rest)
  | 'n' :: rest => .ok ('\n', rest)
  | 'r' :: rest => .ok ('\r', rest)
  | 't' :: rest => .ok ('\t', rest)
  | 'u' :: rest => codeEscape rest
  | cs => failPast 1 .invalidEscape cs

/-- A string after its opening quote. -/
def stringTail : Nat → List Char → List Char → Parsed String
  | 0, _, cs => fail .endInString cs
  | _ + 1, _, [] => fail .endInString []
  | fuel + 1, read, c :: rest =>
    if c = '"' then .ok (String.ofList read.reverse, rest)
    else if c = '\\' then
      match escaped rest with
      | .ok (e, rest) => stringTail fuel (e :: read) rest
      | .error f => .error f
    else if c.toNat < 0x20 then failPast 1 .controlCharacter (c :: rest)
    else stringTail fuel (c :: read) rest

/-! ## 3. Values -/

/-- The rest of a word whose first letter has been read. -/
def word (value : Json) : List Char → List Char → Parsed Json
  | [], cs => .ok (value, cs)
  | _ :: _, [] => fail .endInValue []
  | e :: expected, c :: rest =>
    if c = e then word value expected rest else failPast 1 .expectedIdent (c :: rest)

/-- A key and the colon after it. -/
def key (fuel : Nat) (cs : List Char) : Parsed String :=
  match cs with
  | '"' :: rest =>
    match stringTail fuel [] rest with
    | .error f => .error f
    | .ok (k, rest) =>
      match skipBlanks rest with
      | [] => fail .endInObject []
      | ':' :: rest => .ok (k, rest)
      | rest => failPast 1 .expectedColon rest
  | _ => failPast 1 .keyMustBeString cs

/-- What follows an item: nothing more, or a comma and the next item. -/
def itemEnd (cs : List Char) : Parsed Bool :=
  match skipBlanks cs with
  | [] => fail .endInList []
  | ']' :: rest => .ok (true, rest)
  | ',' :: rest =>
    match skipBlanks rest with
    | [] => fail .endInValue []
    | ']' :: rest => failPast 1 .trailingComma (']' :: rest)
    | rest => .ok (false, rest)
  | rest => failPast 1 .expectedListCommaOrEnd rest

/-- What follows a member: nothing more, or a comma and the next member. -/
def memberEnd (cs : List Char) : Parsed Bool :=
  match skipBlanks cs with
  | [] => fail .endInObject []
  | '\x7d' :: rest => .ok (true, rest)
  | ',' :: rest =>
    match skipBlanks rest with
    | [] => fail .endInValue []
    | '\x7d' :: rest => failPast 1 .trailingComma ('\x7d' :: rest)
    | rest => .ok (false, rest)
  | rest => failPast 1 .expectedObjectCommaOrEnd rest

mutual

/-- A value. -/
def value : Nat → List Char → Parsed Json
  | 0, cs => fail .endInValue cs
  | fuel + 1, cs =>
    match skipBlanks cs with
    | [] => fail .endInValue []
    | 'n' :: rest => word .null ['u', 'l', 'l'] rest
    | 't' :: rest => word (.bool true) ['r', 'u', 'e'] rest
    | 'f' :: rest => word (.bool false) ['a', 'l', 's', 'e'] rest
    | '-' :: rest => unsigned true rest
    | '"' :: rest =>
      match stringTail fuel [] rest with
      | .error f => .error f
      | .ok (s, rest) => .ok (.string s, rest)
    | '[' :: rest =>
      match skipBlanks rest with
      | [] => fail .endInList []
      | ']' :: rest => .ok (.array [], rest)
      | rest => items fuel [] rest
    | '\x7b' :: rest =>
      match skipBlanks rest with
      | [] => fail .endInObject []
      | '\x7d' :: rest => .ok (.object [], rest)
      | rest => members fuel [] rest
    | c :: rest => if c.isDigit then unsigned false (c :: rest) else failPast 1 .expectedValue (c :: rest)

/-- The items of an array from the first on, those already read standing in reverse. -/
def items : Nat → List Json → List Char → Parsed Json
  | 0, _, cs => fail .endInValue cs
  | fuel + 1, read, cs =>
    match value fuel cs with
    | .error f => .error f
    | .ok (v, rest) =>
      match itemEnd rest with
      | .error f => .error f
      | .ok (true, rest) => .ok (.array (v :: read).reverse, rest)
      | .ok (false, rest) => items fuel (v :: read) rest

/-- The members of an object from the first on, those already read standing in reverse. -/
def members : Nat → List (String × Json) → List Char → Parsed Json
  | 0, _, cs => fail .endInValue cs
  | fuel + 1, read, cs =>
    match key fuel cs with
    | .error f => .error f
    | .ok (k, rest) =>
      match value fuel rest with
      | .error f => .error f
      | .ok (v, rest) =>
        match memberEnd rest with
        | .error f => .error f
        | .ok (true, rest) => .ok (.object ((k, v) :: read).reverse, rest)
        | .ok (false, rest) => members fuel ((k, v) :: read) rest

end

end Read

/-- One value with nothing but blanks around it, repeated keys kept. -/
def document (text : List Char) : Except SyntaxFault Json :=
  match Read.value (2 * text.length + 1) text with
  | .error f => .error (f.report text)
  | .ok (v, rest) =>
    match Read.skipBlanks rest with
    | [] => .ok v
    | rest => .error (Failure.report text ⟨.trailingCharacters, rest, 1⟩)

/-- The value that a text writes. -/
def parse (text : String) : Except SyntaxFault Json :=
  (document text.toList).map merge

/-! ## 4. Nesting of a text -/

/-- Where a scan of brackets stands. -/
structure BracketScan where
  depth : Nat := 0
  deepest : Nat := 0
  inString : Bool := false
  escaped : Bool := false

/-- The scan after one more character. -/
def BracketScan.step (s : BracketScan) (c : Char) : BracketScan :=
  if s.inString then
    if s.escaped then { s with escaped := false }
    else if c = '\\' then { s with escaped := true }
    else if c = '"' then { s with inString := false }
    else s
  else if c = '"' then { s with inString := true }
  else if c = '[' ∨ c = '\x7b' then
    { s with depth := s.depth + 1, deepest := max s.deepest (s.depth + 1) }
  else if c = ']' ∨ c = '\x7d' then { s with depth := s.depth - 1 }
  else s

/-- How deep the brackets of a text nest, those inside strings left out; the text need not be a
JSON document. -/
def bracketDepth (text : List Char) : Nat :=
  (text.foldl BracketScan.step {}).deepest

end DictLog.Json
