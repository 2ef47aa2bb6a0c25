/-
# JSON text: writing

`compact` writes a value without a single blank, `pretty` with line breaks and an indent of two
blanks.  Only the quote, the backslash and the characters below the blank are escaped, so a
compact text never holds a line feed and a value is one line of NDJSON.
-/
import DictLog.Json.Basic
import DictLog.Number.Decimal

namespace DictLog.Json

/-! ## 1. Scalars -/

/-- Doubles are written plainly from 10^-5 up to 10^16, with a power of ten otherwise. -/
def numberLayout : Decimal.Layout where
  plainFrom := -5
  plainBelow := 16
  mark := 'e'

/-- A lower-case hexadecimal digit. -/
def hexDigit (n : Nat) : Char :=
  Nat.digitChar (n % 16)

/-- A character inside quotes. -/
def escape (c : Char) : List Char :=
  if c = '"' then ['\\', '"']
  else if c = '\\' then ['\\', '\\']
  else if c.toNat < 0x20 then
    match c.toNat with
    | 0x08 => ['\\', 'b']
    | 0x09 => ['\\', 't']
    | 0x0A => ['\\', 'n']
    | 0x0C => ['\\', 'f']
    | 0x0D => ['\\', 'r']
    | n => ['\\', 'u', '0', '0', hexDigit (n / 16), hexDigit n]
  else [c]

/-- A string between quotes. -/
def quote (s : String) : List Char :=
  '"' :: s.toList.flatMap escape ++ ['"']

/-- A number's text. -/
def writeNumber : Number → List Char
  | .integer n => n.digits
  | .double d => d.write numberLayout

/-! ## 2. Compact text -/

mutual

/-- The text of a value without blanks. -/
def compact : Json → List Char
  | null => "null".toList
  | bool true => "true".toList
  | bool false => "false".toList
  | number n => writeNumber n
  | string s => quote s
  | array items => '[' :: compactItems items ++ [']']
  | object members => '\x7b' :: compactMembers members ++ ['\x7d']

/-- Items with commas between them. -/
def compactItems : List Json → List Char
  | [] => []
  | [v] => compact v
  | v :: w :: rest => compact v ++ ',' :: compactItems (w :: rest)

/-- Members with commas between them. -/
def compactMembers : List (String × Json) → List Char
  | [] => []
  | [(k, v)] => quote k ++ ':' :: compact v
  | (k, v) :: m :: rest => quote k ++ ':' :: compact v ++ ',' :: compactMembers (m :: rest)

end

/-- The compact text of a value. -/
def render (v : Json) : String :=
  String.ofList v.compact

/-! ## 3. Indented text -/

/-- A new line at some depth of nesting. -/
def newLine (depth : Nat) : List Char :=
  '\n' :: List.replicate (2 * depth) ' '

mutual

/-- The text of a value with one item or member a line, the value itself at some depth. -/
def indented (depth : Nat) : Json → List Char
  | array [] => ['[', ']']
  | array (v :: rest) =>
    '[' :: indentedItems (depth + 1) (v :: rest) ++ newLine depth ++ [']']
  | object [] => ['\x7b', '\x7d']
  | object (m :: rest) =>
    '\x7b' :: indentedMembers (depth + 1) (m :: rest) ++ newLine depth ++ ['\x7d']
  | null => compact null
  | bool b => compact (bool b)
  | number n => compact (number n)
  | string s => compact (string s)

/-- Items, one a line. -/
def indentedItems (depth : Nat) : List Json → List Char
  | [] => []
  | [v] => newLine depth ++ indented depth v
  | v :: w :: rest => newLine depth ++ indented depth v ++ ',' :: indentedItems depth (w :: rest)

/-- Members, one a line. -/
def indentedMembers (depth : Nat) : List (String × Json) → List Char
  | [] => []
  | [(k, v)] => newLine depth ++ quote k ++ [':', ' '] ++ indented depth v
  | (k, v) :: m :: rest =>
    newLine depth ++ quote k ++ [':', ' '] ++ indented depth v ++ ',' ::
      indentedMembers depth (m :: rest)

end

/-- The indented text of a value. -/
def pretty (v : Json) : String :=
  String.ofList (indented 0 v)

end DictLog.Json
