/-
# Quoted text in diagnostics

A diagnostic shows a text between double quotes, with everything escaped that would not show: the
quote and the backslash, line breaks and tabs by letter, and characters without room of their own by
code.  What does not show is known from Unicode 17.0: blanks, controls, formats, private use, marks,
fillers and code points without a character.

* `isVisible_of_ascii` — ASCII shows from the blank to the tilde.
* `escape_of_isVisible` — what shows stays as it is, the quote and the backslash apart.
-/
import DictLog.Text.Blank
import DictLog.Text.Mark
import DictLog.Text.Unassigned

namespace DictLog.Text

/-- A byte in two lower-case hexadecimal digits. -/
def hexByte (b : UInt8) : String :=
  String.ofList [Nat.digitChar (b.toNat / 16), Nat.digitChar (b.toNat % 16)]

/-! ## 1. What shows -/

/-- The controls, general category Cc, as inclusive ranges of code points. -/
def controlRanges : List (Nat × Nat) :=
  [(0x0000, 0x001F), (0x007F, 0x009F)]

/-- The formats, general category Cf. -/
def formatRanges : List (Nat × Nat) :=
  [(0x00AD, 0x00AD), (0x0600, 0x0605), (0x061C, 0x061C), (0x06DD, 0x06DD), (0x070F, 0x070F),
    (0x0890, 0x0891), (0x08E2, 0x08E2), (0x180E, 0x180E), (0x200B, 0x200F), (0x202A, 0x202E),
    (0x2060, 0x2064), (0x2066, 0x206F), (0xFEFF, 0xFEFF), (0xFFF9, 0xFFFB), (0x110BD, 0x110BD),
    (0x110CD, 0x110CD), (0x13430, 0x1343F), (0x1BCA0, 0x1BCA3), (0x1D173, 0x1D17A),
    (0xE0001, 0xE0001), (0xE0020, 0xE007F)]

/-- The code points for private use, general category Co. -/
def privateRanges : List (Nat × Nat) :=
  [(0xE000, 0xF8FF), (0xF0000, 0xFFFFD), (0x100000, 0x10FFFD)]

/-- The letters that only fill a place: those with the property Default_Ignorable_Code_Point. -/
def fillerRanges : List (Nat × Nat) :=
  [(0x115F, 0x1160), (0x3164, 0x3164), (0xFFA0, 0xFFA0)]

/-- Whether a character is one of ASCII from the blank to the tilde. -/
def isPlain (c : Char) : Bool :=
  0x20 ≤ c.toNat && c.toNat ≤ 0x7E

/-- Whether a character shows: the plain blank does, other blanks do not. -/
def isVisible (c : Char) : Bool :=
  isPlain c ||
    !(isBlank c || [controlRanges, formatRanges, privateRanges, markRanges, fillerRanges,
      unassignedRanges].any fun ranges => inRanges ranges c.toNat)

/-- ASCII shows from the blank to the tilde. -/
theorem isVisible_of_ascii {c : Char} (low : 0x20 ≤ c.toNat) (high : c.toNat ≤ 0x7E) :
    isVisible c = true := by
  simp [isVisible, isPlain, low, high]

/-! ## 2. What is written -/

/-- A character inside quotes. -/
def escape (c : Char) : List Char :=
  match c with
  | '"' => ['\\', '"']
  | '\\' => ['\\', '\\']
  | '\n' => ['\\', 'n']
  | '\r' => ['\\', 'r']
  | '\t' => ['\\', 't']
  | '\x00' => ['\\', '0']
  | c => if isVisible c then [c] else ['\\', 'u', '\x7b'] ++ Nat.toDigits 16 c.toNat ++ ['\x7d']

/-- What shows, and is no quote and no backslash, stands for itself. -/
theorem escape_of_isVisible {c : Char} (quote : c ≠ '"') (backslash : c ≠ '\\')
    (h : isVisible c = true) : escape c = [c] := by
  unfold escape
  split
  · exact absurd rfl quote
  · exact absurd rfl backslash
  · exact absurd h (by decide)
  · exact absurd h (by decide)
  · exact absurd h (by decide)
  · exact absurd h (by decide)
  · exact if_pos h

/-- A text between quotes. -/
def quoted (s : String) : String :=
  String.ofList ('"' :: s.toList.flatMap escape ++ ['"'])

end DictLog.Text
