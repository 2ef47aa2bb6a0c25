/-
# Lines of an input

A line is what comes up to and including a line feed; the last line may lack it.  `Line.split`
cuts some bytes into lines and loses nothing (`flatten_split`).  Where reading an input fails
before a line is complete, there is no such line.
-/
import DictLog.Feed

namespace DictLog

/-- The bytes of a line, its line feed included. -/
abbrev Line := List UInt8

namespace Line

/-- The line feed. -/
def feed : UInt8 := 0x0A

/-- Cut some bytes into lines, `front` being the bytes of the first line read so far, in reverse. -/
def splitFrom (front : List UInt8) : List UInt8 → List Line
  | [] => if front.isEmpty then [] else [front.reverse]
  | byte :: rest =>
    if byte = feed then (byte :: front).reverse :: splitFrom [] rest
    else splitFrom (byte :: front) rest

/-- The lines of some bytes. -/
def split (bytes : List UInt8) : List Line :=
  splitFrom [] bytes

/-- Whether a line has its line feed. -/
def isComplete (line : Line) : Bool :=
  line.getLast? == some feed

/-- The lines that an input brings before it ends. -/
def ofTape (input : Tape) : List Line :=
  match input.ending with
  | .clean => split input.rest
  | .failing _ => (split input.rest).filter isComplete

/-- What was read of a line stands in front of it. -/
theorem flatten_splitFrom (front bytes : List UInt8) :
    (splitFrom front bytes).flatten = front.reverse ++ bytes := by
  induction bytes generalizing front with
  | nil =>
    rw [splitFrom]
    split
    · rename_i h
      simp [List.isEmpty_iff.mp h]
    · simp
  | cons byte rest ih =>
    rw [splitFrom]
    split <;> simp [ih]

/-- Cutting into lines loses nothing. -/
theorem flatten_split (bytes : List UInt8) : (split bytes).flatten = bytes := by
  simp [split, flatten_splitFrom]

end Line

end DictLog
