/-
# The dictionary of an epoch

A dictionary is a sequence of strings that only grows at its end, so that the index of a string
stays what it is until the next epoch begins.  Writing and reading side each keep one.
-/

namespace DictLog

/-- The strings of an epoch, in the order in which they were added. -/
structure Dictionary where
  entries : Array String := #[]
  deriving DecidableEq

namespace Dictionary

/-- The dictionary at the start of an epoch. -/
def empty : Dictionary := {}

/-- The number of strings. -/
def size (d : Dictionary) : Nat :=
  d.entries.size

/-- The strings in order. -/
def toList (d : Dictionary) : List String :=
  d.entries.toList

/-- The string at an index. -/
def get? (d : Dictionary) (index : Nat) : Option String :=
  d.entries[index]?

/-- The first index of a string. -/
def indexOf? (d : Dictionary) (s : String) : Option Nat :=
  d.toList.idxOf? s

/-- Add a string at the end. -/
def add (d : Dictionary) (s : String) : Dictionary :=
  ⟨d.entries.push s⟩

@[simp] theorem toList_empty : empty.toList = [] := rfl

@[simp] theorem toList_add (d : Dictionary) (s : String) : (d.add s).toList = d.toList ++ [s] := by
  simp [add, toList]

@[simp] theorem length_toList (d : Dictionary) : d.toList.length = d.size := by
  simp [toList, size]

theorem get?_eq (d : Dictionary) (index : Nat) : d.get? index = d.toList[index]? := by
  simp [get?, toList]

theorem ext_toList {d e : Dictionary} (h : d.toList = e.toList) : d = e := by
  cases d; cases e
  simpa [toList] using h

end Dictionary

end DictLog
