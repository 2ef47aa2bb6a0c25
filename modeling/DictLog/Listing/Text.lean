/-
# Listings as text

A listing is shown as a table, one row a line with tabs between the columns and the summary below,
or as one indented JSON document.  The last column of the table shows the beginning of the value,
as compact text, which holds neither tabs nor line feeds.
-/
import DictLog.Json.Print
import DictLog.Listing.Basic

namespace DictLog

/-- How many characters of a value a table shows. -/
def previewLength : Nat := 60

/-- The beginning of a text. -/
def preview (text : List Char) : List Char :=
  if text.length ≤ previewLength then text else text.take previewLength ++ ['…']

/-- What a record has to say besides its place. -/
def Record.detail : Record → String
  | .header version => s!"version {version}"
  | .clear => ""
  | .add entries => s!"+{entries} strings"
  | .value length none => s!"{length} bytes"
  | .value length (some v) => s!"{length} bytes " ++ String.ofList (preview v.compact)

/-- A row of the table. -/
def Row.line (row : Row) : String :=
  "\t".intercalate
    [toString row.entry.offset, row.entry.record.kind.name,
      row.entry.backlink.elim "-" toString, toString row.dictionaryEntries,
      row.entry.record.detail] ++ "\n"

/-- The summary, four lines. -/
def ListingSummary.text (s : ListingSummary) : String :=
  let version := s.version.elim "-" toString
  s!"version: {version}\n" ++
    s!"records: {s.records} (values: {s.valueRecords}, adds: {s.addRecords}, " ++
    s!"clears: {s.clearRecords})\n" ++
    s!"dictionary: {s.finalDictionaryEntries} final, {s.maxDictionaryEntries} max\n" ++
    s!"bytes: {s.bytes}\n"

namespace Listing

/-- The names of the columns. -/
def heading : String :=
  "Offset\tKind\tBacklink\tDictionary\tDetail\n"

/-- The listing as a table; after a failure there is no summary. -/
def table (listing : Listing) : String :=
  let rows := heading ++ String.join (listing.rows.map Row.line)
  match listing.outcome with
  | .ok summary => rows ++ "\n" ++ summary.text
  | .error _ => rows

/-- The summary alone, nothing after a failure. -/
def summaryText (listing : Listing) : String :=
  match listing.outcome with
  | .ok summary => summary.text
  | .error _ => ""

/-- The listing as a document, its rows included if asked for; nothing after a failure. -/
def document (listing : Listing) (withRows : Bool) : String :=
  match listing.outcome with
  | .ok summary =>
    let rows := if withRows then some (.array (listing.rows.map Row.toJson)) else none
    (Json.record [("summary", some summary.toJson), ("records", rows)]).pretty ++ "\n"
  | .error _ => ""

end Listing

end DictLog
