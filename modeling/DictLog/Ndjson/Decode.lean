/-
# A stream into NDJSON

Every value of the stream becomes one line: its compact text and a line feed.  The lines before a
failure are written before the failure is reported.
-/
import DictLog.Json.Print
import DictLog.Reading
import DictLog.Session

namespace DictLog.Ndjson

/-- What came of decoding a stream. -/
structure DecodeSummary where
  values : Nat := 0
  records : Nat := 0
  addRecords : Nat := 0
  clearRecords : Nat := 0
  dictionaryEntries : Nat := 0
  bytesRead : Nat := 0
  deriving DecidableEq, Repr

/-- The summary as a value. -/
def DecodeSummary.toJson (s : DecodeSummary) : Json :=
  .record
    [("values", some (.count s.values)), ("records", some (.count s.records)),
      ("add_records", some (.count s.addRecords)), ("clear_records", some (.count s.clearRecords)),
      ("dictionary_entries", some (.count s.dictionaryEntries)),
      ("bytes_read", some (.count s.bytesRead))]

/-- The line of a value. -/
def line (v : Json) : String :=
  v.render ++ "\n"

/-- The value of a record that has one. -/
def valueOf? (entry : Entry) : Option Json :=
  match entry.record with
  | .value _ v => v
  | _ => none

/-- The text that reached the output, and how it ended. -/
structure Decoded where
  output : String
  outcome : Except Fault DecodeSummary

variable {σ : Type} [Feed σ]

/-- The summary of a stream of which so many values were written. -/
def summary (values : Nat) (run : Run (Reading σ) Entry) : DecodeSummary :=
  let stats := run.final.stats
  { values
    records := run.items.length
    addRecords := stats.addRecords
    clearRecords := stats.clearRecords
    dictionaryEntries := run.final.dictionary.size
    bytesRead := stats.bytesRead }

/-- Decode a stream.  The output takes the text when all is decoded or decoding has failed; an
output that refuses it is reported first, unless there is no text. -/
def decode (input : σ) (limits : Limits) (sink : Sink) : Decoded :=
  let run := (Reading.ofFeed input limits).records .decoded
  let values := run.items.filterMap valueOf?
  let text := String.join (values.map line)
  let outcome := match run.failure with
    | none => .ok (summary values.length run)
    | some fault => .error fault
  match sink with
  | .accepting => ⟨text, outcome⟩
  | .refusing cause => if values.isEmpty then ⟨text, outcome⟩ else ⟨"", .error (.io cause)⟩

end DictLog.Ndjson
