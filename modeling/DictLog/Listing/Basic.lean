/-
# Listings: every record of a stream

A listing has one row for each record, with the size of the dictionary once the record is applied,
and a summary of the whole.  Whoever looks at the rows may stop at any of them.
-/
import DictLog.Reading

namespace DictLog

/-- A record, and the size of the dictionary once it is applied. -/
structure Row where
  entry : Entry
  dictionaryEntries : Nat

/-- A row as a value; what a record does not have is left out. -/
def Row.toJson (row : Row) : Json :=
  let record := row.entry.record
  let version := match record with
    | .header version => some (Json.count version)
    | _ => none
  let entries := match record with
    | .add entries => some (Json.count entries)
    | _ => none
  let payload := match record with
    | .value length v => (some (Json.count length), v)
    | _ => (none, none)
  .record
    [("offset", some (Json.count row.entry.offset)),
      ("kind", some (.string record.kind.name)),
      ("backlink", row.entry.backlink.map Json.count),
      ("version", version),
      ("entries", entries),
      ("payload_len", payload.1),
      ("value", payload.2),
      ("dictionary_entries", some (Json.count row.dictionaryEntries))]

/-- A stream as a whole. -/
structure ListingSummary where
  version : Option Nat := none
  records : Nat := 0
  valueRecords : Nat := 0
  addRecords : Nat := 0
  clearRecords : Nat := 0
  maxDictionaryEntries : Nat := 0
  finalDictionaryEntries : Nat := 0
  bytes : Nat := 0
  deriving DecidableEq, Repr

namespace ListingSummary

/-- The summary as a value. -/
def toJson (s : ListingSummary) : Json :=
  .record
    [("version", some (s.version.elim .null Json.count)), ("records", some (Json.count s.records)),
      ("value_records", some (Json.count s.valueRecords)), ("add_records", some (Json.count s.addRecords)),
      ("clear_records", some (Json.count s.clearRecords)),
      ("max_dictionary_entries", some (Json.count s.maxDictionaryEntries)),
      ("final_dictionary_entries", some (Json.count s.finalDictionaryEntries)),
      ("bytes", some (Json.count s.bytes))]

/-- The summary with one more row. -/
def add (s : ListingSummary) (row : Row) : ListingSummary :=
  let s := { s with
    records := s.records + 1
    maxDictionaryEntries := max s.maxDictionaryEntries row.dictionaryEntries }
  match row.entry.record with
  | .header version => { s with version := some version }
  | .clear => { s with clearRecords := s.clearRecords + 1 }
  | .add _ => { s with addRecords := s.addRecords + 1 }
  | .value _ _ => { s with valueRecords := s.valueRecords + 1 }

end ListingSummary

/-- The rows that were looked at, and the summary or what stopped the listing. -/
structure Listing where
  rows : List Row
  outcome : Except Fault ListingSummary

namespace Listing

variable {σ : Type} [Feed σ]

/-- The next row. -/
def nextRow (payloads : Payloads) : EStateM Fault (Reading σ) (Option Row) := do
  match ← Reading.nextRecord payloads with
  | none => return none
  | some entry => return some ⟨entry, (← get).dictionary.size⟩

/-- All rows up to the end or the first failure. -/
def run (input : σ) (limits : Limits) (payloads : Payloads) : Run (Reading σ) Row :=
  let reading := Reading.ofFeed input limits
  Run.ask (nextRow payloads) reading.decoder.bound reading

/-- The rows up to the first at which `visit` stops, and why it does. -/
def visited (visit : Nat → Row → Except Fault Unit) (number : Nat) :
    List Row → List Row × Option Fault
  | [] => ([], none)
  | row :: rest =>
    match visit number row with
    | .error fault => ([row], some fault)
    | .ok () =>
      let (rows, stop) := visited visit (number + 1) rest
      (row :: rows, stop)

/-- The summary of a run that reached the end. -/
def summary (run : Run (Reading σ) Row) : ListingSummary :=
  { run.items.foldl ListingSummary.add {} with
    finalDictionaryEntries := run.final.dictionary.size
    bytes := run.final.stats.bytesRead }

/-- List a stream, `visit` looking at each row; rows are numbered from 0. -/
def of (input : σ) (limits : Limits) (payloads : Payloads)
    (visit : Nat → Row → Except Fault Unit) : Listing :=
  let run := run input limits payloads
  let (rows, stop) := visited visit 0 run.items
  match stop, run.failure with
  | some fault, _ => ⟨rows, .error fault⟩
  | none, some fault => ⟨rows, .error fault⟩
  | none, none => ⟨rows, .ok (summary run)⟩

/-- List a stream to its end. -/
def all (input : σ) (limits : Limits) (payloads : Payloads) : Listing :=
  of input limits payloads fun _ _ => .ok ()

end Listing

end DictLog
