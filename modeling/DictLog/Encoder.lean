/-
# Encoding: values into records

An encoder turns values into records and keeps the books that a stream needs: its position, the
offset of the last record that changed the dictionary (from which backlinks are measured), and the
lexicon.  New strings are announced in an `add` record right before the `value` record that refers
to them, and when the dictionary has grown to a threshold a new epoch begins before the next value.
-/
import DictLog.Payload

namespace DictLog

/-- What has been encoded so far. -/
structure EncodeStats where
  valueRecords : Nat := 0
  addRecords : Nat := 0
  /-- Epochs begun, the first one included. -/
  clearRecords : Nat := 0
  /-- Strings announced. -/
  stringsInterned : Nat := 0
  /-- Bytes in all records. -/
  bytesFramed : Nat := 0
  deriving DecidableEq, Repr

/-- A stream being encoded. -/
structure Encoder where
  options : EncodeOptions
  lexicon : Lexicon
  /-- The offset of the next record. -/
  position : Nat := 0
  /-- The offset of the last record that changed the dictionary. -/
  lastDictionary : Nat := 0
  /-- Whether the header has been written. -/
  started : Bool := false
  stats : EncodeStats := {}
  deriving DecidableEq

namespace Encoder

/-- An encoder that has written nothing. -/
def new (options : EncodeOptions) : Encoder where
  options
  lexicon := .ofOptions options

/-- The distance back from the next record to the last that changed the dictionary. -/
def backlink (e : Encoder) : Nat :=
  e.position - e.lastDictionary

/-- Append a record. -/
def emit (record : List UInt8) (e : Encoder) : Emission Encoder :=
  .write record { e with
    position := e.position + record.length
    stats := { e.stats with bytesFramed := e.stats.bytesFramed + record.length } }

/-- Append a record that changes the dictionary. -/
def emitDictionary (record : List UInt8) (e : Encoder) : Emission Encoder :=
  emit record { e with lastDictionary := e.position }

/-- Begin an epoch. -/
def clear (e : Encoder) : Emission Encoder :=
  emitDictionary Wire.clear { e with
    lexicon := e.lexicon.clear e.options.resetUsageOnClear
    stats := { e.stats with clearRecords := e.stats.clearRecords + 1 } }

/-- Write the header and begin the first epoch, unless that has been done. -/
def start (e : Encoder) : Emission Encoder :=
  if e.started then .skip e
  else (emit (Wire.header Format.version) { e with started := true }).andThen clear

/-- Whether the dictionary has reached the threshold for a new epoch. -/
def isFull (e : Encoder) : Bool :=
  match e.options.clearThreshold with
  | some threshold => threshold ≤ e.lexicon.size
  | none => false

/-- Begin an epoch if the dictionary is full. -/
def renew (e : Encoder) : Emission Encoder :=
  if e.isFull then clear e else .skip e

/-- Announce the strings that are pending, if there are any. -/
def announce (e : Encoder) : Emission Encoder :=
  if e.lexicon.hasPending then
    let record := Wire.add e.backlink e.lexicon.pending
    let (added, lexicon) := e.lexicon.announce
    emitDictionary record { e with
      lexicon
      stats := { e.stats with
        addRecords := e.stats.addRecords + 1
        stringsInterned := e.stats.stringsInterned + added } }
  else .skip e

/-- Append the record of a payload. -/
def emitValue (payload : List UInt8) (e : Encoder) : Emission Encoder :=
  emit (Wire.value e.backlink payload)
    { e with stats := { e.stats with valueRecords := e.stats.valueRecords + 1 } }

/-- Append the records of a value in the current epoch.  What the value added to the lexicon stays
even if the value nests too deep to be written. -/
def putValue (v : Json) (e : Encoder) : Emission Encoder :=
  let payload := Payload.ofJson e.options.maxNestingDepth v e.lexicon
  let e := { e with lexicon := payload.state }
  match payload.outcome with
  | .ok () => (announce e).andThen (emitValue payload.bytes)
  | .error fault => .fail fault e

/-- Append a value to the stream. -/
def put (v : Json) (e : Encoder) : Emission Encoder :=
  ((start e).andThen renew).andThen (putValue v)

end Encoder

/-- The stream of some values. -/
def encodeValues (values : List Json) (options : EncodeOptions) : Except Fault (List UInt8) :=
  let stream := (Encoder.new options).start.andThen (Emission.forEach Encoder.put values)
  match stream.outcome with
  | .ok () => .ok stream.bytes
  | .error fault => .error fault

end DictLog
