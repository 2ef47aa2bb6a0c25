/-
# NDJSON into a stream

Every line of the input that is not blank is one JSON document and becomes one value of the
stream.  A line is judged in this order: it has to be UTF-8, a blank line is passed over, the
brackets may not nest too deep (whether the line is JSON or not), and it has to be JSON.  What was
encoded before a faulty line stays.
-/
import DictLog.Json.Read
import DictLog.Ndjson.Line
import DictLog.Session
import DictLog.Text.Blank

namespace DictLog.Ndjson

/-- What came of encoding an input. -/
structure EncodeSummary where
  linesRead : Nat := 0
  blankLines : Nat := 0
  valueRecords : Nat := 0
  addRecords : Nat := 0
  clearRecords : Nat := 0
  stringsInterned : Nat := 0
  bytesIn : Nat := 0
  bytesOut : Nat := 0
  deriving DecidableEq, Repr

/-- The summary as a value. -/
def EncodeSummary.toJson (s : EncodeSummary) : Json :=
  .record
    [("lines_read", some (.count s.linesRead)), ("blank_lines", some (.count s.blankLines)),
      ("value_records", some (.count s.valueRecords)), ("add_records", some (.count s.addRecords)),
      ("clear_records", some (.count s.clearRecords)),
      ("strings_interned", some (.count s.stringsInterned)),
      ("bytes_in", some (.count s.bytesIn)), ("bytes_out", some (.count s.bytesOut))]

/-- What a line says: a value, or nothing if it is blank.  Lines are numbered from 1. -/
def readLine (maxDepth number : Nat) (line : Line) : Except Fault (Option Json) :=
  match Utf8.decode line with
  | .error _ => .error (.io .notUtf8)
  | .ok text =>
    if Text.isBlankText text.toList then .ok none
    else if maxDepth < Json.bracketDepth text.toList then
      .error (.limit (.lineNesting maxDepth number))
    else
      match Json.parse text with
      | .error cause => .error (.invalidLine number cause)
      | .ok v => .ok (some v)

/-- An input being encoded. -/
structure Encoding where
  session : Session
  linesRead : Nat := 0
  blankLines : Nat := 0
  bytesIn : Nat := 0
  deriving DecidableEq

namespace Encoding

/-- Count a line. -/
def count (line : Line) (e : Encoding) : Encoding :=
  { e with linesRead := e.linesRead + 1, bytesIn := e.bytesIn + line.length }

/-- A step of the session. -/
def onSession (step : Session → Emission Session) (e : Encoding) : Emission Encoding :=
  (step e.session).map fun session => { e with session }

/-- Encode a line. -/
def putLine (line : Line) (e : Encoding) : Emission Encoding :=
  let maxDepth := e.session.encoder.options.maxNestingDepth
  match readLine maxDepth (e.linesRead + 1) line with
  | .error fault => .fail fault e
  | .ok none => .skip { e.count line with blankLines := e.blankLines + 1 }
  | .ok (some v) => (e.count line).onSession (Session.write v .accepting)

/-- The end of the input. -/
def finish (ending : Ending) (e : Encoding) : Emission Encoding :=
  match ending with
  | .clean => .skip e
  | .failing cause => .fail (.io cause) e

/-- The summary of an input encoded to its end. -/
def summary (e : Encoding) : EncodeSummary :=
  let stats := e.session.encoder.stats
  { linesRead := e.linesRead
    blankLines := e.blankLines
    valueRecords := stats.valueRecords
    addRecords := stats.addRecords
    clearRecords := stats.clearRecords
    stringsInterned := stats.stringsInterned
    bytesIn := e.bytesIn
    bytesOut := stats.bytesFramed }

end Encoding

/-- The stream of an input, line by line.  The bytes go to a buffer, which takes everything. -/
def encodeLines (input : Tape) (options : EncodeOptions) : Emission Encoding :=
  let opened : Emission Encoding := (Session.start options .accepting).map fun session => { session }
  (opened.andThen (Emission.forEach Encoding.putLine (Line.ofTape input))).andThen
    (Encoding.finish input.ending)

/-- The bytes that reached the output, and how it ended. -/
structure Encoded where
  output : List UInt8
  outcome : Except Fault EncodeSummary

/-- The number of bytes that the buffer holds. -/
def bufferSize : Nat := 8192

/-- Encode an input.  The output is asked to take the stream when the buffer cannot hold it any more
and when all is encoded.  After a failure the rest is offered too, and it does not matter then
whether the output takes it. -/
def encode (input : Tape) (options : EncodeOptions) (sink : Sink) : Encoded :=
  let emission := encodeLines input options
  match sink with
  | .accepting => ⟨emission.bytes, emission.outcome.map fun () => emission.state.summary⟩
  | .refusing cause =>
    match emission.outcome with
    | .error fault =>
      if emission.bytes.length ≤ bufferSize then ⟨[], .error fault⟩ else ⟨[], .error (.io cause)⟩
    | .ok () => ⟨[], .error (.io cause)⟩

end DictLog.Ndjson
