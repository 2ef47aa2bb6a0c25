/-
# What a job makes of its input

A job turns an input into an output.  When it is done it has something to tell besides: the counts,
as a sentence or as JSON.  A listing tells its counts in its output and nothing else.
-/
import DictLog.Command.Invocation
import DictLog.Listing.Text
import DictLog.Ndjson.Decode
import DictLog.Ndjson.Encode
import DictLog.Number.Percentage

namespace DictLog.Command

/-- What a job tells when it is done. -/
inductive Notice where
  | nothing
  | encoded (output : Option String) (summary : Ndjson.EncodeSummary)
  | decoded (output : Option String) (summary : Ndjson.DecodeSummary)
  | json (summary : Json)

/-- How an output is called. -/
def outputName (output : Option String) : String :=
  output.getD "stdout"

/-- The notice in words, `elapsed` being the time the job took. -/
def Notice.text (elapsed : String) : Notice → String
  | nothing => ""
  | encoded output s =>
    s!"Encoded {outputName output} (lines: {s.valueRecords}, blank: {s.blankLines}, " ++
      s!"dictionary adds: {s.addRecords}, strings interned: {s.stringsInterned}, " ++
      s!"epochs: {s.clearRecords}, bytes: {s.bytesIn} → {s.bytesOut} " ++
      s!"({percentage s.bytesOut s.bytesIn}%), elapsed: {elapsed})\n"
  | decoded output s =>
    s!"Decoded to {outputName output} (lines: {s.values}, records: {s.records}, " ++
      s!"epochs: {s.clearRecords}, final dictionary: {s.dictionaryEntries}, " ++
      s!"bytes read: {s.bytesRead}, elapsed: {elapsed})\n"
  | json summary => summary.render ++ "\n"

/-- The output of a job, and what it has to tell unless it failed.  The output before a failure
counts. -/
structure Report where
  output : List UInt8
  outcome : Except Fault Notice

/-- Encode lines. -/
def EncodeRequest.report (request : EncodeRequest) (input : Tape) (sink : Sink) : Report :=
  let encoded := Ndjson.encode input request.options sink
  { output := encoded.output
    outcome := encoded.outcome.map fun summary =>
      match request.notices with
      | .sentence => .encoded request.output summary
      | .json => .json summary.toJson }

/-- Decode a stream. -/
def DecodeRequest.report (request : DecodeRequest) (input : Tape) (sink : Sink) : Report :=
  let decoded := Ndjson.decode input request.limits sink
  { output := Utf8.encode decoded.output
    outcome := decoded.outcome.map fun summary =>
      match request.notices with
      | .sentence => .decoded request.output summary
      | .json => .json summary.toJson }

/-- List a stream, on the standard output. -/
def ListRequest.report (request : ListRequest) (input : Tape) : Report :=
  let payloads := if request.skipValues then .skipped else .decoded
  let listing := Listing.all input request.limits payloads
  let text := match request.form with
    | .table => if request.summaryOnly then listing.summaryText else listing.table
    | .document => listing.document !request.summaryOnly
  { output := Utf8.encode text
    outcome := listing.outcome.map fun _ => .nothing }

/-- What a job makes of its input, the output going to a sink. -/
def Job.report (job : Job) (input : Tape) (sink : Sink) : Report :=
  match job with
  | encode request => request.report input sink
  | decode request => request.report input sink
  | list request => request.report input

end DictLog.Command
