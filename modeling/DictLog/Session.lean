/-
# Writing sessions

A session encodes values and hands the bytes to a **sink**.  The sink may refuse a delivery; what it
refuses waits in the session and goes out in front of the next delivery.  Steps tell how the sink
behaves while they run, and emit the bytes that it accepts.
-/
import DictLog.Encoder

namespace DictLog

/-- How a sink takes what is delivered to it. -/
inductive Sink where
  | accepting
  | refusing (cause : IoFault)
  deriving DecidableEq, Repr

/-- A stream being written to a sink. -/
structure Session where
  encoder : Encoder
  /-- Bytes that the sink has not accepted yet. -/
  waiting : List UInt8 := []
  deriving DecidableEq

namespace Session

/-- Deliver everything that waits.  With nothing to deliver the sink is not asked. -/
def deliver (sink : Sink) (s : Session) : Emission Session :=
  match s.waiting, sink with
  | [], _ => .skip s
  | _ :: _, .accepting => .write s.waiting { s with waiting := [] }
  | _ :: _, .refusing cause => .fail (.io cause) s

/-- A step of the encoder; what it appends waits. -/
def encode (step : Encoder → Emission Encoder) (s : Session) : Emission Session :=
  let emission := step s.encoder
  { bytes := []
    state := { encoder := emission.state, waiting := s.waiting ++ emission.bytes }
    outcome := emission.outcome }

/-- Open a stream: its header and the first epoch are delivered at once. -/
def start (options : EncodeOptions) (sink : Sink) : Emission Session :=
  (encode Encoder.start { encoder := .new options }).andThen (deliver sink)

/-- Write a value.  If it cannot be encoded, nothing is delivered. -/
def write (v : Json) (sink : Sink) (s : Session) : Emission Session :=
  (encode (Encoder.put v) s).andThen (deliver sink)

/-- Begin an epoch. -/
def clear (sink : Sink) (s : Session) : Emission Session :=
  (encode Encoder.clear s).andThen (deliver sink)

/-- Finish: the sink is told to keep what it has accepted.  The counts are final. -/
def finish (sink : Sink) (s : Session) : Except Fault EncodeStats :=
  match sink with
  | .accepting => .ok s.encoder.stats
  | .refusing cause => .error (.io cause)

end Session

end DictLog
