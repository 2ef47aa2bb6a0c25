/-
# Readings: one pass over a stream

A reading decodes a stream front to back and ends with its first failure: whatever is asked
afterwards, there is nothing more.
-/
import DictLog.Buffered
import DictLog.Decoder

namespace DictLog

/-- A stream being read. -/
structure Reading (σ : Type) where
  decoder : Decoder σ
  /-- Whether the reading has failed. -/
  failed : Bool := false

namespace Reading

variable {σ : Type} [Feed σ]

/-- A reading of a feed. -/
def ofFeed (feed : σ) (limits : Limits) : Reading σ where
  decoder := .ofFeed feed limits

/-- A step of the decoder, unless the reading has failed. -/
def attempt {α : Type} (step : EStateM Fault (Decoder σ) (Option α)) :
    EStateM Fault (Reading σ) (Option α) := fun r =>
  if r.failed then .ok none r
  else
    match step r.decoder with
    | .ok item decoder => .ok item { r with decoder }
    | .error fault decoder => .error fault { decoder, failed := true }

/-- The next value. -/
def nextValue : EStateM Fault (Reading σ) (Option Json) :=
  attempt Decoder.nextValue

/-- The next record. -/
def nextRecord (payloads : Payloads) : EStateM Fault (Reading σ) (Option Entry) :=
  attempt (Decoder.nextRecord payloads)

/-- The dictionary of the epoch. -/
def dictionary (r : Reading σ) : Dictionary :=
  r.decoder.dictionary

/-- What has been read so far. -/
def stats (r : Reading σ) : DecodeStats :=
  r.decoder.stats

/-- All values that are left. -/
def values (r : Reading σ) : Run (Reading σ) Json :=
  Run.ask nextValue r.decoder.bound r

/-- All records that are left. -/
def records (payloads : Payloads) (r : Reading σ) : Run (Reading σ) Entry :=
  Run.ask (nextRecord payloads) r.decoder.bound r

end Reading

end DictLog
