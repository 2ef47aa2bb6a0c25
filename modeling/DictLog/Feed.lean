/-
# Feeds: where bytes come from

Readers take their bytes from a **feed**, which knows how many it has handed out (`offset`).  A feed
ends in one of two ways: the input is over, or reading it fails.  Between tokens the first is a
clean end; inside a token either one is a fault.

`Tape` is the plain feed, the bytes still to come and a counter.  Whatever reads from a feed is
written once, for any feed.
-/
import DictLog.Varint

namespace DictLog

/-- How an input ends. -/
inductive Ending where
  /-- The input is over. -/
  | clean
  /-- Reading on fails, every time. -/
  | failing (cause : IoFault)
  deriving DecidableEq, Repr

namespace Ending

/-- The fault of an input that ends where more bytes are due. -/
def fault : Ending → Fault
  | clean => .truncated
  | failing cause => .io cause

end Ending

/-- A source of bytes.  A step that fails keeps the bytes it took. -/
class Feed (σ : Type) where
  /-- The number of bytes handed out. -/
  offset : σ → Nat
  /-- The number of bytes that can still come. -/
  unread : σ → Nat
  /-- The next byte; none at a clean end. -/
  nextByte : EStateM Fault σ (Option UInt8)
  /-- The next so many bytes. -/
  take : Nat → EStateM Fault σ (List UInt8)
  /-- Leave out so many bytes. -/
  skip : Nat → EStateM Fault σ Unit

/-- A step of a part of a larger state. -/
def onPart {ε σ τ α : Type} (part : τ → σ) (put : σ → τ → τ) (step : EStateM ε σ α) :
    EStateM ε τ α := fun whole =>
  match step (part whole) with
  | .ok a s => .ok a (put s whole)
  | .error e s => .error e (put s whole)

namespace Feed

variable {σ : Type} [Feed σ]

/-- The next byte of a token that is not complete yet. -/
def requireByte : EStateM Fault σ UInt8 := do
  match ← nextByte with
  | some byte => return byte
  | none => throw .truncated

/-- The rest of a varint, at most so many groups. -/
def varintFrom : Nat → Varint.Accumulator → EStateM Fault σ UInt64
  | 0, _ => throw .integerOverflow
  | groups + 1, acc => do
    match Varint.Accumulator.push (← requireByte) acc with
    | .ok (some value) _ => return value
    | .ok none acc => varintFrom groups acc
    | .error fault _ => throw fault

/-- A varint. -/
def varint : EStateM Fault σ UInt64 :=
  varintFrom Varint.maxLength {}

/-- The next so many bytes, one at a time. -/
def array : Nat → EStateM Fault σ (List UInt8)
  | 0 => return []
  | n + 1 => do
    let byte ← requireByte
    let rest ← array n
    return byte :: rest

end Feed

/-! ## The plain feed -/

/-- The bytes still to come, how many came before, and how the input ends.  How many are still to
come is kept along, so that nobody has to count them. -/
structure Tape where
  rest : List UInt8
  offset : Nat := 0
  ending : Ending := .clean
  unread : Nat := rest.length
  unread_eq : unread = rest.length := by rfl
  deriving DecidableEq

namespace Tape

/-- What is left, how many bytes came before and how the input ends make up a tape; the count that
is kept along follows from these. -/
@[ext] theorem ext {s t : Tape} (rest : s.rest = t.rest) (offset : s.offset = t.offset)
    (ending : s.ending = t.ending) : s = t := by
  obtain ⟨_, _, _, _, hs⟩ := s
  obtain ⟨_, _, _, _, ht⟩ := t
  simp_all

/-- The tape of some bytes that end cleanly. -/
def ofBytes (bytes : List UInt8) : Tape where
  rest := bytes

/-- The next byte. -/
def nextByte : EStateM Fault Tape (Option UInt8) := fun t =>
  match h : t.rest with
  | byte :: rest =>
    .ok (some byte)
      { t with
        rest
        offset := t.offset + 1
        unread := t.unread - 1
        unread_eq := by simp [t.unread_eq, h] }
  | [] =>
    match t.ending with
    | .clean => .ok none t
    | .failing cause => .error (.io cause) t

/-- The next `n` bytes; if there are fewer, all of them are gone. -/
def take (n : Nat) : EStateM Fault Tape (List UInt8) := fun t =>
  if n ≤ t.unread then
    .ok (t.rest.take n)
      { t with
        rest := t.rest.drop n
        offset := t.offset + n
        unread := t.unread - n
        unread_eq := by simp [t.unread_eq] }
  else
    .error t.ending.fault
      { t with rest := [], offset := t.offset + t.unread, unread := 0, unread_eq := rfl }

/-- Leave out `n` bytes. -/
def skip (n : Nat) : EStateM Fault Tape Unit := do
  discard (take n)

end Tape

instance : Feed Tape where
  offset := Tape.offset
  unread := Tape.unread
  nextByte := Tape.nextByte
  take := Tape.take
  skip := Tape.skip

end DictLog
