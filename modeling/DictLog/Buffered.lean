/-
# The buffered feed

A feed over an outside world that brings bytes a chunk at a time and may be interrupted.  It owns a
**buffer** of a fixed size, which the outside world fills from its front.  Bytes are handed out from
`position` on, up to `filled`; what stands behind that is left over from before.

Bytes are taken in three ways, one at a time, so many at once, and so many that nobody wants to see.
Each asks for the buffer to be `ready` before it takes any, again and again if it wants more than the
buffer holds.
-/
import DictLog.Feed

namespace DictLog

/-! ## 1. What arrives -/

/-- What one attempt to read the outside world brings: nothing, or one byte and maybe more.  What does
not fit into the buffer is there again at the next attempt. -/
inductive Arrival where
  | interrupted
  | chunk (first : UInt8) (rest : List UInt8)
  deriving DecidableEq, Repr

namespace Arrival

/-- The bytes that arrive. -/
def bytes : Arrival → List UInt8
  | interrupted => []
  | chunk first rest => first :: rest

/-- Some bytes arriving `size` at a time, each chunk after an interruption. -/
def chunks (size : Nat) (bytes : List UInt8) : List Arrival :=
  match bytes with
  | [] => []
  | first :: rest =>
    interrupted :: chunk first (rest.take (size - 1)) :: chunks size (rest.drop (size - 1))
termination_by bytes.length
decreasing_by simp only [List.length_drop, List.length_cons]; omega

/-- Bytes that are there again, if there are any. -/
def again : List UInt8 → List Arrival
  | [] => []
  | first :: rest => [chunk first rest]

end Arrival

/-! ## 2. The buffer -/

/-- The size of a buffer. -/
def Buffer.capacity : Nat := 8192

/-- Cells with bytes, of which those from `position` to `filled` have not been handed out. -/
structure Buffer where
  cells : Vector UInt8 Buffer.capacity
  position : Nat
  filled : Nat
  position_le : position ≤ filled
  filled_le : filled ≤ Buffer.capacity
  deriving DecidableEq

namespace Buffer

/-- A buffer that was never filled. -/
def new : Buffer where
  cells := .replicate capacity 0
  position := 0
  filled := 0
  position_le := Nat.le_refl 0
  filled_le := Nat.zero_le capacity

/-- How many bytes there are to hand out. -/
def available (b : Buffer) : Nat :=
  b.filled - b.position

/-- The next byte to hand out, if there is one. -/
def next? (b : Buffer) : Option UInt8 :=
  if h : b.position < b.filled then some (b.cells.get ⟨b.position, Nat.lt_of_lt_of_le h b.filled_le⟩)
  else none

/-- The bytes in `n` cells from `start` on. -/
def slice (cells : Vector UInt8 capacity) : (n start : Nat) → start + n ≤ capacity → List UInt8
  | 0, _, _ => []
  | n + 1, start, h => cells.get ⟨start, by omega⟩ :: slice cells n (start + 1) (by omega)

/-- The next bytes to hand out, at most `n`. -/
def front (n : Nat) (b : Buffer) : List UInt8 :=
  slice b.cells (min n b.available) b.position (by
    have hposition := b.position_le
    have hfilled := b.filled_le
    rw [available]
    omega)

/-- All bytes to hand out. -/
def held (b : Buffer) : List UInt8 :=
  b.front b.available

/-- At most `n` bytes have been handed out. -/
def pass (n : Nat) (b : Buffer) : Buffer where
  cells := b.cells
  position := b.position + min n b.available
  filled := b.filled
  position_le := by
    have hposition := b.position_le
    rw [available]
    omega
  filled_le := b.filled_le

/-- Write bytes into the cells from `start` on. -/
def overwrite : (bytes : List UInt8) → (start : Nat) → start + bytes.length ≤ capacity →
    Vector UInt8 capacity → Vector UInt8 capacity
  | [], _, _, cells => cells
  | byte :: rest, start, h, cells =>
    overwrite rest (start + 1) (by simp only [List.length_cons] at h; omega)
      (cells.set start byte (by simp only [List.length_cons] at h; omega))

/-- The outside world has written bytes into the front of the buffer. -/
def load (bytes : List UInt8) (h : bytes.length ≤ capacity) (b : Buffer) : Buffer where
  cells := overwrite bytes 0 (by omega) b.cells
  position := 0
  filled := bytes.length
  position_le := Nat.zero_le _
  filled_le := h

end Buffer

/-! ## 3. Taking bytes -/

/-- A buffer, and what the outside world will still bring. -/
structure Buffered where
  buffer : Buffer
  arrivals : List Arrival
  offset : Nat := 0
  ending : Ending := .clean
  deriving DecidableEq

namespace Buffered

/-- Nothing fetched yet. -/
def ofArrivals (arrivals : List Arrival) (ending : Ending) : Buffered where
  buffer := .new
  arrivals
  ending

/-- All bytes still to come. -/
def bytes (b : Buffered) : List UInt8 :=
  b.buffer.held ++ b.arrivals.flatMap Arrival.bytes

/-- Attempt to read these arrivals until one brings something: whether one did. -/
def fillFrom (b : Buffered) : List Arrival → EStateM.Result Fault Buffered Bool
  | [] =>
    match b.ending with
    | .clean => .ok false { b with arrivals := [] }
    | .failing cause => .error (.io cause) { b with arrivals := [] }
  | .interrupted :: arrivals => fillFrom b arrivals
  | .chunk first rest :: arrivals =>
    .ok true
      { b with
        buffer := b.buffer.load (first :: rest.take (Buffer.capacity - 1)) (by
          simp only [List.length_cons, List.length_take, Buffer.capacity]
          omega)
        arrivals := Arrival.again (rest.drop (Buffer.capacity - 1)) ++ arrivals }

/-- Fill the buffer with what arrives next: whether anything does. -/
def fill : EStateM Fault Buffered Bool := fun b =>
  b.fillFrom b.arrivals

/-- Whether the buffer has bytes to hand out, once it has been filled where it had none. -/
def ready : EStateM Fault Buffered Bool := do
  let buffer := (← get).buffer
  if buffer.position = buffer.filled then fill else return true

/-- Hand out at most `n` bytes of the buffer; how many it were. -/
def pass (n : Nat) : EStateM Fault Buffered Nat := fun b =>
  let taken := min n b.buffer.available
  .ok taken { b with buffer := b.buffer.pass n, offset := b.offset + taken }

/-- The next byte. -/
def nextByte : EStateM Fault Buffered (Option UInt8) := do
  if ← ready then
    let byte := (← get).buffer.next?
    discard (pass 1)
    return byte
  else return none

/-- The next so many bytes, those `taken` before them standing in reverse.  Each time around the
buffer has at least one of them, so that there are no more times than bytes. -/
def takeWithin : Nat → List UInt8 → Nat → EStateM Fault Buffered (List UInt8)
  | _, taken, 0 => return taken.reverse
  | 0, _, _ + 1 => throw .truncated
  | times + 1, taken, n + 1 => do
    if ← ready then
      let front := (← get).buffer.front (n + 1)
      let count ← pass (n + 1)
      takeWithin times (front.reverse ++ taken) (n + 1 - count)
    else throw .truncated

/-- The next `n` bytes; if there are fewer, all of them are gone. -/
def take (n : Nat) : EStateM Fault Buffered (List UInt8) :=
  takeWithin n [] n

/-- Leave out so many bytes, in no more times than bytes. -/
def skipWithin : Nat → Nat → EStateM Fault Buffered Unit
  | _, 0 => return ()
  | 0, _ + 1 => throw .truncated
  | times + 1, n + 1 => do
    if ← ready then
      let count ← pass (n + 1)
      skipWithin times (n + 1 - count)
    else throw .truncated

/-- Leave out `n` bytes; if there are fewer, all of them are gone. -/
def skip (n : Nat) : EStateM Fault Buffered Unit :=
  skipWithin n n

end Buffered

instance : Feed Buffered where
  offset := Buffered.offset
  unread b := b.bytes.length
  nextByte := Buffered.nextByte
  take := Buffered.take
  skip := Buffered.skip

end DictLog
