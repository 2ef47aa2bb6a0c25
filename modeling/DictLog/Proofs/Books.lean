/-
# The books of the writing side

An encoder keeps its position, the offset of the last record that changed the dictionary, and how
many strings it has announced.  `Consistent` says what these have to do with each other, and every
step keeps it, a step that fails included.  So a backlink is never measured from behind the
position.

`Call` is what a caller may ask of an encoder, and `Output` what has come of some calls.
-/
import DictLog.Encoder
import DictLog.Proofs.Lexicon

namespace DictLog

/-! ## 1. What every step keeps -/

namespace Encoder

/-- The numbers that an encoder keeps fit together. -/
structure Consistent (e : Encoder) : Prop where
  last : e.lastDictionary ≤ e.position
  announced : e.lexicon.announced ≤ e.lexicon.size
  /-- Each string that was announced took at least a byte. -/
  positioned : e.lexicon.announced ≤ e.position
  framed : e.stats.bytesFramed = e.position

variable {e : Encoder} {record : List UInt8}

theorem consistent_new (options : EncodeOptions) : Consistent (new options) :=
  ⟨Nat.le_refl _, Nat.le_refl _, Nat.le_refl _, rfl⟩

/-- Appending a record keeps the books, and makes up for the strings that it announces. -/
theorem consistent_emit (hlast : e.lastDictionary ≤ e.position)
    (hannounced : e.lexicon.announced ≤ e.lexicon.size)
    (hpositioned : e.lexicon.announced ≤ e.position + record.length)
    (hframed : e.stats.bytesFramed = e.position) : Consistent (emit record e).state where
  last := Nat.le_trans hlast (Nat.le_add_right _ _)
  announced := hannounced
  positioned := hpositioned
  framed := by
    show e.stats.bytesFramed + record.length = e.position + record.length
    rw [hframed]

theorem Consistent.emit (h : Consistent e) (record : List UInt8) :
    Consistent (emit record e).state :=
  consistent_emit h.last h.announced (Nat.le_trans h.positioned (Nat.le_add_right _ _)) h.framed

theorem Consistent.clear (h : Consistent e) : Consistent e.clear.state :=
  consistent_emit (Nat.le_refl _) (Nat.le_refl _) (Nat.zero_le _) h.framed

theorem Consistent.start (h : Consistent e) : Consistent e.start.state := by
  rw [Encoder.start]
  split
  · exact h
  · have hheader : Consistent { e with started := true } :=
      ⟨h.last, h.announced, h.positioned, h.framed⟩
    exact Emission.state_andThen (hheader.emit _) fun _ h => h.clear

theorem Consistent.renew (h : Consistent e) : Consistent e.renew.state := by
  rw [Encoder.renew]
  split
  · exact h.clear
  · exact h

/-- Every string takes at least a byte in the record that announces it. -/
theorem length_le_flatMap_stringLiteral (strings : List String) :
    strings.length ≤ (strings.flatMap Wire.stringLiteral).length := by
  induction strings with
  | nil => exact Nat.le_refl _
  | cons s rest ih =>
    have hpos : 0 < (Wire.stringLiteral s).length := Nat.succ_pos _
    rw [List.flatMap_cons, List.length_append, List.length_cons]
    omega

/-- What has been announced and what is pending make up the dictionary. -/
theorem length_pending (h : e.lexicon.announced ≤ e.lexicon.size) :
    e.lexicon.announced + e.lexicon.pending.length = e.lexicon.size := by
  rw [Lexicon.pending, List.length_drop, Lexicon.length_entries]
  omega

/-- An `add` record is at least as long as the number of its strings. -/
theorem length_pending_le (backlink : Nat) (strings : List String) :
    strings.length ≤ (Wire.add backlink strings).length := by
  have hle := length_le_flatMap_stringLiteral strings
  simp only [Wire.add, List.length_append, List.length_cons]
  omega

/-- Announcing makes the number of announced strings jump to the size of the dictionary.  The
position makes up for it, by the length of the record. -/
theorem Consistent.announce (h : Consistent e) : Consistent e.announce.state := by
  rw [Encoder.announce]
  split
  · have hpending := length_pending h.announced
    have hle := length_pending_le e.backlink e.lexicon.pending
    have hpositioned := h.positioned
    refine consistent_emit (Nat.le_refl _) (Nat.le_refl _) ?_ h.framed
    show e.lexicon.size ≤ e.position + (Wire.add e.backlink e.lexicon.pending).length
    omega
  · exact h

theorem Consistent.emitValue (h : Consistent e) (payload : List UInt8) :
    Consistent (emitValue payload e).state := by
  have hcounted : Consistent
      { e with stats := { e.stats with valueRecords := e.stats.valueRecords + 1 } } :=
    ⟨h.last, h.announced, h.positioned, h.framed⟩
  exact hcounted.emit _

/-- The payload of a value in the current epoch. -/
def payload (e : Encoder) (v : Json) : Emission Lexicon :=
  Payload.ofJson e.options.maxNestingDepth v e.lexicon

/-- The encoder once the payload of a value has been written, for better or worse. -/
def seen (e : Encoder) (v : Json) : Encoder :=
  { e with lexicon := (e.payload v).state }

/-- Writing a payload keeps the strings that are there, whether or not it succeeds. -/
theorem entries_seen (e : Encoder) (v : Json) : e.lexicon.entries <+: (e.seen v).lexicon.entries :=
  Payload.entries_write _ _ v e.lexicon

theorem announced_seen (e : Encoder) (v : Json) :
    (e.seen v).lexicon.announced = e.lexicon.announced :=
  Payload.announced_write _ _ v e.lexicon

/-- Seeing the strings of a value keeps the books in order: they may make the dictionary longer, but
nothing is announced or emitted yet. -/
theorem Consistent.seen (h : Consistent e) (v : Json) : Consistent (e.seen v) where
  last := h.last
  announced := by
    have hlen := (entries_seen e v).length_le
    rw [Lexicon.length_entries, Lexicon.length_entries] at hlen
    rw [announced_seen]
    exact Nat.le_trans h.announced hlen
  positioned := by
    rw [announced_seen]
    exact h.positioned
  framed := h.framed

/-- What becomes of a value, once its payload has been written. -/
theorem putValue_eq (v : Json) (e : Encoder) :
    putValue v e =
      match (e.payload v).outcome with
      | .ok () => (e.seen v).announce.andThen (Encoder.emitValue (e.payload v).bytes)
      | .error fault => .fail fault (e.seen v) := rfl

/-- A value keeps the books in order.  If it is refused, the strings that it brought stay pending,
which the books allow. -/
theorem Consistent.putValue (h : Consistent e) (v : Json) :
    Consistent (putValue v e).state := by
  rw [putValue_eq]
  split
  · exact Emission.state_andThen (h.seen v).announce fun _ h => h.emitValue _
  · exact h.seen v

/-- The whole call keeps the books in order, with the start and the renewal in front. -/
theorem Consistent.put (h : Consistent e) (v : Json) : Consistent (put v e).state :=
  Emission.state_andThen (Emission.state_andThen h.start fun _ h => h.renew) fun _ h => h.putValue v

end Encoder

/-! ## 2. Calls and what comes of them -/

/-- What may be asked of an encoder or of a session. -/
inductive Call where
  | put (v : Json)
  | clear

namespace Call

/-- What an encoder does when asked. -/
def emit (e : Encoder) : Call → Emission Encoder
  | put v => e.put v
  | clear => e.clear

/-- The values that an emission has accepted. -/
def accepted (outcome : Except Fault Unit) : Call → List Json
  | put v =>
    match outcome with
    | .ok () => [v]
    | .error _ => []
  | clear => []

end Call

/-- All bytes that an encoder has emitted, and the encoder. -/
structure Output where
  bytes : List UInt8
  encoder : Encoder

namespace Output

/-- A stream just started. -/
def start (options : EncodeOptions) : Output where
  bytes := (Encoder.new options).start.bytes
  encoder := (Encoder.new options).start.state

/-- The output after one more call, whether or not it fails. -/
def step (out : Output) (call : Call) : Output where
  bytes := out.bytes ++ (call.emit out.encoder).bytes
  encoder := (call.emit out.encoder).state

/-- The output after some calls. -/
def run (out : Output) (calls : List Call) : Output :=
  calls.foldl step out

/-- One call keeps the books in order, whatever is asked. -/
theorem consistent_step {out : Output} (h : out.encoder.Consistent) (call : Call) :
    (out.step call).encoder.Consistent := by
  cases call with
  | put v => exact h.put v
  | clear => exact h.clear

/-- Whatever is asked of an encoder, its books are in order. -/
theorem consistent_run (calls : List Call) :
    ∀ {out : Output}, out.encoder.Consistent → (out.run calls).encoder.Consistent := by
  induction calls with
  | nil =>
    intro out h
    exact h
  | cons call rest ih =>
    intro out h
    exact ih (consistent_step h call)

theorem consistent_start (options : EncodeOptions) : (start options).encoder.Consistent :=
  (Encoder.consistent_new options).start

/-- What has been emitted stays. -/
theorem bytes_run (calls : List Call) : ∀ out : Output, out.bytes <+: (out.run calls).bytes := by
  induction calls with
  | nil =>
    intro out
    exact List.prefix_rfl
  | cons call rest ih =>
    intro out
    exact (List.prefix_append out.bytes _).trans (ih (out.step call))

end Output

end DictLog
