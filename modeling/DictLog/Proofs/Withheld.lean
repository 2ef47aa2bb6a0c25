/-
# What a finished session withholds

A session delivers what its encoder has emitted when a call has been carried out.  For a value that is
refused in the end, the encoder may have begun an epoch first; the record of that epoch waits for the
next delivery.  Finishing delivers nothing.  So the counts of a finished session and what its sink holds
may differ, and they differ by just these records (`counted_at_finish`): all that was emitted is in the
sink exactly if no value refused behind the last call that was carried out has begun an epoch.

What carries this is `Owes`, which every call keeps: what waits is `clear` records alone, and they are
counted.  `withheld` says how many, from the calls.
-/
import DictLog.Proofs.Accounts

namespace DictLog

open Wire

/-! ## 1. Values that are refused -/

namespace Encoder

variable {e : Encoder} {v : Json} {fault : Fault}

/-- The epoch that an encoder begins in front of a value, if its dictionary is full. -/
def renewal (e : Encoder) : List Draft :=
  if e.isFull then [.clear] else []

/-- The renewal of an encoder is what beginning an epoch emits. -/
theorem shapes_renewal (h : Sound e) : Shapes e e.renew e.renewal := by
  unfold renew renewal
  split
  · exact shapes_clear h.started h.consistent
  · exact shapes_skip h

/-- A renewal is `clear` records alone, of which there is one at most. -/
theorem renewal_eq (e : Encoder) : e.renewal = List.replicate e.renewal.length .clear := by
  unfold renewal
  split <;> rfl

/-- A value that is refused leaves the epoch that was begun for it, and no other record. -/
theorem shapes_of_refused (h : Sound e) (hput : (e.put v).outcome = .error fault) :
    Shapes e (e.put v) e.renewal := by
  have hrenewal := shapes_renewal h
  rw [put_eq h.started, Emission.andThen_of_ok (outcome_renew e)] at hput
  rw [put_eq h.started, ← List.append_nil e.renewal]
  refine hrenewal.andThen (outcome_renew e) ?_
  rw [putValue_eq] at hput ⊢
  cases hpayload : (e.renew.state.payload v).outcome with
  | error cause => exact shapes_refused hrenewal.sound v cause
  | ok u => simp [hpayload, Emission.andThen_of_ok (outcome_announce _), emitValue, emit,
      Emission.write] at hput

end Encoder

namespace Call

variable {e : Encoder} {fault : Fault}

/-- The epochs that an encoder begins for a call that it does not carry out. -/
theorem shapes_of_error (h : Encoder.Sound e) {call : Call}
    (herror : (call.emit e).outcome = .error fault) :
    Encoder.Shapes e (call.emit e) e.renewal := by
  cases call with
  | put v => exact Encoder.shapes_of_refused h herror
  | clear => cases herror

end Call

/-! ## 2. What a session owes its sink -/

namespace Delivery

/-- How many epochs wait to be delivered after some calls, where so many waited before.  A call that is
carried out delivers them all; for a value that is refused, one more has begun if the dictionary was
full. -/
def withheld (e : Encoder) (waiting : Nat) : List Call → Nat
  | [] => waiting
  | call :: rest =>
    let emission := call.emit e
    match emission.outcome with
    | .ok () => withheld emission.state 0 rest
    | .error _ => withheld emission.state (waiting + e.renewal.length) rest

/-- Of what the encoder has emitted, the sink has these records, and so many epochs wait; all of them
are counted. -/
structure Owes (out : Output) (x : Delivery) (delivered : List Draft) (waiting : Nat) : Prop where
  sound : Encoder.Sound out.encoder
  encoder : x.session.encoder = out.encoder
  sink : x.sink = delivered.flatMap Draft.bytes
  waits : x.session.waiting = (List.replicate waiting Draft.clear).flatMap Draft.bytes
  emitted : x.sink ++ x.session.waiting = out.bytes
  stats : out.encoder.stats =
    (delivered ++ List.replicate waiting Draft.clear).foldl EncodeStats.count {}

variable {out : Output} {x : Delivery} {delivered : List Draft} {waiting : Nat} {call : Call}
  {fault : Fault}

/-- A session that has begun its stream has delivered it. -/
theorem owes_start (options : EncodeOptions) :
    Owes (.start options) (start options) [.header, .clear] 0 :=
  ⟨Output.sound_start options, rfl, rfl, rfl, List.append_nil _, rfl⟩

/-- A call that is carried out delivers all that waits, and what it has emitted itself.  So nothing
is lost for good, as long as such a call follows. -/
theorem Owes.step_of_ok (h : Owes out x delivered waiting)
    (hok : (call.emit out.encoder).outcome = .ok ()) :
    ∃ more, Owes (out.step call) (x.step call) more 0 := by
  obtain ⟨drafts, hshapes, -⟩ := Call.shapes_emit h.sound call
  have hsend := Call.send_of_ok (h.encoder ▸ hok : (call.emit x.session.encoder).outcome = .ok ())
  rw [h.encoder] at hsend
  have hsink : (x.step call).sink = out.bytes ++ (call.emit out.encoder).bytes := by
    simp [step, hsend, ← h.emitted]
  refine ⟨delivered ++ List.replicate waiting .clear ++ drafts, hshapes.sound, ?_, ?_, ?_, ?_, ?_⟩
  · simp [step, hsend, Output.step]
  · simp [hsink, ← h.emitted, h.sink, h.waits, hshapes.bytes]
  · simp [step, hsend]
  · simp [step, hsend, Output.step, ← h.emitted]
  · simp [Output.step, hshapes.stats, h.stats]

/-- A call that is not carried out delivers nothing, and the epoch that was begun for it waits.  Its
value has no record; a `clear` record is all that can be left of it. -/
theorem Owes.step_of_error (h : Owes out x delivered waiting)
    (herror : (call.emit out.encoder).outcome = .error fault) :
    Owes (out.step call) (x.step call) delivered (waiting + out.encoder.renewal.length) := by
  have hshapes := Call.shapes_of_error h.sound herror
  have hsend := Call.send_of_error
    (h.encoder ▸ herror : (call.emit x.session.encoder).outcome = .error fault)
  rw [h.encoder] at hsend
  have hmore := Encoder.renewal_eq out.encoder
  refine ⟨hshapes.sound, ?_, ?_, ?_, ?_, ?_⟩
  · simp [step, hsend, Output.step]
  · simp [step, hsend, h.sink]
  · rw [← List.replicate_append_replicate, ← hmore]
    simp [step, hsend, h.waits, hshapes.bytes]
  · simp [step, hsend, Output.step, ← h.emitted]
  · rw [← List.replicate_append_replicate, ← hmore]
    simp [Output.step, hshapes.stats, h.stats]

/-- After some calls, what waits is as many epochs as the calls say, counted from the last one that
was carried out. -/
theorem owes_run (calls : List Call) : ∀ {out : Output} {x : Delivery} {delivered : List Draft}
    {waiting : Nat}, Owes out x delivered waiting →
      ∃ more, Owes (out.run calls) (x.run calls) more (withheld out.encoder waiting calls) := by
  induction calls with
  | nil => exact fun h => ⟨_, h⟩
  | cons call rest ih =>
    intro out x delivered waiting h
    rw [withheld]
    cases hcall : (call.emit out.encoder).outcome with
    | ok u =>
      obtain ⟨more, hstep⟩ := h.step_of_ok hcall
      exact ih hstep
    | error fault => exact ih (h.step_of_error hcall)

/-! ## 3. Finished sessions -/

/-- **What is in the sink of a finished session.**  Whatever is asked in a session whose sink never
refuses, values that are refused included, it can be finished, with the counts of its encoder.  These
say how many bytes the encoder has emitted.  In front of the epochs that are withheld, the sink has
all of these bytes: records, among them as many epochs as are counted less those that are withheld.
So it has everything exactly if none is. -/
theorem counted_at_finish (options : EncodeOptions) (calls : List Call) :
    let out := (Output.start options).run calls
    let finished := (start options).run calls
    let missing := withheld (Output.start options).encoder 0 calls
    finished.session.finish .accepting = .ok out.encoder.stats ∧
      out.encoder.position = out.bytes.length ∧
      out.encoder.stats.bytesFramed = out.bytes.length ∧
      finished.sink ++ (List.replicate missing Wire.clear).flatten = out.bytes ∧
      (∃ records : List Draft, finished.sink = records.flatMap Draft.bytes ∧
        (records.map Draft.kind).count .clear + missing = out.encoder.stats.clearRecords) ∧
      (finished.sink = out.bytes ↔ missing = 0) := by
  intro out finished missing
  obtain ⟨records, howes⟩ := owes_run calls (owes_start options)
  have hwaits : finished.session.waiting = (List.replicate missing Wire.clear).flatten := by
    rw [howes.waits, List.flatMap_replicate]
    rfl
  have hemitted : finished.sink ++ finished.session.waiting = out.bytes := howes.emitted
  have hframed : out.encoder.stats.bytesFramed = out.bytes.length := by
    rw [howes.stats, EncodeStats.bytesFramed_foldl, List.flatMap_append, ← howes.sink, ← howes.waits,
      howes.emitted]
    exact Nat.zero_add _
  refine ⟨?_, howes.sound.consistent.framed.symm.trans hframed, hframed, hwaits ▸ hemitted,
    ⟨records, howes.sink, ?_⟩, ?_⟩
  · rw [Session.finish, howes.encoder]
  · rw [howes.stats, EncodeStats.clearRecords_foldl]
    simp [missing, Draft.kind]
  · rw [← hemitted, List.self_eq_append_right, hwaits, List.flatten_eq_nil_iff]
    simp [Wire.clear]

/-- A value that is too deep for an encoder with a full dictionary: the session is finished, and counts
an epoch and three bytes more than its sink has. -/
theorem short_at_finish :
    let options : EncodeOptions := { clearThreshold := some 1, maxNestingDepth := 1 }
    let calls := [Call.put (.object [("k", .null)]), Call.put (.array [.array []])]
    let out := (Output.start options).run calls
    let finished := (start options).run calls
    finished.session.finish .accepting = .ok out.encoder.stats ∧
      finished.sink ≠ out.bytes ∧
      finished.sink.length = 25 ∧ out.encoder.position = 28 ∧ out.encoder.stats.bytesFramed = 28 ∧
      out.encoder.stats.clearRecords = 2 := by
  refine ⟨congrArg Except.ok ?_, ?_, ?_, ?_, ?_, ?_⟩ <;> decide +kernel

end Delivery

end DictLog
