/-
# What is written in a session is read back

A session that fails to encode a value delivers nothing, and what was emitted on the way waits for
the next delivery.  So the sink always holds whole records, and what waits are whole records
without values (`Delivery.Sound`).  Every call keeps that (`Sound.step`), so whatever is asked in a
session, the values decoded from the sink are those that were accepted.
-/
import DictLog.Session
import DictLog.Proofs.Framing

namespace DictLog

/-! ## 1. One call -/

/-- A sink that never refuses is given everything that waits, if there is anything. -/
theorem Session.deliver_accepting (s : Session) :
    Session.deliver .accepting s = .write s.waiting { s with waiting := [] } := by
  obtain ⟨encoder, _ | ⟨b, rest⟩⟩ := s
  · rfl
  · rfl

namespace Call

/-- What a session does when asked, on a sink that never refuses. -/
def send (s : Session) : Call → Emission Session
  | put v => s.write v .accepting
  | clear => s.clear .accepting

/-- No object in what is asked repeats a key. -/
def Distinct : Call → Prop
  | put v => v.Distinct
  | clear => True

variable {s : Session} {call : Call} {fault : Fault}

/-- What a session does is what its encoder does, and then a delivery. -/
theorem send_eq (s : Session) (call : Call) :
    call.send s =
      (Session.encode (fun e => call.emit e) s).andThen (Session.deliver .accepting) := by
  cases call with
  | put v => rfl
  | clear => rfl

/-- A call that the encoder carries out delivers everything. -/
theorem send_of_ok (h : (call.emit s.encoder).outcome = .ok ()) :
    call.send s =
      ⟨s.waiting ++ (call.emit s.encoder).bytes, ⟨(call.emit s.encoder).state, []⟩, .ok ()⟩ := by
  have hencoded : (Session.encode (fun e => call.emit e) s).outcome = .ok () := h
  rw [send_eq, Emission.andThen_of_ok hencoded, Session.deliver_accepting]
  rfl

/-- A call that the encoder fails to carry out delivers nothing. -/
theorem send_of_error (h : (call.emit s.encoder).outcome = .error fault) :
    call.send s = ⟨[], ⟨(call.emit s.encoder).state, s.waiting ++ (call.emit s.encoder).bytes⟩,
      .error fault⟩ := by
  have hencoded : (Session.encode (fun e => call.emit e) s).outcome = .error fault := h
  rw [send_eq, Emission.andThen_of_error hencoded, ← h]
  rfl

/-- The encoder of a session does what is asked of it, whatever becomes of the bytes. -/
theorem encoder_send (s : Session) (call : Call) :
    (call.send s).state.encoder = (call.emit s.encoder).state := by
  cases h : (call.emit s.encoder).outcome with
  | ok u => rw [send_of_ok h]
  | error fault => rw [send_of_error h]

/-- Values without repeated keys are accepted as they are. -/
theorem merge_accepted (h : call.Distinct) (outcome : Except Fault Unit) :
    (call.accepted outcome).map Json.merge = call.accepted outcome := by
  cases call with
  | clear => rfl
  | put v =>
    cases outcome with
    | error fault => rfl
    | ok u =>
      show [v.merge] = [v]
      rw [Json.merge_eq_self v h]

end Call

/-! ## 2. Sessions as a whole -/

/-- A session, what its sink has been given, and the values that it has accepted. -/
structure Delivery where
  sink : List UInt8
  session : Session
  accepted : List Json

namespace Delivery

/-- A session just started. -/
def start (options : EncodeOptions) : Delivery where
  sink := (Session.start options .accepting).bytes
  session := (Session.start options .accepting).state
  accepted := []

/-- The delivery after one more call, whether or not it fails. -/
def step (x : Delivery) (call : Call) : Delivery where
  sink := x.sink ++ (call.send x.session).bytes
  session := (call.send x.session).state
  accepted := x.accepted ++ call.accepted (call.send x.session).outcome

/-- The delivery after some calls. -/
def run (x : Delivery) (calls : List Call) : Delivery :=
  calls.foldl step x

/-- The sink holds the records of a stream, with the values that have been accepted; behind them
are the records that wait, without values, and then comes what the encoder writes next. -/
structure Sound (limits : Limits) (x : Delivery) (header : Entry) (entries more : List Entry)
    (s : Grammar.Scope) : Prop where
  live : Encoder.Live limits x.session.encoder
  delivered : Grammar.Records limits .start x.sink (header :: entries) s
  headed : header.record.kind = .header
  values : Entry.values (header :: entries) = x.accepted
  waiting : Grammar.Records limits s x.session.waiting more x.session.encoder.scope
  valueless : Entry.values more = []

variable {limits : Limits} {x : Delivery} {header : Entry} {entries more : List Entry}
  {s : Grammar.Scope} {call : Call}

theorem sound_start (limits : Limits) (options : EncodeOptions) :
    ∃ header entries s, Sound limits (start options) header entries [] s := by
  obtain ⟨header, rest, hheader, hframes⟩ := Encoder.frames_start limits options
  exact ⟨header, rest, _, Encoder.live_start limits options, hframes.records, hheader,
    hframes.values, .nil, rfl⟩

/-- The encoder stands behind what was delivered and what waits. -/
theorem Sound.position (h : Sound limits x header entries more s) :
    x.session.encoder.position = x.sink.length + x.session.waiting.length := by
  have hsink : s.offset = 0 + x.sink.length := h.delivered.offset_eq
  have hwaiting : x.session.encoder.position = s.offset + x.session.waiting.length :=
    h.waiting.offset_eq
  omega

/-- Every call that a reader's limits admit keeps a delivery sound.  A call that succeeds moves what
waits into the sink, with the new records behind it; one that fails leaves the sink alone and adds
to what waits. -/
theorem Sound.step (h : Sound limits x header entries more s)
    (hadmitted : call.Admitted limits x.session.encoder) (hdistinct : call.Distinct)
    (hlength : (x.step call).sink.length < UInt64.size) :
    ∃ entries more s, Sound limits (x.step call) header entries more s := by
  have hposition := h.position
  have hlive := Call.live_emit h.live hadmitted
  obtain ⟨new, hframes⟩ := Call.frames_emit h.live hadmitted fun hok => by
    change (x.sink ++ (call.send x.session).bytes).length < _ at hlength
    rw [Call.send_of_ok hok, List.length_append, List.length_append] at hlength
    omega
  rw [Call.merge_accepted hdistinct] at hframes
  -- Behind what waits come the records of this call; whether they are delivered is not said yet.
  have hbehind := h.waiting.append hframes.records
  have hvalues : Entry.values (more ++ new) =
      call.accepted (call.emit x.session.encoder).outcome := by
    rw [Entry.values_append, h.valueless, List.nil_append, hframes.values]
  cases houtcome : (call.emit x.session.encoder).outcome with
  | ok u =>
    have hsend := Call.send_of_ok houtcome
    rw [houtcome] at hvalues
    refine ⟨entries ++ (more ++ new), [], (call.emit x.session.encoder).state.scope, ?_⟩
    unfold Delivery.step
    rw [hsend]
    have hsink := h.delivered.append hbehind
    refine ⟨hlive, hsink, h.headed, ?_, .nil, rfl⟩
    rw [← List.cons_append, Entry.values_append, h.values, hvalues]
  | error fault =>
    have hsend := Call.send_of_error houtcome
    -- Nothing is accepted, so the new records have no value, and they may wait.
    have hnone : call.accepted (.error fault) = [] := by
      cases call with
      | put v => rfl
      | clear => rfl
    rw [houtcome, hnone] at hvalues
    refine ⟨entries, more ++ new, s, ?_⟩
    unfold Delivery.step
    rw [hsend, hnone, List.append_nil, List.append_nil]
    exact ⟨hlive, h.delivered, h.headed, h.values, hbehind, hvalues⟩

/-- What the sink has been given stays. -/
theorem sink_run (calls : List Call) : ∀ x : Delivery, x.sink <+: (x.run calls).sink := by
  induction calls with
  | nil =>
    intro x
    exact List.prefix_rfl
  | cons call rest ih =>
    intro x
    exact (List.prefix_append x.sink _).trans (ih (x.step call))

/-- As long as 64 bits hold the length of what the sink is given, a delivery stays sound whatever is
asked.  What the sink was given stays, so the length at the end bounds it at each call. -/
theorem sound_run (calls : List Call) :
    ∀ {x : Delivery} {entries more : List Entry} {s : Grammar.Scope},
      Sound limits x header entries more s →
      Call.AllAdmitted limits x.session.encoder calls → (∀ call ∈ calls, call.Distinct) →
      (x.run calls).sink.length < UInt64.size →
      ∃ entries more s, Sound limits (x.run calls) header entries more s := by
  induction calls with
  | nil =>
    intro x entries more s h _ _ _
    exact ⟨entries, more, s, h⟩
  | cons call rest ih =>
    intro x entries more s h hadmitted hdistinct hlength
    obtain ⟨hcall, hrest⟩ := hadmitted
    change ((x.step call).run rest).sink.length < _ at hlength
    have hsink := (sink_run rest (x.step call)).length_le
    obtain ⟨_, _, _, hstep⟩ := h.step hcall (hdistinct call (List.mem_cons_self ..)) (by omega)
    rw [← Call.encoder_send] at hrest
    exact ih hstep hrest (fun call hmem => hdistinct call (List.mem_cons_of_mem _ hmem)) hlength

/-- The sink of a sound delivery holds the values that have been accepted. -/
theorem Sound.values_eq (h : Sound limits x header entries more s) :
    decodeValues x.sink limits = .ok x.accepted := by
  have hstream := Grammar.Stream.mk h.delivered (Grammar.headed_cons.mpr h.headed)
  rw [Decoder.decodeValues_of_stream hstream, h.values]

/-! ## 3. The round trip -/

/-- **The round trip.**  Whatever is asked in a session whose sink never refuses, calls that fail
included, the session can be finished, and the values decoded from the sink are exactly those that
were accepted, in their order, as long as a reader's limits admit what is asked and 64 bits hold the
length of what the sink is given. -/
theorem decodeValues_run (options : EncodeOptions) (limits : Limits) (calls : List Call)
    (hdistinct : ∀ call ∈ calls, call.Distinct)
    (hadmitted : Call.AllAdmitted limits (start options).session.encoder calls)
    (hlength : ((start options).run calls).sink.length < UInt64.size) :
    ((start options).run calls).session.finish .accepting =
        .ok ((start options).run calls).session.encoder.stats ∧
      decodeValues ((start options).run calls).sink limits =
        .ok ((start options).run calls).accepted := by
  obtain ⟨header, _, _, hstart⟩ := sound_start limits options
  obtain ⟨_, _, _, hrun⟩ := sound_run calls hstart hadmitted hdistinct hlength
  exact ⟨rfl, hrun.values_eq⟩

/-- A value that nests too deep leaves a new epoch and a pending string behind. -/
theorem decodeValues_run_deep :
    let options : EncodeOptions := { clearThreshold := some 1, maxNestingDepth := 1 }
    let flat := Json.object [("k", .number (.integer (.ofWord 7)))]
    let calls := [Call.put flat, Call.put (.object [("d", .array [.null])]), Call.put flat]
    (∀ call ∈ calls, call.Distinct) ∧
      Call.AllAdmitted {} (start options).session.encoder calls ∧
      ((start options).run calls).sink.length < UInt64.size ∧
      ((start options).run calls).accepted.length = 2 ∧
      decodeValues ((start options).run calls).sink {} =
        .ok ((start options).run calls).accepted := by
  intro options flat calls
  have hshort : ∀ key, (Utf8.encode key).length ≤ 1 → Encoder.Short {} [key] := by
    intro key hkey s hs
    obtain rfl := List.mem_singleton.mp hs
    exact Nat.le_trans hkey (by decide)
  have hdistinct : ∀ call ∈ calls, call.Distinct := by
    intro call hcall
    simp only [calls, List.mem_cons, List.not_mem_nil, or_false] at hcall
    rcases hcall with rfl | rfl | rfl <;>
      simp [Call.Distinct, Json.Distinct, Json.DistinctMembers, Json.DistinctItems, flat]
  have hadmitted : Call.AllAdmitted {} (start options).session.encoder calls :=
    ⟨⟨hshort "k" (by decide), fun _ => ⟨by decide, by decide +kernel, by decide +kernel⟩⟩,
      ⟨hshort "d" (by decide), fun _ => ⟨by decide, by decide +kernel, by decide +kernel⟩⟩,
      ⟨hshort "k" (by decide), fun _ => ⟨by decide, by decide +kernel, by decide +kernel⟩⟩, trivial⟩
  have hlength : ((start options).run calls).sink.length < UInt64.size := by decide +kernel
  have haccepted : ((start options).run calls).accepted.length = 2 := by decide +kernel
  exact ⟨hdistinct, hadmitted, hlength, haccepted,
    (decodeValues_run options {} calls hdistinct hadmitted hlength).2⟩

end Delivery

end DictLog
