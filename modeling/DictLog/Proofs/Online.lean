/-
# Decoding is online

A decoder decides from the bytes it has taken, and from nothing else.  So on a longer input it
returns the same records first, and if it failed it fails in the same way, unless its input was
merely over; and where the input breaks off instead of ending, the break is reported in place of
the end, never taken for one (`records_online`).

This holds for every lawful feed, and so for bytes that arrive in pieces.
-/
import DictLog.Proofs.Buffering
import DictLog.Proofs.Parallel

namespace DictLog

open Step

/-- The feed gives these bytes from the start on, and then ends so. -/
def LawfulFeed.Gives {σ : Type} [Feed σ] [LawfulFeed σ] (feed : σ) (bytes : List UInt8)
    (ending : Ending) : Prop :=
  tape feed = .holding bytes 0 ending

/-- What a run comes to whose input breaks off where it would have been over. -/
def Run.brokenOff (cause : IoFault) : Option Fault → Fault
  | none => .io cause
  | some .truncated => .io cause
  | some fault => fault

/-- What was decided before the input was over stays as it is. -/
theorem Run.brokenOff_of_ne {cause : IoFault} {fault : Fault} (h : fault ≠ .truncated) :
    Run.brokenOff cause (some fault) = fault := by
  cases fault <;> first | rfl | exact absurd rfl h

namespace Decoder

variable {σ τ : Type} [Feed σ] [Feed τ] [LawfulFeed σ] [LawfulFeed τ] {w : Leeway}
  {cause : IoFault} {payloads : Payloads} {entries : List Entry} {fault : Fault}
  {d d' final : Decoder σ} {e : Decoder τ}

/-! ## 1. A run and another that goes on like it -/

theorem beside_ofFeed {s : σ} {t : τ}
    (h : Tape.GoesOn w 0 (LawfulFeed.tape s) (LawfulFeed.tape t)) (limits : Limits) :
    Beside (.lawful σ τ w 0) Eq (ofFeed s limits) (ofFeed t limits) :=
  ⟨⟨h, rfl, rfl⟩, rfl, rfl, rfl, rfl⟩

/-- Neither decoder has a head start, so that offsets are the same in both. -/
theorem map_shift_zero (entries : List Entry) : entries.map (Entry.shift 0) = entries :=
  List.map_id entries

/-- The other run has the same records first.  It may go on behind them. -/
theorem Beside.yields (h : Beside (.lawful σ τ w 0) Eq d e)
    (hrun : Run.Yields (nextRecord payloads) d entries d') :
    ∃ e', Run.Yields (nextRecord payloads) e entries e' := by
  obtain ⟨e', hyields, -⟩ := hrun.agree (fun _ _ hde => agree_nextRecord payloads hde) h
  exact ⟨e', map_shift_zero entries ▸ hyields⟩

/-- A fault that is no end of the input is met again, for what gave rise to it was on the tape. -/
theorem Beside.fails (h : Beside (.lawful σ τ w 0) Eq d e)
    (hrun : Run.Fails (nextRecord payloads) d entries fault final) (hfault : fault ≠ .truncated) :
    ∃ final', Run.Fails (nextRecord payloads) e entries fault final' := by
  rcases hrun.agree (fun _ _ hde => agree_nextRecord payloads hde) h with
    ⟨-, final', hfails⟩ | ⟨htruncated, -⟩
  · exact ⟨final', map_shift_zero entries ▸ Fault.shift_zero fault ▸ hfails⟩
  · exact absurd htruncated hfault

/-- Where the input was over, whether between records or inside one, the other run meets the break.
It is a fault in both places, so a break is never taken for an end. -/
theorem Beside.breaks (h : Beside (.lawful σ τ (.failing cause) 0) Eq d e)
    (hrun : Run.Ends (nextRecord payloads) d entries final ∨
      Run.Fails (nextRecord payloads) d entries .truncated final) :
    ∃ final', Run.Fails (nextRecord payloads) e entries (.io cause) final' := by
  have hallowed : ∃ e', Run.Yields (nextRecord payloads) e (entries.map (Entry.shift 0)) e' ∧
      (Leeway.failing cause).Allows (nextRecord payloads e') := by
    rcases hrun with hends | hfails
    · rcases hends.agree (fun _ _ hde => agree_nextRecord payloads hde) h with
        ⟨hnothing, -⟩ | hallowed
      · cases hnothing
      · exact hallowed
    · rcases hfails.agree (fun _ _ hde => agree_nextRecord payloads hde) h with
        ⟨hnothing, -⟩ | ⟨-, hallowed⟩
      · cases hnothing rfl
      · exact hallowed
  obtain ⟨e', hyields, final', hfinal⟩ := hallowed
  exact ⟨final', e', map_shift_zero entries ▸ hyields, hfinal⟩

/-! ## 2. All records of both -/

section Records

variable {s : σ} {t : τ} {limits : Limits}

/-- All records of the one are the first of the other. -/
theorem prefix_records (h : Tape.GoesOn w 0 (LawfulFeed.tape s) (LawfulFeed.tape t)) :
    ((ofFeed s limits).records payloads).items <+: ((ofFeed t limits).records payloads).items := by
  have hd : (ofFeed s limits).lookahead = none := rfl
  obtain ⟨d', hyields⟩ :=
    Run.yields_of_ask (nextRecord_shortens payloads) hd (Nat.lt_succ_self _)
  obtain ⟨e', hyields'⟩ := (beside_ofFeed h limits).yields hyields
  exact prefix_of_yields rfl hyields'

/-- A fault that is no end of the input leaves nothing open: records and fault are the same. -/
theorem records_decided (h : Tape.GoesOn w 0 (LawfulFeed.tape s) (LawfulFeed.tape t))
    (hfailure : ((ofFeed s limits).records payloads).failure = some fault)
    (hfault : fault ≠ .truncated) :
    ((ofFeed t limits).records payloads).items = ((ofFeed s limits).records payloads).items ∧
      ((ofFeed t limits).records payloads).failure = some fault := by
  have hfails := Run.fails_of_ask (nextRecord_shortens payloads) rfl (Nat.lt_succ_self _) hfailure
  obtain ⟨final', hfails'⟩ := (beside_ofFeed h limits).fails hfails hfault
  rw [records_of_fails rfl hfails']
  exact ⟨rfl, rfl⟩

/-- Where the input was over, the break takes the place of the end.  It does so as well where the
input was over inside a record, which is truncated if the input ends cleanly. -/
theorem records_broken
    (h : Tape.GoesOn (.failing cause) 0 (LawfulFeed.tape s) (LawfulFeed.tape t))
    (hover : ((ofFeed s limits).records payloads).failure = none ∨
      ((ofFeed s limits).records payloads).failure = some .truncated) :
    ((ofFeed t limits).records payloads).items = ((ofFeed s limits).records payloads).items ∧
      ((ofFeed t limits).records payloads).failure = some (.io cause) := by
  have hshort := nextRecord_shortens (σ := σ) payloads
  obtain ⟨final', hfails'⟩ := (beside_ofFeed h limits).breaks (hover.imp
    (Run.ends_of_ask hshort rfl (Nat.lt_succ_self _))
    (Run.fails_of_ask hshort rfl (Nat.lt_succ_self _)))
  rw [records_of_fails rfl hfails']
  exact ⟨rfl, rfl⟩

end Records

/-! ## 3. Three runs -/

/-- **Decoding is online.**  The records of some bytes, compared with those of the same bytes and
more, and with those of the same bytes and a break: a fault that is no end of the input is decided,
and so are the records that were returned; the break takes the place of the end.  The three inputs
may come from different feeds, each in its own pieces. -/
theorem records_online {υ : Type} [Feed υ] [LawfulFeed υ] (limits : Limits) (payloads : Payloads)
    (p t : List UInt8) (ending : Ending) (cause : IoFault) (plain : σ) (longer : τ) (broken : υ)
    (hplain : LawfulFeed.Gives plain p .clean) (hlonger : LawfulFeed.Gives longer (p ++ t) ending)
    (hbroken : LawfulFeed.Gives broken p (.failing cause)) :
    let run := (ofFeed plain limits).records payloads
    let onward := (ofFeed longer limits).records payloads
    let stopped := (ofFeed broken limits).records payloads
    (∀ fault, run.failure = some fault → fault ≠ .truncated →
      onward.items = run.items ∧ onward.failure = some fault) ∧
    (run.failure = none ∨ run.failure = some .truncated → run.items <+: onward.items) ∧
    stopped.items = run.items ∧ stopped.failure = some (Run.brokenOff cause run.failure) := by
  intro run onward stopped
  have hmore : Tape.GoesOn .anything 0 (LawfulFeed.tape plain) (LawfulFeed.tape longer) := by
    rw [hplain, hlonger]
    exact ⟨rfl, t, rfl, rfl⟩
  have hbreak : Tape.GoesOn (.failing cause) 0 (LawfulFeed.tape plain)
      (LawfulFeed.tape broken) := by
    rw [hplain, hbroken]
    exact ⟨rfl, [], (List.append_nil p).symm, rfl, rfl, rfl⟩
  refine ⟨fun fault hfault hne => records_decided hmore hfault hne, fun _ => prefix_records hmore,
    ?_⟩
  -- Either the input was over without a decision, so that the break is met, or there was a fault
  -- before, which is met again.
  by_cases hover : run.failure = none ∨ run.failure = some .truncated
  · have hstopped := records_broken hbreak hover
    rcases hover with hfailure | hfailure <;> rw [hfailure] <;> exact hstopped
  · cases hfailure : run.failure with
    | none => exact absurd (.inl hfailure) hover
    | some fault =>
      have hne : fault ≠ .truncated := by
        rintro rfl
        exact hover (.inr hfailure)
      rw [Run.brokenOff_of_ne hne]
      exact records_decided hbreak hfailure hne

/-- A header and the head of a value, in two pieces: in front of more bytes the header is returned
too, and where the input breaks off, the break is reported. -/
theorem records_online_header :
    let p := [0x48, 0x49, 0x01, 0x45, 0x0A, 0x56, 0x05]
    let t := [0x01, 0x4E, 0x45, 0x0A]
    let plain := Buffered.ofArrivals [.interrupted, .chunk 0x48 [0x49, 0x01],
      .chunk 0x45 [0x0A, 0x56, 0x05]] .clean
    let longer := Tape.ofBytes (p ++ t)
    let broken : Tape := { rest := p, ending := .failing .notUtf8 }
    let run := (ofFeed plain {}).records .decoded
    let onward := (ofFeed longer {}).records .decoded
    let stopped := (ofFeed broken {}).records .decoded
    LawfulFeed.Gives plain p .clean ∧ LawfulFeed.Gives longer (p ++ t) .clean ∧
      LawfulFeed.Gives broken p (.failing .notUtf8) ∧
    run.items.length = 1 ∧ run.failure = some .truncated ∧ run.items <+: onward.items ∧
      stopped.items = run.items ∧ stopped.failure = some (.io .notUtf8) := by
  intro p t plain longer broken run onward stopped
  have hplain : LawfulFeed.Gives plain p .clean := rfl
  have hlonger : LawfulFeed.Gives longer (p ++ t) .clean := rfl
  have hbroken : LawfulFeed.Gives broken p (.failing .notUtf8) := rfl
  have hitems : run.items.length = 1 := by decide +kernel
  have hfailure : run.failure = some .truncated := by decide +kernel
  obtain ⟨-, hprefix, hsame, hstop⟩ := records_online {} .decoded p t .clean .notUtf8 plain longer
    broken hplain hlonger hbroken
  rw [show ((ofFeed plain {}).records .decoded).failure = _ from hfailure] at hstop
  exact ⟨hplain, hlonger, hbroken, hitems, hfailure, hprefix (.inr hfailure), hsame, hstop⟩

end Decoder

end DictLog
