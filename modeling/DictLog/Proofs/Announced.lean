/-
# New strings are announced right in front of where they are needed

An encoder that accepts every value has no strings pending between two calls (`Settled`).  What it
emits is a header and then records of which each `add` record announces some strings and is followed
by the `value` record that needs them (`Threaded`, `threaded_run`), and this is how a reader finds
them (`Records.threaded`).
-/
import DictLog.Proofs.Framing
import DictLog.Proofs.Needed

namespace DictLog

/-! ## 1. Records that are threaded -/

namespace Wire

/-- The payload has a meaning in dictionaries of that size only, and in larger ones. -/
def Needs (size : Nat) (payload : List UInt8) : Prop :=
  ∀ {limits : Limits} {dictionary : List String} {room : Nat} {v : Json},
    Grammar.Value limits dictionary room payload v → size ≤ dictionary.length

/-- The kind of a record. -/
def Draft.kind : Draft → RecordKind
  | header => .header
  | clear => .clear
  | add _ _ => .add
  | value _ _ => .value

/-- How many strings there are in the dictionary behind a record. -/
def Draft.sizeAfter (size : Nat) : Draft → Nat
  | header => size
  | clear => 0
  | add _ strings => size + strings.length
  | value _ _ => size

/-- Records behind a header, where there are so many strings in the dictionary.  An `add` record
announces at least one string, and the next record is a value that needs all strings up to here. -/
inductive Threaded : Nat → List Draft → Prop
  | nil {size : Nat} : Threaded size []
  | clear {size : Nat} {drafts : List Draft} (tail : Threaded 0 drafts) :
      Threaded size (.clear :: drafts)
  | value {size backlink : Nat} {payload : List UInt8} {drafts : List Draft}
      (tail : Threaded size drafts) : Threaded size (.value backlink payload :: drafts)
  | add {size backlink link : Nat} {strings : List String} {payload : List UInt8}
      {drafts : List Draft} (some : strings ≠ []) (needs : Needs (size + strings.length) payload)
      (tail : Threaded (size + strings.length) (.value link payload :: drafts)) :
      Threaded size (.add backlink strings :: .value link payload :: drafts)

variable {size : Nat} {draft : Draft} {drafts : List Draft}

/-- What is behind the first record is threaded from the dictionary that it leaves. -/
theorem Threaded.tail (h : Threaded size (draft :: drafts)) :
    Threaded (draft.sizeAfter size) drafts := by
  cases h with
  | clear tail => exact tail
  | value tail => exact tail
  | add _ _ tail => exact tail

theorem Threaded.ne_header (h : Threaded size (draft :: drafts)) : draft.kind ≠ .header := by
  cases h <;> simp [Draft.kind]

/-- Behind an `add` record stands the value that needs its strings. -/
theorem Threaded.of_add (h : Threaded size (draft :: drafts)) (hkind : draft.kind = .add) :
    size < draft.sizeAfter size ∧ ∃ link payload more,
      drafts = .value link payload :: more ∧ Needs (draft.sizeAfter size) payload := by
  cases h with
  | add some needs _ =>
    have hpos := List.length_pos_iff.mpr some
    exact ⟨by simp only [Draft.sizeAfter]; omega, _, _, _, rfl, needs⟩
  | _ => cases hkind

end Wire

/-! ## 2. What an encoder emits is threaded -/

namespace Encoder

open Wire

variable {e : Encoder} {m : Emission Encoder} {next : Encoder → Emission Encoder} {v : Json}
  {drafts more : List Draft}

/-- An encoder that has begun a stream, and has announced all its strings. -/
structure Settled (e : Encoder) : Prop where
  started : e.started = true
  consistent : Consistent e
  announced : e.lexicon.announced = e.lexicon.size

/-- What was emitted leaves a settled encoder behind, with as many strings in its lexicon as there
are in the dictionary then, and goes in front of records that are threaded from there on.

The last field is stated over all continuations, since an `add` record is threaded only together
with the record behind it. -/
structure Threads (e : Encoder) (m : Emission Encoder) (drafts : List Draft) : Prop where
  bytes : m.bytes = drafts.flatMap Draft.bytes
  settled : Settled m.state
  size : m.state.lexicon.size = drafts.foldl Draft.sizeAfter e.lexicon.size
  threaded : ∀ rest, Threaded m.state.lexicon.size rest →
    Threaded e.lexicon.size (drafts ++ rest)

/-- Emissions that are threaded are threaded one after the other. -/
theorem Threads.andThen (h : Threads e m drafts) (hok : m.outcome = .ok ())
    (k : Threads m.state (next m.state) more) : Threads e (m.andThen next) (drafts ++ more) := by
  rw [Emission.andThen_of_ok hok]
  refine ⟨?_, k.settled, ?_, fun rest hrest => ?_⟩
  · rw [List.flatMap_append, ← h.bytes, ← k.bytes]
  · rw [List.foldl_append, ← h.size]
    exact k.size
  · rw [List.append_assoc]
    exact h.threaded _ (k.threaded rest hrest)

/-- Clearing emits its record, whatever is in the dictionary. -/
theorem threads_clear (hstarted : e.started = true) (h : Consistent e) :
    Threads e e.clear [.clear] where
  bytes := (List.flatMap_singleton ..).symm
  settled := ⟨hstarted, h.clear, rfl⟩
  size := rfl
  threaded _ hrest := .clear hrest

/-- An epoch that is over is ended by a `clear` record, and one that goes on by none. -/
theorem threads_renew (h : Settled e) : ∃ drafts, Threads e e.renew drafts := by
  rw [renew]
  split
  · exact ⟨_, threads_clear h.started h.consistent⟩
  · exact ⟨[], rfl, h, rfl, fun _ hrest => hrest⟩

/-- Where the lexicon has grown, the payload needs all of it. -/
theorem needs_payload (hok : (e.payload v).outcome = .ok ())
    (hgrown : e.lexicon.size < (e.seen v).lexicon.size) :
    Needs (e.seen v).lexicon.size (e.payload v).bytes := by
  intro limits dictionary room u h
  have hcovers := Payload.covers_write _ v e.lexicon (x := []) (y := []) hok h rfl
  have hsize : (e.seen v).lexicon.size ≤ max e.lexicon.size dictionary.length := hcovers.size
  omega

/-- The strings that are pending are announced in one `add` record. -/
theorem bytes_announce (e : Encoder) :
    e.lexicon.announced < e.lexicon.size ∧
        e.announce.bytes = Wire.add e.backlink e.lexicon.pending ∨
      e.lexicon.size ≤ e.lexicon.announced ∧ e.announce.bytes = [] := by
  rw [announce]
  split
  · exact .inl ⟨of_decide_eq_true ‹_›, rfl⟩
  · exact .inr ⟨Nat.not_lt.mp (of_decide_eq_false (Bool.not_eq_true _ ▸ ‹_›)), rfl⟩

theorem started_announce (e : Encoder) : e.announce.state.started = e.started := by
  rw [announce]
  split <;> rfl

/-- A value is accepted if its payload can be written. -/
theorem putValue_of_ok (hok : (putValue v e).outcome = .ok ()) :
    (e.payload v).outcome = .ok () ∧
      putValue v e = (e.seen v).announce.andThen (emitValue (e.payload v).bytes) := by
  rw [putValue_eq] at hok ⊢
  cases hpayload : (e.payload v).outcome with
  | ok _ => exact ⟨rfl, rfl⟩
  | error fault =>
    rw [hpayload] at hok
    cases hok

/-- A value that is accepted, in its epoch: the strings that it needs, if any are new, and then its
record. -/
theorem threads_putValue (h : Settled e) (hok : (putValue v e).outcome = .ok ()) :
    ∃ drafts, Threads e (putValue v e) drafts := by
  obtain ⟨hpayload, hput⟩ := putValue_of_ok hok
  have hconsistent := h.consistent.putValue v
  rw [hput, Emission.andThen_of_ok (outcome_announce _)] at hconsistent ⊢
  have hseen := h.consistent.seen v
  have hsize := size_announce hseen
  have hold : (e.seen v).lexicon.announced = e.lexicon.size := by
    rw [announced_seen, h.announced]
  have hcount := length_pending hseen.announced
  rw [hold] at hcount
  have hsettled : Settled (emitValue (e.payload v).bytes (e.seen v).announce.state).state :=
    ⟨(started_announce _).trans h.started, hconsistent,
      (lexicon_announce hseen).2.trans hsize.symm⟩
  have hrecord : (emitValue (e.payload v).bytes (e.seen v).announce.state).bytes =
      (Draft.value (e.seen v).announce.state.backlink (e.payload v).bytes).bytes := rfl
  -- Either strings are announced, and the payload needs them all, or the lexicon has not grown.
  rcases bytes_announce (e.seen v) with ⟨hpending, hbytes⟩ | ⟨hnone, hbytes⟩
  · rw [hold] at hpending
    refine ⟨[.add (e.seen v).backlink (e.seen v).lexicon.pending,
      .value (e.seen v).announce.state.backlink (e.payload v).bytes], ?_, hsettled,
        hsize.trans hcount.symm, fun rest hrest => .add ?_ ?_ (.value ?_)⟩
    · rw [hbytes, hrecord, List.flatMap_cons, List.flatMap_singleton]
      rfl
    · exact List.ne_nil_of_length_pos (by omega)
    · rw [hcount]
      exact needs_payload hpayload hpending
    · rw [hcount, ← hsize]
      exact hrest
  · have hsame : e.lexicon.size = (e.seen v).lexicon.size := by omega
    refine ⟨[.value (e.seen v).announce.state.backlink (e.payload v).bytes], ?_, hsettled,
      hsize.trans hsame.symm, fun rest hrest => .value ?_⟩
    · rw [hbytes, hrecord, List.flatMap_singleton]
      rfl
    · rw [hsame, ← hsize]
      exact hrest

end Encoder

namespace Call

open Wire Encoder

/-- Calls one after the other, each of which an encoder carries out. -/
def AllAccepted (e : Encoder) : List Call → Prop
  | [] => True
  | call :: rest => (call.emit e).outcome = .ok () ∧ AllAccepted (call.emit e).state rest

/-- What comes of a call that is carried out.  A value may come behind the `clear` record of an epoch
that is over; the two are threaded one after the other. -/
theorem threads_emit {e : Encoder} {call : Call} (h : Settled e)
    (hok : (call.emit e).outcome = .ok ()) : ∃ drafts, Threads e (call.emit e) drafts := by
  cases call with
  | clear => exact ⟨_, threads_clear h.started h.consistent⟩
  | put v =>
    have hput : (Call.put v).emit e = e.renew.andThen (Encoder.putValue v) :=
      Encoder.put_eq h.started v
    rw [hput] at hok ⊢
    obtain ⟨hrenew, hvalue⟩ := Emission.outcome_andThen.mp hok
    obtain ⟨first, hfirst⟩ := threads_renew h
    obtain ⟨second, hsecond⟩ := threads_putValue hfirst.settled hvalue
    exact ⟨_, hfirst.andThen hrenew hsecond⟩

end Call

namespace Output

open Wire Encoder

/-- What comes of calls that are all carried out is threaded, by induction on the calls. -/
theorem threaded_run (calls : List Call) : ∀ {out : Output}, Settled out.encoder →
    Call.AllAccepted out.encoder calls → ∃ drafts,
      (out.run calls).bytes = out.bytes ++ drafts.flatMap Draft.bytes ∧
        Threads out.encoder ⟨drafts.flatMap Draft.bytes, (out.run calls).encoder, .ok ()⟩ drafts := by
  induction calls with
  | nil =>
    intro out h _
    exact ⟨[], (List.append_nil _).symm, rfl, h, rfl, fun _ hrest => hrest⟩
  | cons call rest ih =>
    intro out h haccepted
    obtain ⟨hok, hrest⟩ := haccepted
    obtain ⟨first, hfirst⟩ := Call.threads_emit h hok
    obtain ⟨more, hbytes, hmore⟩ := @ih (out.step call) hfirst.settled hrest
    refine ⟨first ++ more, ?_, rfl, hmore.settled, ?_, fun rest hrest => ?_⟩
    · show ((out.step call).run rest).bytes = _
      rw [hbytes, List.flatMap_append, ← hfirst.bytes, ← List.append_assoc]
      rfl
    · rw [List.foldl_append, ← hfirst.size]
      exact hmore.size
    · rw [List.append_assoc]
      exact hfirst.threaded _ (hmore.threaded rest hrest)

/-- Behind the header and the first `clear` record, an encoder is settled. -/
theorem settled_start (options : EncodeOptions) : Settled (start options).encoder :=
  ⟨rfl, consistent_start options, rfl⟩

/-- A stream in which every value was accepted is a header and records that are threaded. -/
theorem threaded_start (options : EncodeOptions) (calls : List Call)
    (h : Call.AllAccepted (start options).encoder calls) : ∃ drafts,
      ((start options).run calls).bytes = (Draft.header :: drafts).flatMap Draft.bytes ∧
        Threaded 0 drafts := by
  obtain ⟨drafts, hbytes, hthreads⟩ := threaded_run calls (settled_start options) h
  have hdrafts := hthreads.threaded [] .nil
  rw [List.append_nil] at hdrafts
  refine ⟨.clear :: drafts, ?_, .clear hdrafts⟩
  rw [hbytes, List.flatMap_cons, List.flatMap_cons, ← List.append_assoc]
  rfl

end Output

/-! ## 3. Threaded records as they are read -/

namespace Grammar

open Wire

variable {limits : Limits} {s t : Scope} {bs x y : List UInt8} {entry : Entry}
  {entries : List Entry} {after found strings : List String} {draft : Draft} {drafts : List Draft}

/-- Reading the literals of some strings gives as many strings, whatever limit they are read under.
A literal says how long it is, so there is no other way to cut the bytes. -/
theorem Sequence.length_eq (h : Sequence (StringLiteral limits) bs found) :
    ∀ {strings : List String}, bs = strings.flatMap Wire.stringLiteral →
      found.length = strings.length := by
  induction h with
  | nil =>
    intro strings heq
    cases strings with
    | nil => rfl
    | cons s strings => cases heq
  | @cons bs cs text texts head tail ih =>
    intro strings heq
    cases strings with
    | nil =>
      cases head
      cases heq
    | cons s strings =>
      rw [List.flatMap_cons] at heq
      obtain rfl := head.unique heq
      rw [List.length_cons, List.length_cons, ih (List.append_cancel_left heq)]

/-- A record that stands where one was written is of the same kind, and there are as many strings in
the dictionary behind it. -/
theorem Record.of_draft (h : Record limits s bs entry after) (heq : bs ++ x = draft.bytes ++ y) :
    bs = draft.bytes ∧ entry.record.kind = draft.kind ∧
      after.length = draft.sizeAfter s.dictionary.length := by
  obtain ⟨hbytes, -⟩ := h.unique heq
  refine ⟨hbytes, ?_⟩
  cases h with
  | header _ =>
    cases draft with
    | header => exact ⟨rfl, rfl⟩
    | _ => exact absurd (List.cons.inj hbytes).1 (by decide)
  | clear =>
    cases draft with
    | clear => exact ⟨rfl, rfl⟩
    | _ => exact absurd (List.cons.inj hbytes).1 (by decide)
  | value _ _ _ _ _ =>
    cases draft with
    | value _ _ => exact ⟨rfl, rfl⟩
    | _ => exact absurd (List.cons.inj hbytes).1 (by decide)
  | add spells _ literals _ =>
    cases draft with
    | add backlink strings =>
      simp only [Draft.bytes, Wire.add, List.cons_append, List.append_assoc, List.cons.injEq,
        true_and] at hbytes
      obtain ⟨rfl, -⟩ := spells.groups.unique (Varint.groups_encode _) hbytes
      have hliterals := List.append_cancel_right (List.append_cancel_left hbytes)
      refine ⟨rfl, ?_⟩
      rw [List.length_append, literals.length_eq hliterals]
      rfl
    | _ => exact absurd (List.cons.inj hbytes).1 (by decide)

/-- The first of some records that were written. -/
theorem Record.first_of_drafts (h : Record limits s bs entry after)
    (heq : bs ++ x = drafts.flatMap Draft.bytes) :
    ∃ draft more, drafts = draft :: more ∧ bs = draft.bytes ∧ x = more.flatMap Draft.bytes ∧
      entry.record.kind = draft.kind ∧ after.length = draft.sizeAfter s.dictionary.length := by
  cases drafts with
  | nil => exact absurd heq (List.append_ne_nil_of_left_ne_nil h.ne_nil x)
  | cons draft more =>
    rw [List.flatMap_cons] at heq
    obtain ⟨rfl, hkind, hsize⟩ := h.of_draft heq
    exact ⟨draft, more, rfl, rfl, List.append_cancel_left heq, hkind, hsize⟩

/-- The payload of a record that was written is within its limit, and has a meaning in the
dictionary in front of it. -/
theorem Record.value_of_draft {link : Nat} {payload : List UInt8}
    (h : Record limits s (Draft.value link payload).bytes entry after) :
    payload.length ≤ limits.maxPayloadLength ∧
      ∃ v, Value limits s.dictionary limits.maxNestingDepth payload v := by
  generalize hbytes : (Draft.value link payload).bytes = bs at h
  cases h with
  | value spells _ length limit denotes =>
    simp only [Draft.bytes, Wire.value, List.cons_append, List.append_assoc, List.cons.injEq,
      true_and] at hbytes
    obtain ⟨rfl, -⟩ := spells.groups.unique (Varint.groups_encode _) hbytes.symm
    have hrest := (List.append_cancel_left hbytes).symm
    obtain ⟨rfl, -⟩ := length.groups.unique (Varint.groups_encode _) hrest
    obtain rfl := List.append_cancel_right (List.append_cancel_left hrest)
    exact ⟨limit, _, denotes⟩
  | _ => exact absurd (List.cons.inj hbytes).1 (by decide)

/-- Records in front of threaded ones leave threaded ones behind, and the dictionary has the size
that was announced up to there. -/
theorem Records.threaded (h : Records limits s bs entries t) : ∀ {drafts : List Draft},
    Threaded s.dictionary.length drafts → bs ++ x = drafts.flatMap Draft.bytes →
      ∃ behind, x = behind.flatMap Draft.bytes ∧ Threaded t.dictionary.length behind := by
  induction h with
  | nil =>
    intro drafts hthreaded heq
    exact ⟨drafts, heq, hthreaded⟩
  | @cons s t bs cs entry entries after head _ ih =>
    intro drafts hthreaded heq
    rw [List.append_assoc] at heq
    obtain ⟨draft, more, rfl, -, hrest, -, hsize⟩ := head.first_of_drafts heq
    exact ih (hsize ▸ hthreaded.tail) hrest

end Grammar

end DictLog
