/-
# How large a dictionary grows

With a threshold, an encoder begins a new epoch in front of a value exactly if its dictionary has
reached it, by what was refused as well.  So a value finds fewer strings than the threshold, or
none, and leaves no more than its own strings in addition (`size_seen_le`); that holds of every
encoder that there can be, since every call keeps its books (`Tidy`).

A reader is never ahead of the encoder: behind each record of a call, it has no more strings than
the call may leave (`Holds.most`).  That is said of the records that are emitted, and a reader finds
these one for one (`Records.size_of_drafts`).
-/
import Mathlib.Data.Finset.Card
import DictLog.Proofs.Withheld

namespace DictLog

open Wire

/-! ## 1. A value adds its own strings only -/

namespace Encoder

variable {options : EncodeOptions} {e : Encoder} {m : Emission Encoder} {v : Json} {n most : Nat}
  {next : Encoder → Emission Encoder} {drafts more : List Draft}

/-- The strings that a value leaves are those that were there, and some of its own.  A string that
occurs several times enters once, so distinct ones are counted. -/
theorem size_seen_le (hnodup : e.lexicon.entries.Nodup) (v : Json) :
    (e.seen v).lexicon.size ≤ e.lexicon.size + v.texts.toFinset.card := by
  obtain ⟨new, hnew⟩ := entries_seen e v
  have hall := Payload.nodup_write e.options.maxNestingDepth e.options.maxNestingDepth v hnodup
  change (e.seen v).lexicon.entries.Nodup at hall
  rw [← hnew, List.nodup_append'] at hall
  obtain ⟨-, hnodup', hdisjoint⟩ := hall
  -- A string that is new was not there before, so it is one of the value.
  have hsub : new.toFinset ⊆ v.texts.toFinset := by
    intro s hs
    rw [List.mem_toFinset] at hs ⊢
    have hor : ∀ t ∈ (e.seen v).lexicon.entries, t ∈ e.lexicon.entries ∨ t ∈ v.texts :=
      Payload.forall_entries_write (fun t ht => .inl ht) fun t ht => .inr ht
    exact (hor s (hnew ▸ List.mem_append_right _ hs)).resolve_left fun hold => hdisjoint hold hs
  have hcard := Finset.card_le_card hsub
  rw [List.toFinset_card_of_nodup hnodup'] at hcard
  rw [← Lexicon.length_entries, ← Lexicon.length_entries, ← hnew, List.length_append]
  omega

/-! ## 2. What every call keeps -/

/-- An encoder with these options, with its books in order, no string twice in its dictionary, and
none before it has begun a stream. -/
structure Tidy (options : EncodeOptions) (e : Encoder) : Prop where
  told : e.options = options
  consistent : Consistent e
  nodup : e.lexicon.entries.Nodup
  blank : e.started = false → e.lexicon.size = 0

theorem tidy_new (options : EncodeOptions) : Tidy options (new options) :=
  ⟨rfl, consistent_new options, List.nodup_nil, fun _ => rfl⟩

theorem Tidy.clear (h : Tidy options e) : Tidy options e.clear.state :=
  ⟨h.told, h.consistent.clear, List.nodup_nil, fun _ => rfl⟩

/-- Beginning a stream, unless it has begun. -/
theorem Tidy.start (h : Tidy options e) :
    Tidy options e.start.state ∧ e.start.state.started = true := by
  have hconsistent := h.consistent.start
  cases hstarted : e.started with
  | true =>
    rw [Encoder.start, if_pos hstarted] at hconsistent ⊢
    exact ⟨h, hstarted⟩
  | false =>
    rw [Encoder.start, if_neg (by simp [hstarted])] at hconsistent ⊢
    exact ⟨⟨h.told, hconsistent, List.nodup_nil, fun _ => rfl⟩, rfl⟩

theorem Tidy.renew (h : Tidy options e) : Tidy options e.renew.state := by
  rw [Encoder.renew]
  split
  · exact h.clear
  · exact h

/-- Whether or not a value is accepted, its strings stay. -/
theorem lexicon_putValue (h : Consistent e) (v : Json) :
    (putValue v e).state.lexicon.entries = (e.seen v).lexicon.entries := by
  rw [putValue_eq]
  split
  · rw [Emission.andThen_of_ok (outcome_announce _)]
    exact (lexicon_announce (h.seen v)).1
  · rfl

theorem started_putValue (v : Json) (e : Encoder) : (putValue v e).state.started = e.started := by
  rw [putValue_eq]
  split
  · rw [Emission.andThen_of_ok (outcome_announce _)]
    exact started_announce _
  · rfl

theorem options_putValue (v : Json) (e : Encoder) : (putValue v e).state.options = e.options := by
  rw [putValue_eq]
  split
  · rw [Emission.andThen_of_ok (outcome_announce _)]
    exact options_announce _
  · rfl

/-- A value, be it accepted or refused. -/
theorem Tidy.putValue (h : Tidy options e) (hstarted : e.started = true) (v : Json) :
    Tidy options (putValue v e).state where
  told := (options_putValue v e).trans h.told
  consistent := h.consistent.putValue v
  nodup := by
    rw [lexicon_putValue h.consistent]
    exact Payload.nodup_write _ _ v h.nodup
  blank hblank := by
    rw [started_putValue, hstarted] at hblank
    cases hblank

/-- The encoder that is about to encode a value: it has begun a stream, and an epoch if the
dictionary was full. -/
def ready (e : Encoder) : Encoder :=
  (e.start.andThen Encoder.renew).state

theorem outcome_ready (e : Encoder) : (e.start.andThen Encoder.renew).outcome = .ok () := by
  rw [Emission.andThen_of_ok (start_ok e).1]
  exact outcome_renew _

/-- Getting ready is beginning a stream, and then perhaps an epoch. -/
theorem ready_eq (e : Encoder) : e.ready = e.start.state.renew.state := by
  rw [ready, Emission.andThen_of_ok (start_ok e).1]

/-- Getting ready leaves the books in order, and a stream that has begun. -/
theorem Tidy.ready (h : Tidy options e) : Tidy options e.ready ∧ e.ready.started = true := by
  obtain ⟨htidy, hstarted⟩ := h.start
  rw [ready_eq]
  refine ⟨htidy.renew, ?_⟩
  rw [Encoder.renew]
  split <;> exact hstarted

/-- Putting a value is getting ready and writing it. -/
theorem put_ready (v : Json) (e : Encoder) :
    (e.put v).state = (putValue v e.ready).state ∧
      (e.put v).bytes = (e.start.andThen Encoder.renew).bytes ++ (putValue v e.ready).bytes := by
  rw [put, Emission.andThen_of_ok (outcome_ready e)]
  exact ⟨rfl, rfl⟩

/-- So it keeps the books. -/
theorem Tidy.put (h : Tidy options e) (v : Json) : Tidy options (e.put v).state := by
  obtain ⟨htidy, hstarted⟩ := h.ready
  rw [(put_ready v e).1]
  exact htidy.putValue hstarted v

/-- Beginning a stream leaves the dictionary as it was, which is empty then. -/
theorem Tidy.size_start (h : Tidy options e) : e.start.state.lexicon.size = e.lexicon.size := by
  cases hstarted : e.started with
  | true => rw [Encoder.start, if_pos hstarted]; rfl
  | false => rw [Encoder.start, if_neg (by simp [hstarted]), h.blank hstarted]; rfl

/-- So the dictionary is full then exactly if it has reached the threshold. -/
theorem Tidy.isFull_start (h : Tidy options e) (hn : options.clearThreshold = some n) :
    e.start.state.isFull = decide (n ≤ e.lexicon.size) := by
  rw [isFull, h.start.1.told, hn, h.size_start]

/-- A value finds fewer strings than the threshold, or none. -/
theorem Tidy.size_ready_lt (h : Tidy options e) (hn : options.clearThreshold = some n) :
    e.ready.lexicon.size < max n 1 := by
  rw [ready_eq, Encoder.renew, h.isFull_start hn]
  split
  case isTrue => exact Nat.lt_of_lt_of_le Nat.zero_lt_one (Nat.le_max_right ..)
  case isFalse hless =>
    have hsize : e.start.state.lexicon.size < n := by simpa [h.size_start] using hless
    exact Nat.lt_of_lt_of_le hsize (Nat.le_max_left ..)

/-- A value leaves no more than its own strings in addition to what it finds. -/
theorem Tidy.size_put_le (h : Tidy options e) (hn : options.clearThreshold = some n) (v : Json) :
    (e.ready.seen v).lexicon.size ≤ max n 1 - 1 + v.texts.toFinset.card := by
  have hready := h.size_ready_lt hn
  have hseen := size_seen_le h.ready.1.nodup v
  omega

/-! ## 3. Records, and how many strings each of them leaves -/

/-- What was emitted is these records, and behind each of them there are so many strings at most. -/
structure Holds (most : Nat) (e : Encoder) (m : Emission Encoder) (drafts : List Draft) : Prop where
  bytes : m.bytes = drafts.flatMap Draft.bytes
  announced : m.state.lexicon.announced = drafts.foldl Draft.sizeAfter e.lexicon.announced
  most : ∀ front behind, drafts = front ++ behind → front ≠ [] →
    front.foldl Draft.sizeAfter e.lexicon.announced ≤ most

theorem holds_skip (most : Nat) (e : Encoder) : Holds most e (.skip e) [] :=
  ⟨rfl, rfl, fun _ _ heq hne => absurd (List.append_eq_nil_iff.mp heq.symm).1 hne⟩

/-- Records behind others: those in front leave no more than they did, and what those behind them
leave is bounded from the state in between. -/
theorem Holds.andThen (h : Holds most e m drafts) (hok : m.outcome = .ok ())
    (k : Holds most m.state (next m.state) more) :
    Holds most e (m.andThen next) (drafts ++ more) := by
  rw [Emission.andThen_of_ok hok]
  refine ⟨?_, ?_, fun front behind heq hne => ?_⟩
  · rw [List.flatMap_append, ← h.bytes, ← k.bytes]
  · rw [List.foldl_append, ← h.announced]
    exact k.announced
  · -- A front of the whole ends among the later records, or among the first ones.
    rcases List.append_eq_append_iff.mp heq with ⟨others, rfl, hmore⟩ | ⟨others, hdrafts, -⟩
    · cases others with
      | nil =>
        rw [List.append_nil] at hne ⊢
        exact h.most drafts [] (List.append_nil _).symm hne
      | cons draft others =>
        rw [List.foldl_append, ← h.announced]
        exact k.most _ behind hmore (List.cons_ne_nil _ _)
    · exact h.most front others hdrafts hne

/-- One record. -/
theorem holds_single {draft : Draft} (hbytes : m.bytes = draft.bytes)
    (hannounced : m.state.lexicon.announced = draft.sizeAfter e.lexicon.announced)
    (hmost : m.state.lexicon.announced ≤ most) : Holds most e m [draft] := by
  refine ⟨by rw [hbytes, List.flatMap_singleton], hannounced, fun front behind heq hne => ?_⟩
  cases front with
  | nil => exact absurd rfl hne
  | cons first front =>
    obtain ⟨rfl, hnil⟩ := List.cons.inj heq
    obtain ⟨rfl, -⟩ := List.append_eq_nil_iff.mp hnil.symm
    rw [List.foldl_cons, List.foldl_nil, ← hannounced]
    exact hmost

theorem holds_clear (most : Nat) (e : Encoder) : Holds most e e.clear [.clear] :=
  holds_single rfl rfl (Nat.zero_le _)

/-- The records that begin a stream, unless it has begun. -/
def opening (e : Encoder) : List Draft :=
  if e.started then [] else [.header, .clear]

/-- The records that begin a stream, behind which there are no strings either. -/
theorem Tidy.holds_start (h : Tidy options e) (most : Nat) : Holds most e e.start e.opening := by
  unfold opening
  cases hstarted : e.started with
  | true =>
    rw [Encoder.start, if_pos hstarted]
    exact holds_skip most e
  | false =>
    have hnone : e.lexicon.announced = 0 :=
      Nat.le_zero.mp (h.blank hstarted ▸ h.consistent.announced)
    rw [Encoder.start, if_neg (by simp [hstarted])]
    have hheader : Holds most e (emit (Wire.header Format.version) { e with started := true })
        [.header] :=
      holds_single rfl rfl (Nat.le_trans (Nat.le_of_eq hnone) (Nat.zero_le _))
    exact hheader.andThen rfl (holds_clear most _)

/-- The record that begins an epoch, if one is begun. -/
theorem holds_renew (most : Nat) (e : Encoder) : Holds most e e.renew e.renewal := by
  unfold Encoder.renew renewal
  split
  · exact holds_clear most e
  · exact holds_skip most e

/-- The record that announces what is pending, and the record of a value.  Only the first of them
changes the dictionary, and it makes it as large as the lexicon is. -/
theorem holds_announce (h : Consistent e) (hmost : e.lexicon.size ≤ most) (payload : List UInt8) :
    ∃ drafts, Holds most e (e.announce.andThen (emitValue payload)) drafts ∧
      (drafts.map Draft.kind = [.value] ∨ drafts.map Draft.kind = [.add, .value]) := by
  have hannounced := (lexicon_announce h).2
  have hvalue : Holds most e.announce.state (emitValue payload e.announce.state)
      [.value e.announce.state.backlink payload] :=
    holds_single rfl rfl (Nat.le_trans (Nat.le_of_eq hannounced) hmost)
  by_cases hpending : e.lexicon.hasPending
  · have hcount := length_pending h.announced
    have hadd : Holds most e e.announce [.add e.backlink e.lexicon.pending] :=
      holds_single (announce_of_pending h hpending).1 (hannounced.trans hcount.symm)
        (Nat.le_trans (Nat.le_of_eq hannounced) hmost)
    exact ⟨_, hadd.andThen (outcome_announce e) hvalue, .inr rfl⟩
  · have hskip : e.announce = .skip e := by
      rw [announce, if_neg hpending]
    rw [hskip] at hvalue ⊢
    exact ⟨_, (holds_skip most e).andThen rfl hvalue, .inl rfl⟩

/-- A value that is refused has no record.  One that is accepted has its own, and one in front of it
if strings are pending. -/
theorem holds_putValue (h : Consistent e) {v : Json} (hmost : (e.seen v).lexicon.size ≤ most) :
    ∃ drafts, Holds most e (putValue v e) drafts ∧
      drafts.map Draft.kind ∈ [[], [.value], [.add, .value]] := by
  rw [putValue_eq]
  split
  · obtain ⟨drafts, hholds, hkinds⟩ := holds_announce (h.seen v) hmost (e.payload v).bytes
    have hannounced := announced_seen e v
    refine ⟨drafts, ⟨hholds.bytes, ?_, ?_⟩, ?_⟩
    · rw [← hannounced]
      exact hholds.announced
    · rw [← hannounced]
      exact hholds.most
    · rcases hkinds with hkinds | hkinds <;> simp [hkinds]
  · refine ⟨[], ⟨rfl, announced_seen e v, ?_⟩, by simp⟩
    exact (holds_skip most e).most

end Encoder

/-! ## 4. Calls -/

namespace Call

variable {options : EncodeOptions} {e : Encoder} {n : Nat} {call : Call}

/-- The most strings that a call may leave, where an epoch ends at a threshold. -/
def most (threshold : Nat) : Call → Nat
  | put v => max threshold 1 - 1 + v.texts.toFinset.card
  | clear => 0

/-- Whatever an encoder is asked, its books stay in order. -/
theorem tidy_emit (h : Encoder.Tidy options e) (call : Call) :
    Encoder.Tidy options (call.emit e).state := by
  cases call with
  | put v => exact h.put v
  | clear => exact h.clear

/-- The records that a value comes to: those that begin a stream, if it has not begun; a `clear`
record exactly if the dictionary has reached the threshold; and its own, unless it is refused. -/
theorem holds_put (h : Encoder.Tidy options e) (hn : options.clearThreshold = some n) (v : Json) :
    ∃ drafts, Encoder.Holds ((put v).most n) e (e.put v)
        (e.opening ++ (if n ≤ e.lexicon.size then [.clear] else []) ++ drafts) ∧
      drafts.map Draft.kind ∈ [[], [.value], [.add, .value]] := by
  have hrenewal : e.start.state.renewal = if n ≤ e.lexicon.size then [.clear] else [] := by
    simp [Encoder.renewal, h.isFull_start hn]
  obtain ⟨drafts, hwritten, hkinds⟩ :=
    Encoder.holds_putValue h.ready.1.consistent (h.size_put_le hn v)
  refine ⟨drafts, ?_, hkinds⟩
  rw [← hrenewal]
  exact ((h.holds_start _).andThen (Encoder.start_ok e).1 (Encoder.holds_renew _ _)).andThen
    (Encoder.outcome_ready e) hwritten

/-- The records that a call comes to, and how many strings they leave. -/
theorem holds_emit (h : Encoder.Tidy options e) (hn : options.clearThreshold = some n)
    (call : Call) : ∃ drafts, Encoder.Holds (call.most n) e (call.emit e) drafts := by
  cases call with
  | put v =>
    obtain ⟨drafts, hholds, -⟩ := holds_put h hn v
    exact ⟨_, hholds⟩
  | clear => exact ⟨_, Encoder.holds_clear _ e⟩

end Call

namespace Output

variable {options : EncodeOptions} {n : Nat}

/-- Nothing has been asked yet. -/
def blank (options : EncodeOptions) : Output :=
  ⟨[], .new options⟩

/-- Whatever is asked, an encoder stays tidy, and what it emits is records.  They are not looked at
any closer here, as all that matters is how many strings they leave. -/
theorem tidy_run (hn : options.clearThreshold = some n) (calls : List Call) : ∀ {out : Output},
    Encoder.Tidy options out.encoder →
      Encoder.Tidy options (out.run calls).encoder ∧ ∃ drafts : List Draft,
        (out.run calls).bytes = out.bytes ++ drafts.flatMap Draft.bytes ∧
        (out.run calls).encoder.lexicon.announced =
          drafts.foldl Draft.sizeAfter out.encoder.lexicon.announced := by
  induction calls with
  | nil => exact fun h => ⟨h, [], (List.append_nil _).symm, rfl⟩
  | cons call calls ih =>
    intro out h
    obtain ⟨first, hfirst⟩ := Call.holds_emit h hn call
    obtain ⟨htidy, more, hbytes, hannounced⟩ := @ih (out.step call) (Call.tidy_emit h call)
    change ((out.step call).run calls).bytes = _ at hbytes
    refine ⟨htidy, first ++ more, ?_, ?_⟩
    · rw [List.flatMap_append, ← hfirst.bytes, ← List.append_assoc]
      exact hbytes
    · rw [List.foldl_append, ← hfirst.announced]
      exact hannounced

end Output

/-! ## 5. What a reader has -/

namespace Grammar

variable {limits : Limits} {s t : Scope} {bs x : List UInt8} {entries : List Entry}

/-- Records that were written are read one for one, with as many strings behind them.  `x` is what
has still to be read. -/
theorem Records.size_of_drafts (h : Records limits s bs entries t) : ∀ {drafts : List Draft},
    bs ++ x = drafts.flatMap Draft.bytes → ∃ front behind, drafts = front ++ behind ∧
      bs = front.flatMap Draft.bytes ∧
      t.dictionary.length = front.foldl Draft.sizeAfter s.dictionary.length := by
  induction h with
  | nil => exact fun _ => ⟨[], _, rfl, rfl, rfl⟩
  | cons head _ ih =>
    intro drafts heq
    rw [List.append_assoc] at heq
    obtain ⟨draft, more, rfl, rfl, hrest, -, hsize⟩ := head.first_of_drafts heq
    obtain ⟨front, behind, rfl, rfl, hlength⟩ := ih hrest
    exact ⟨draft :: front, behind, rfl, rfl, by rw [hlength, List.foldl_cons, ← hsize]; rfl⟩

end Grammar

namespace Wire

theorem Draft.bytes_ne_nil (draft : Draft) : draft.bytes ≠ [] := by
  cases draft <;> exact List.cons_ne_nil _ _

theorem eq_nil_of_bytes {drafts : List Draft} (h : drafts.flatMap Draft.bytes = []) :
    drafts = [] := by
  cases drafts with
  | nil => rfl
  | cons draft drafts => exact absurd (List.append_eq_nil_iff.mp h).1 draft.bytes_ne_nil

/-- Records that end among others end behind some of them.  Offsets tell records apart, because no
record is empty. -/
theorem exists_among {before within after front behind : List Draft}
    (heq : front ++ behind = before ++ (within ++ after))
    (hlt : (before.flatMap Draft.bytes).length < (front.flatMap Draft.bytes).length)
    (hle : (front.flatMap Draft.bytes).length ≤
      (before.flatMap Draft.bytes).length + (within.flatMap Draft.bytes).length) :
    ∃ some others, front = before ++ some ∧ within = some ++ others ∧ some ≠ [] := by
  rcases List.append_eq_append_iff.mp heq with ⟨others, rfl, -⟩ | ⟨found, rfl, hfound⟩
  · rw [List.flatMap_append, List.length_append] at hlt
    omega
  · have hne : found ≠ [] := by
      rintro rfl
      rw [List.append_nil] at hlt
      exact Nat.lt_irrefl _ hlt
    rcases List.append_eq_append_iff.mp hfound with ⟨others, rfl, -⟩ | ⟨others, rfl, -⟩
    · rw [List.flatMap_append, List.flatMap_append, List.length_append, List.length_append] at hle
      have hnil : others = [] := eq_nil_of_bytes (List.length_eq_zero_iff.mp (by omega))
      subst hnil
      exact ⟨within, [], by rw [List.append_nil], (List.append_nil _).symm, by simpa using hne⟩
    · exact ⟨found, others, rfl, rfl, hne⟩

end Wire

namespace Output

variable {options : EncodeOptions} {n : Nat}

/-- Whatever a reader has read of an output, behind a record of some call it has no more strings
than the call may leave. -/
theorem size_read_le (hn : options.clearThreshold = some n) (before : List Call) (call : Call)
    (after : List Call) {limits : Limits} {entries : List Entry} {d : Decoder Tape}
    (hyields : Run.Yields (Decoder.nextRecord .decoded) (Decoder.ofFeed
      (Tape.ofBytes ((blank options).run (before ++ call :: after)).bytes) limits) entries d)
    (hlt : ((blank options).run before).bytes.length < d.stats.bytesRead)
    (hle : d.stats.bytesRead ≤ ((blank options).run (before ++ [call])).bytes.length) :
    d.dictionary.size ≤ call.most n := by
  obtain ⟨htidy, first, hfirst, hannounced⟩ :=
    @tidy_run options n hn before (blank options) (Encoder.tidy_new options)
  obtain ⟨within, hwithin⟩ := Call.holds_emit htidy hn call
  let out := ((blank options).run before).step call
  obtain ⟨-, last, hlast, -⟩ := @tidy_run options n hn after out (Call.tidy_emit htidy call)
  have hout : out.bytes = first.flatMap Draft.bytes ++ within.flatMap Draft.bytes := by
    show ((blank options).run before).bytes ++ _ = _
    rw [hfirst, hwithin.bytes]
    rfl
  have hall : ((blank options).run (before ++ call :: after)).bytes =
      (first ++ (within ++ last)).flatMap Draft.bytes := by
    have hrun : (blank options).run (before ++ call :: after) = out.run after := by
      simp [out, run]
    rw [hrun, hlast, hout, List.flatMap_append, List.flatMap_append, List.append_assoc]
  have hstep : (blank options).run (before ++ [call]) = out := by
    simp [out, run]
  -- What has been read ends with a record of the call.
  have hbetween := Decoder.between_ofFeed
    (Tape.ofBytes ((blank options).run (before ++ call :: after)).bytes) limits
  obtain ⟨-, bs, hrecords, hadvanced⟩ := Decoder.yields_sound hyields hbetween
  have hread : d.stats.bytesRead = bs.length := by
    rw [Decoder.bytesRead_of_yields hyields hbetween rfl]
    exact hrecords.offset_eq.trans (Nat.zero_add _)
  have hsplit : bs ++ (OnTape.tape d).rest = (first ++ (within ++ last)).flatMap Draft.bytes :=
    hadvanced.rest.symm.trans hall
  obtain ⟨front, behind, hdrafts, rfl, hsize⟩ := hrecords.size_of_drafts hsplit
  rw [hread, hfirst] at hlt
  rw [hread, hstep, hout, List.length_append] at hle
  obtain ⟨found, others, rfl, hfound, hne⟩ := exists_among hdrafts.symm hlt hle
  have hmost := hwithin.most found others hfound hne
  rw [hannounced, ← List.foldl_append] at hmost
  rw [← Dictionary.length_toList]
  exact hsize ▸ hmost

/-- **The threshold bounds the dictionary.**  Let epochs end at a threshold, and take an encoder
that has been asked whatever it was, and has refused whatever it did.

Asked for a value, it begins an epoch in front of it exactly if its dictionary has reached the
threshold; so when it begins to encode the value, the dictionary has fewer strings than the
threshold, or none; and it has no more than the strings of the value in addition then, whether or
not the value is refused.

A reader of all that is emitted has no more strings than that behind each record that is emitted for
the value, and none behind one that is emitted for a call to begin an epoch. -/
theorem bounded_by_threshold (hn : options.clearThreshold = some n) (before : List Call) :
    let out := (blank options).run before
    (∀ v, (∃ drafts : List Draft,
        (out.encoder.put v).bytes = (out.encoder.opening ++
          (if n ≤ out.encoder.lexicon.size then [Draft.clear] else []) ++ drafts).flatMap Draft.bytes ∧
        drafts.map Draft.kind ∈ [[], [.value], [.add, .value]]) ∧
      out.encoder.ready.lexicon.size < max n 1 ∧
      (out.encoder.put v).state.lexicon.size ≤ max n 1 - 1 + v.texts.toFinset.card) ∧
    ∀ call after limits entries d,
      Run.Yields (Decoder.nextRecord .decoded) (Decoder.ofFeed
        (Tape.ofBytes ((blank options).run (before ++ call :: after)).bytes) limits) entries d →
      out.bytes.length < d.stats.bytesRead →
      d.stats.bytesRead ≤ ((blank options).run (before ++ [call])).bytes.length →
      d.dictionary.size ≤ call.most n := by
  intro out
  have htidy : Encoder.Tidy options out.encoder :=
    (@tidy_run options n hn before (blank options) (Encoder.tidy_new options)).1
  refine ⟨fun v => ⟨?_, htidy.size_ready_lt hn, ?_⟩, fun call after limits entries d => ?_⟩
  · obtain ⟨drafts, hholds, hkinds⟩ := Call.holds_put htidy hn v
    exact ⟨drafts, hholds.bytes, hkinds⟩
  · have hentries := Encoder.lexicon_putValue htidy.ready.1.consistent v
    rw [(Encoder.put_ready v out.encoder).1, ← Lexicon.length_entries, hentries,
      Lexicon.length_entries]
    exact htidy.size_put_le hn v
  · exact size_read_le hn before call after

/-- A key, and one of a value that is refused: the next value begins an epoch. -/
theorem bounded_by_threshold_refused :
    let options : EncodeOptions := { clearThreshold := some 2, maxNestingDepth := 1 }
    let before := [Call.put (.object [("a", .null)]), Call.put (.object [("b", .array [])])]
    let out := (blank options).run before
    options.clearThreshold = some 2 ∧ out.encoder.lexicon.entries = ["a", "b"] ∧
    (∀ v, (∃ drafts : List Draft,
        (out.encoder.put v).bytes = (out.encoder.opening ++
          (if 2 ≤ out.encoder.lexicon.size then [Draft.clear] else []) ++ drafts).flatMap Draft.bytes ∧
        drafts.map Draft.kind ∈ [[], [.value], [.add, .value]]) ∧
      out.encoder.ready.lexicon.size < max 2 1 ∧
      (out.encoder.put v).state.lexicon.size ≤ max 2 1 - 1 + v.texts.toFinset.card) ∧
    ∀ call after limits entries d,
      Run.Yields (Decoder.nextRecord .decoded) (Decoder.ofFeed
        (Tape.ofBytes ((blank options).run (before ++ call :: after)).bytes) limits) entries d →
      out.bytes.length < d.stats.bytesRead →
      d.stats.bytesRead ≤ ((blank options).run (before ++ [call])).bytes.length →
      d.dictionary.size ≤ call.most 2 :=
  ⟨rfl, by decide +kernel, bounded_by_threshold rfl _⟩

end Output

end DictLog
