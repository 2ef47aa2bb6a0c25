/-
# The writing side writes the grammar

What an encoder emits is records of the grammar, from the scope in which it stands to the scope in
which it is left (`Encoder.scope`): strings that are pending are not in the dictionary yet, and
failed values leave nothing behind but a new epoch.  `Frames` says so of an emission, together with
the values in the records and with what the encoder has counted; `Call.frames_emit` is that for
everything that may be asked of an encoder, where a reader's limits admit it (`Call.Admitted`).
-/
import DictLog.Proofs.Books
import DictLog.Proofs.Payload
import DictLog.Proofs.Values

namespace DictLog

/-! ## 1. Emissions of records -/

/-- How many strings a record adds. -/
def Entry.added (entry : Entry) : Nat :=
  match entry.record with
  | .add n => n
  | _ => 0

/-- How many strings some records add. -/
def Entry.addedIn : List Entry → Nat
  | [] => 0
  | entry :: rest => entry.added + addedIn rest

theorem Entry.addedIn_append (entries more : List Entry) :
    Entry.addedIn (entries ++ more) = Entry.addedIn entries + Entry.addedIn more := by
  induction entries with
  | nil => exact (Nat.zero_add _).symm
  | cons entry rest ih =>
    rw [List.cons_append, addedIn, addedIn, ih, Nat.add_assoc]

theorem Entry.values_append (entries more : List Entry) :
    Entry.values (entries ++ more) = Entry.values entries ++ Entry.values more := by
  simp [values]

theorem Grammar.count_append (kind : RecordKind) (entries more : List Entry) :
    count kind (entries ++ more) = count kind entries + count kind more := by
  simp [count]

namespace Wire

/-- The record around a payload that is a value in its scope.  Everything else in the record is known
to the writing side: two numbers, which 64 bits hold, and the terminator. -/
theorem record_value {limits : Limits} {s : Grammar.Scope} {backlink : Nat} {payload : List UInt8}
    {v : Json} (hvalue : Grammar.Value limits s.dictionary limits.maxNestingDepth payload v)
    (hlinked : s.lastDictionary + backlink = s.offset) (hoffset : s.offset < UInt64.size)
    (hlength : payload.length < UInt64.size) (hlimit : payload.length ≤ limits.maxPayloadLength) :
    Grammar.Record limits s (value backlink payload)
      ⟨s.offset, some backlink, .value payload.length (some v)⟩ s.dictionary := by
  have hbacklink : Varint.Spells (Varint.encode backlink) backlink := Varint.spells_encode (by omega)
  have hrecord := Grammar.Record.value hbacklink hlinked (Varint.spells_encode hlength) hlimit hvalue
  have hwire : value backlink payload =
      Tag.value.byte :: (Varint.encode backlink ++ Varint.encode payload.length ++
        (payload ++ Format.terminator)) := by
    simp [value]
  rw [hwire]
  exact hrecord

end Wire

namespace Encoder

/-- What the next record depends on. -/
def scope (e : Encoder) : Grammar.Scope where
  offset := e.position
  lastDictionary := e.lastDictionary
  dictionary := e.lexicon.entries.take e.lexicon.announced

/-- What was emitted is these records, with these values, and they are counted. -/
structure Frames (limits : Limits) (e : Encoder) (m : Emission Encoder) (entries : List Entry)
    (values : List Json) : Prop where
  records : Grammar.Records limits e.scope m.bytes entries m.state.scope
  values : Entry.values entries = values
  valueRecords :
    m.state.stats.valueRecords = e.stats.valueRecords + Grammar.count .value entries
  addRecords : m.state.stats.addRecords = e.stats.addRecords + Grammar.count .add entries
  clearRecords :
    m.state.stats.clearRecords = e.stats.clearRecords + Grammar.count .clear entries
  stringsInterned :
    m.state.stats.stringsInterned = e.stats.stringsInterned + Entry.addedIn entries

variable {limits : Limits} {e e' : Encoder} {m : Emission Encoder} {entries more : List Entry}
  {values others : List Json} {entry : Entry} {after : List String} {v : Json}

theorem frames_skip (limits : Limits) (e : Encoder) : Frames limits e (.skip e) [] [] where
  records := .nil
  values := rfl
  valueRecords := rfl
  addRecords := rfl
  clearRecords := rfl
  stringsInterned := rfl

/-- Records and then others.  The first emission has to succeed; if it fails, there are no others.
Counts add up as records do. -/
theorem Frames.andThen {next : Encoder → Emission Encoder} (h : Frames limits e m entries values)
    (hm : m.outcome = .ok ()) (k : Frames limits m.state (next m.state) more others) :
    Frames limits e (m.andThen next) (entries ++ more) (values ++ others) := by
  rw [Emission.andThen_of_ok hm]
  refine ⟨h.records.append k.records, ?_, ?_, ?_, ?_, ?_⟩
  · rw [Entry.values_append, h.values, k.values]
  · refine k.valueRecords.trans ?_
    rw [h.valueRecords, Grammar.count_append, Nat.add_assoc]
  · refine k.addRecords.trans ?_
    rw [h.addRecords, Grammar.count_append, Nat.add_assoc]
  · refine k.clearRecords.trans ?_
    rw [h.clearRecords, Grammar.count_append, Nat.add_assoc]
  · refine k.stringsInterned.trans ?_
    rw [h.stringsInterned, Entry.addedIn_append, Nat.add_assoc]

/-- The records depend on the scope and the counts alone. -/
theorem Frames.congr (h : Frames limits e m entries values) (hscope : e'.scope = e.scope)
    (hstats : e'.stats = e.stats) : Frames limits e' m entries values := by
  have hrecords := h.records
  rw [← hscope] at hrecords
  refine ⟨hrecords, h.values, ?_, ?_, ?_, ?_⟩
  · rw [hstats, h.valueRecords]
  · rw [hstats, h.addRecords]
  · rw [hstats, h.clearRecords]
  · rw [hstats, h.stringsInterned]

theorem Frames.position (h : Frames limits e m entries values) :
    m.state.position = e.position + m.bytes.length :=
  h.records.offset_eq

/-! ## 2. Headers and epochs -/

/-- One record, if the encoder is left in the scope behind it. -/
theorem records_single {s : Grammar.Scope} {bs : List UInt8} {t : Grammar.Scope}
    (h : Grammar.Record limits s bs entry after) (ht : t = s.after bs entry after) :
    Grammar.Records limits s bs [entry] t := by
  rw [ht]
  exact .single h

/-- A header is a record, and leaves no trace in the scope but its length. -/
theorem frames_header (limits : Limits) (e : Encoder) :
    Frames limits e (emit (Wire.header Format.version) { e with started := true })
      [⟨e.position, none, .header Format.version⟩] [] where
  records := records_single (.header (Varint.spells_encode (by decide))) rfl
  values := rfl
  valueRecords := rfl
  addRecords := rfl
  clearRecords := rfl
  stringsInterned := rfl

/-- A `clear` record empties the dictionary of the scope, and with it that of the encoder. -/
theorem frames_clear (limits : Limits) (e : Encoder) :
    Frames limits e e.clear [⟨e.position, none, .clear⟩] [] where
  records := records_single .clear rfl
  values := rfl
  valueRecords := rfl
  addRecords := rfl
  clearRecords := rfl
  stringsInterned := rfl

/-- Renewing emits a `clear` record or nothing. -/
theorem frames_renew (limits : Limits) (e : Encoder) :
    ∃ entries, Frames limits e e.renew entries [] := by
  rw [renew]
  split
  · exact ⟨_, frames_clear limits e⟩
  · exact ⟨_, frames_skip limits e⟩

/-- Renewing does not fail. -/
theorem outcome_renew (e : Encoder) : e.renew.outcome = .ok () := by
  rw [renew]
  split <;> rfl

/-- The start of a stream is a header and a new epoch. -/
theorem frames_start (limits : Limits) (options : EncodeOptions) :
    ∃ entry rest, entry.record.kind = .header ∧
      Frames limits (new options) (new options).start (entry :: rest) [] :=
  ⟨_, _, rfl, (frames_header limits (new options)).andThen rfl (frames_clear limits _)⟩

/-! ## 3. Announcements -/

/-- Every string of the dictionary is within the limit for strings. -/
def Short (limits : Limits) (strings : List String) : Prop :=
  ∀ s ∈ strings, (Utf8.encode s).length ≤ limits.maxStringLength

/-- Strings that are short enough are literals of the grammar, one after the other.  All their bytes
together have a length that 64 bits hold, so each of their lengths is written as it is. -/
theorem sequence_literals {strings : List String} (hshort : Short limits strings)
    (hlength : (strings.flatMap Wire.stringLiteral).length < UInt64.size) :
    Grammar.Sequence (Grammar.StringLiteral limits) (strings.flatMap Wire.stringLiteral)
      strings := by
  induction strings with
  | nil => exact .nil
  | cons s rest ih =>
    rw [List.flatMap_cons, List.length_append] at hlength
    have hhead := hshort s (List.mem_cons_self ..)
    have htail : Short limits rest := fun t ht => hshort t (List.mem_cons_of_mem _ ht)
    rw [List.flatMap_cons]
    exact .cons (Payload.stringLiteral_of_fits hhead (by omega)) (ih htail (by omega))

theorem outcome_announce (e : Encoder) : e.announce.outcome = .ok () := by
  rw [announce]
  split <;> rfl

/-- A backlink is no larger than the position, and so 64 bits hold it if they hold that. -/
theorem spells_backlink (h : e.position < UInt64.size) :
    Varint.Spells (Varint.encode e.backlink) e.backlink := by
  apply Varint.spells_encode
  rw [backlink]
  omega

/-- The record of the pending strings, where a reader has room for them. -/
theorem record_add (h : Consistent e) (hshort : Short limits e.lexicon.entries)
    (hsize : e.lexicon.size ≤ limits.maxDictionaryEntries)
    (hlength : e.position + (Wire.add e.backlink e.lexicon.pending).length < UInt64.size) :
    Grammar.Record limits e.scope (Wire.add e.backlink e.lexicon.pending)
      ⟨e.position, some e.backlink, .add e.lexicon.pending.length⟩
      (e.scope.dictionary ++ e.lexicon.pending) := by
  have hcount := length_pending h.announced
  have hliterals : Grammar.Sequence (Grammar.StringLiteral limits)
      (e.lexicon.pending.flatMap Wire.stringLiteral) e.lexicon.pending := by
    refine sequence_literals (fun s hs => hshort s (List.mem_of_mem_drop hs)) ?_
    simp only [Wire.add, List.length_append] at hlength
    omega
  have hroom : e.scope.dictionary.length + e.lexicon.pending.length ≤
      limits.maxDictionaryEntries := by
    have htake : e.scope.dictionary.length = e.lexicon.announced := by
      rw [scope, List.length_take, Lexicon.length_entries]
      exact Nat.min_eq_left h.announced
    rw [htake, hcount]
    exact hsize
  have hadd := Grammar.Record.add (s := e.scope) (spells_backlink (by omega))
    (Nat.add_sub_cancel' h.last) hliterals hroom
  have hwire : Wire.add e.backlink e.lexicon.pending =
      Tag.add.byte :: (Varint.encode e.backlink ++
        (e.lexicon.pending.flatMap Wire.stringLiteral ++ Format.terminator)) := by
    simp [Wire.add]
  rw [hwire]
  exact hadd

/-- The strings that were pending are in the dictionary behind the record that announces them.  If
none is pending, there is no such record, and nothing to be said. -/
theorem frames_announce (h : Consistent e) (hshort : Short limits e.lexicon.entries)
    (hsize : e.lexicon.size ≤ limits.maxDictionaryEntries)
    (hlength : e.position + e.announce.bytes.length < UInt64.size) :
    ∃ entries, Frames limits e e.announce entries [] := by
  rw [announce] at hlength ⊢
  split
  · rename_i hpending
    rw [if_pos hpending] at hlength
    have hrecord := record_add h hshort hsize hlength
    have hcount := length_pending h.announced
    refine ⟨_, records_single hrecord ?_, rfl, rfl, rfl, rfl, ?_⟩
    · have hdictionary : e.lexicon.entries.take e.lexicon.size =
          e.scope.dictionary ++ e.lexicon.pending := by
        rw [scope, Lexicon.take_append_pending, Lexicon.take_size]
      show Grammar.Scope.mk _ _ (e.lexicon.entries.take e.lexicon.size) = _
      rw [hdictionary]
      rfl
    · show e.stats.stringsInterned + (e.lexicon.size - e.lexicon.announced) =
        e.stats.stringsInterned + (e.lexicon.pending.length + 0)
      omega
  · exact ⟨_, frames_skip limits e⟩

/-- Announcing leaves the strings as they are, and none is pending. -/
theorem lexicon_announce (h : Consistent e) :
    e.announce.state.lexicon.entries = e.lexicon.entries ∧
      e.announce.state.lexicon.announced = e.lexicon.size := by
  rw [announce]
  split
  · exact ⟨rfl, rfl⟩
  · rename_i hpending
    have hle := h.announced
    rw [Lexicon.hasPending, decide_eq_true_eq] at hpending
    exact ⟨rfl, show e.lexicon.announced = e.lexicon.size by omega⟩

theorem size_announce (h : Consistent e) :
    e.announce.state.lexicon.size = e.lexicon.size := by
  rw [← Lexicon.length_entries, (lexicon_announce h).1, Lexicon.length_entries]

/-! ## 4. Values -/

/-- The record of a payload, where all strings have been announced. -/
theorem record_value (h : Consistent e) (hall : e.lexicon.announced = e.lexicon.size)
    {payload : List UInt8}
    (hvalue : Grammar.Value limits e.lexicon.entries limits.maxNestingDepth payload v)
    (hlimit : payload.length ≤ limits.maxPayloadLength)
    (hlength : e.position + (Wire.value e.backlink payload).length < UInt64.size) :
    Grammar.Record limits e.scope (Wire.value e.backlink payload)
      ⟨e.position, some e.backlink, .value payload.length (some v)⟩ e.scope.dictionary := by
  have hdictionary : e.scope.dictionary = e.lexicon.entries := by
    rw [scope, hall, Lexicon.take_size]
  have hpayload : payload.length < UInt64.size := by
    simp only [Wire.value, List.length_append] at hlength
    omega
  exact Wire.record_value (s := e.scope) (hdictionary ▸ hvalue) (Nat.add_sub_cancel' h.last)
    (show e.position < UInt64.size by omega) hpayload hlimit

theorem frames_emitValue (h : Consistent e) (hall : e.lexicon.announced = e.lexicon.size)
    {payload : List UInt8}
    (hvalue : Grammar.Value limits e.lexicon.entries limits.maxNestingDepth payload v)
    (hlimit : payload.length ≤ limits.maxPayloadLength)
    (hlength : e.position + (emitValue payload e).bytes.length < UInt64.size) :
    ∃ entries, Frames limits e (emitValue payload e) entries [v] :=
  ⟨_, records_single (record_value h hall hvalue hlimit hlength) rfl, rfl, rfl, rfl, rfl, rfl⟩

/-- Writing a payload does not change the scope: the strings that it brings are pending, and the
scope has only those that were announced. -/
theorem scope_seen (h : Consistent e) (v : Json) : (e.seen v).scope = e.scope := by
  obtain ⟨more, hmore⟩ := entries_seen e v
  have hlen : e.lexicon.announced ≤ e.lexicon.entries.length := by
    rw [Lexicon.length_entries]
    exact h.announced
  have hdictionary : (e.seen v).lexicon.entries.take (e.seen v).lexicon.announced =
      e.lexicon.entries.take e.lexicon.announced := by
    rw [announced_seen, ← hmore, List.take_append_of_le_length hlen]
  rw [scope, hdictionary]
  rfl

/-- What a reader's limits have to allow of a value that has been accepted, the dictionary of the
encoder that it leaves included. -/
structure Admits (limits : Limits) (v : Json) (payload : List UInt8) (left : Encoder) : Prop where
  depth : v.depth ≤ limits.maxNestingDepth
  payload : payload.length ≤ limits.maxPayloadLength
  dictionary : left.lexicon.size ≤ limits.maxDictionaryEntries

/-- What becomes of a value whose payload could be written: its strings, and then the value.  The
payload was written before the strings were announced, and is a value in the dictionary behind the
announcement, which is where its record stands. -/
theorem frames_written (h : Consistent e) (hshort : Short limits (e.seen v).lexicon.entries)
    (hv : Short limits v.texts) (hok : (e.payload v).outcome = .ok ())
    (hadmits : Admits limits v (e.payload v).bytes (e.seen v).announce.state)
    (hlength : e.position + ((e.seen v).announce.bytes ++
      Wire.value (e.seen v).announce.state.backlink (e.payload v).bytes).length < UInt64.size) :
    ∃ entries, Frames limits (e.seen v)
      ((e.seen v).announce.andThen (emitValue (e.payload v).bytes)) entries [v.merge] := by
  obtain ⟨hdepth, hpayload, hdictionary⟩ := hadmits
  have hseen := h.seen v
  have hannounced := hseen.announce
  rw [List.length_append] at hlength
  obtain ⟨hentries, hall⟩ := lexicon_announce hseen
  have hsize := size_announce hseen
  obtain ⟨first, hfirst⟩ := frames_announce hseen hshort (hsize ▸ hdictionary)
    (show e.position + (e.seen v).announce.bytes.length < _ by omega)
  have hposition : (e.seen v).announce.state.position =
      e.position + (e.seen v).announce.bytes.length := hfirst.position
  have hpositioned := hannounced.positioned
  have hwire : (e.payload v).bytes.length ≤
      (Wire.value (e.seen v).announce.state.backlink (e.payload v).bytes).length := by
    simp only [Wire.value, List.length_append]
    omega
  -- Each string took a byte, so the position bounds the size of the dictionary.
  have hcount : (e.seen v).lexicon.entries.length ≤ UInt64.size := by
    rw [Lexicon.length_entries]
    omega
  have hfits : Payload.Fits limits (e.seen v).lexicon.entries v.texts (e.payload v) :=
    ⟨hok, by omega, hv, List.prefix_rfl, hcount⟩
  have hvalue : Grammar.Value limits (e.seen v).lexicon.entries limits.maxNestingDepth
      (e.payload v).bytes v.merge := Payload.value_write _ _ v e.lexicon hfits hdepth
  rw [← hentries] at hvalue
  obtain ⟨second, hsecond⟩ := frames_emitValue hannounced (hall.trans hsize.symm) hvalue hpayload
    (show (e.seen v).announce.state.position +
      (Wire.value (e.seen v).announce.state.backlink (e.payload v).bytes).length < _ by omega)
  exact ⟨_, hfirst.andThen (outcome_announce _) hsecond⟩

/-- What becomes of a value in its epoch.  It is accepted, as its strings and then itself, or
refused, and then there is no record at all. -/
theorem frames_putValue (h : Consistent e) (hshort : Short limits e.lexicon.entries)
    (hv : Short limits v.texts)
    (hadmits : (putValue v e).outcome = .ok () →
      Admits limits v (e.payload v).bytes (putValue v e).state)
    (hlength : (putValue v e).outcome = .ok () →
      e.position + (putValue v e).bytes.length < UInt64.size) :
    ∃ entries, Frames limits e (putValue v e) entries
      (match (putValue v e).outcome with | .ok () => [v.merge] | .error _ => []) := by
  rw [putValue_eq] at hadmits hlength ⊢
  cases houtcome : (e.payload v).outcome with
  | error fault =>
    have hskip : Frames limits e (Emission.fail fault (e.seen v)) [] [] :=
      ⟨(scope_seen h v).symm ▸ .nil, rfl, rfl, rfl, rfl, rfl⟩
    exact ⟨_, hskip⟩
  | ok u =>
    simp only [houtcome] at hadmits hlength ⊢
    have hannounced := outcome_announce (e.seen v)
    have hok : ((e.seen v).announce.andThen (emitValue (e.payload v).bytes)).outcome = .ok () :=
      Emission.outcome_andThen.mpr ⟨hannounced, rfl⟩
    obtain ⟨hdepth, hpayload, hdictionary⟩ := hadmits hok
    have hbytes := hlength hok
    rw [Emission.andThen_of_ok hannounced] at hdictionary hbytes
    obtain ⟨entries, hframes⟩ := frames_written h (Payload.forall_entries_write hshort hv) hv
      houtcome ⟨hdepth, hpayload, hdictionary⟩ hbytes
    rw [hok]
    exact ⟨entries, hframes.congr (scope_seen h v).symm rfl⟩

/-! ## 5. Everything that may be asked -/

/-- An encoder that has started, with its books in order and all its strings within the limit. -/
structure Live (limits : Limits) (e : Encoder) : Prop where
  consistent : Consistent e
  started : e.started = true
  short : Short limits e.lexicon.entries

theorem live_start (limits : Limits) (options : EncodeOptions) :
    Live limits (new options).start.state :=
  ⟨(consistent_new options).start, rfl, nofun⟩

theorem Live.clear (h : Live limits e) : Live limits e.clear.state :=
  ⟨h.consistent.clear, h.started, nofun⟩

theorem Live.renew (h : Live limits e) : Live limits e.renew.state := by
  rw [Encoder.renew]
  split
  · exact h.clear
  · exact h

theorem Live.announce (h : Live limits e) : Live limits e.announce.state where
  consistent := h.consistent.announce
  started := by
    rw [Encoder.announce]
    split <;> exact h.started
  short := by
    rw [(lexicon_announce h.consistent).1]
    exact h.short

/-- A value keeps an encoder live, whether or not it is accepted: its strings are short in either
case, and they may be there in either case. -/
theorem Live.putValue (h : Live limits e) (hv : Short limits v.texts) :
    Live limits (putValue v e).state := by
  have hseen : Live limits (e.seen v) :=
    ⟨h.consistent.seen v, h.started, Payload.forall_entries_write h.short hv⟩
  rw [putValue_eq]
  split
  · rw [Emission.andThen_of_ok (outcome_announce _)]
    exact ⟨hseen.announce.consistent.emitValue _, hseen.announce.started, hseen.announce.short⟩
  · exact hseen

/-- Once started, an encoder does not start again. -/
theorem put_eq (h : e.started = true) (v : Json) : e.put v = e.renew.andThen (putValue v) := by
  rw [put, start, if_pos h, Emission.skip_andThen]

end Encoder

namespace Call

variable {limits : Limits} {e : Encoder} {call : Call}

/-- What a reader's limits have to allow of a call: of the strings of a value in any case, and of
all the rest if the value is accepted. -/
def Admitted (limits : Limits) (e : Encoder) : Call → Prop
  | put v => Encoder.Short limits v.texts ∧ ((e.put v).outcome = .ok () →
      Encoder.Admits limits v (e.renew.state.payload v).bytes (e.put v).state)
  | clear => True

/-- **What is written is the grammar.**  What an encoder does when asked is records, with the value
that it accepts.  The limits are asked for the value only if it is accepted, and so is the length; a
refused value may be as large as it likes. -/
theorem frames_emit (h : Encoder.Live limits e) (hadmitted : call.Admitted limits e)
    (hlength : (call.emit e).outcome = .ok () →
      e.position + (call.emit e).bytes.length < UInt64.size) :
    ∃ entries, Encoder.Frames limits e (call.emit e) entries
      ((call.accepted (call.emit e).outcome).map Json.merge) := by
  cases call with
  | clear => exact ⟨_, Encoder.frames_clear limits e⟩
  | put v =>
    obtain ⟨hv, hadmits⟩ := hadmitted
    have hput : (Call.put v).emit e = e.renew.andThen (Encoder.putValue v) :=
      Encoder.put_eq h.started v
    have hrenew := Encoder.outcome_renew e
    obtain ⟨first, hfirst⟩ := Encoder.frames_renew limits e
    have hposition := hfirst.position
    change (((Call.put v).emit e).outcome = .ok () → Encoder.Admits limits v _
      ((Call.put v).emit e).state) at hadmits
    rw [hput, Emission.andThen_of_ok hrenew] at hadmits hlength
    rw [List.length_append] at hlength
    obtain ⟨second, hsecond⟩ := Encoder.frames_putValue h.renew.consistent h.renew.short hv hadmits
      fun hok => by
        have hlt := hlength hok
        omega
    have hboth := hfirst.andThen hrenew hsecond
    have houtcome : ((Call.put v).emit e).outcome = (Encoder.putValue v e.renew.state).outcome := by
      rw [hput, Emission.andThen_of_ok hrenew]
    rw [houtcome, hput]
    -- First come the records of a renewal, if there is one, and then those of the value.
    refine ⟨first ++ second, ?_⟩
    cases hvalue : (Encoder.putValue v e.renew.state).outcome with
    | ok u =>
      rw [hvalue] at hboth
      exact hboth
    | error fault =>
      rw [hvalue] at hboth
      exact hboth

/-- Whatever is asked, the encoder stays live. -/
theorem live_emit (h : Encoder.Live limits e) (hadmitted : call.Admitted limits e) :
    Encoder.Live limits (call.emit e).state := by
  cases call with
  | clear => exact h.clear
  | put v =>
    have hput : (Call.put v).emit e = e.renew.andThen (Encoder.putValue v) :=
      Encoder.put_eq h.started v
    rw [hput, Emission.andThen_of_ok (Encoder.outcome_renew e)]
    exact h.renew.putValue hadmitted.1

/-- Calls one after the other, each of which a reader's limits admit. -/
def AllAdmitted (limits : Limits) (e : Encoder) : List Call → Prop
  | [] => True
  | call :: rest => call.Admitted limits e ∧ AllAdmitted limits (call.emit e).state rest

end Call

end DictLog
