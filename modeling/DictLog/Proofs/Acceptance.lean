/-
# The reading side accepts exactly the grammar

Between records a decoder is a scope of the grammar, and each record it returns takes it to the
scope behind the record (`nextRecord_sound`, `nextRecord_complete`).  By induction on the run, it
returns the records of the grammar and no others (`yields_sound`, `yields_complete`), and so it
comes to a clean end exactly on the streams of the grammar (`ends_iff_stream`).
-/
import DictLog.Proofs.Record
import DictLog.Proofs.Run

namespace DictLog

open OnTape

/-! ## 1. What a record keeps -/

namespace Grammar

variable {limits : Limits} {s t : Scope} {bs : List UInt8} {entry : Entry} {after : List String}
  {entries : List Entry}

theorem Record.offset_eq (h : Record limits s bs entry after) : entry.offset = s.offset := by
  cases h <;> rfl

/-- Some records take the scope on by their length, so that offsets count bytes. -/
theorem Records.offset_eq (h : Records limits s bs entries t) :
    t.offset = s.offset + bs.length := by
  induction h with
  | nil => rfl
  | @cons s t bs cs entry entries after _ _ ih =>
    have hafter : (s.after bs entry after).offset = s.offset + bs.length := rfl
    rw [ih, hafter, List.length_append, Nat.add_assoc]

/-- No record brings the dictionary above its limit: `add` records are the only ones that it grows
by, and they are checked. -/
theorem Record.length_le (h : Record limits s bs entry after)
    (hs : s.dictionary.length ≤ limits.maxDictionaryEntries) :
    after.length ≤ limits.maxDictionaryEntries := by
  cases h with
  | header _ => exact hs
  | clear => exact Nat.zero_le _
  | add _ _ _ limit =>
    rw [List.length_append]
    exact limit
  | value _ _ _ _ _ => exact hs

/-- A `value` record of the grammar has a value.  An entry may also leave it out, which a reader that
skips payloads does. -/
theorem Record.value_of_kind (h : Record limits s bs entry after)
    (hkind : entry.record.kind = .value) :
    ∃ n v, entry.record = .value n (some v) := by
  cases h with
  | value _ _ _ _ _ => exact ⟨_, _, rfl⟩
  | _ => cases hkind

/-- The first record, if there is any, is a header. -/
def Headed (entries : List Entry) : Prop :=
  ∀ entry ∈ entries.head?, entry.record.kind = .header

theorem headed_nil : Headed [] := nofun

theorem headed_cons : Headed (entry :: entries) ↔ entry.record.kind = .header := by
  simp [Headed]

/-- How many of some records are of a kind. -/
def count (kind : RecordKind) (entries : List Entry) : Nat :=
  entries.countP fun entry => entry.record.kind = kind

theorem count_cons (kind : RecordKind) (entry : Entry) (entries : List Entry) :
    count kind (entry :: entries) = count kind [entry] + count kind entries := by
  simp only [count, List.countP_cons, List.countP_nil]
  omega

end Grammar

namespace Decoder

variable {limits : Limits} {d d' t : Decoder Tape} {bs rest : List UInt8} {entry : Entry}
  {entries : List Entry} {after : List String} {s : Grammar.Scope}

/-- A decoder between records, the dictionary of which is within its limit. -/
structure Between (d : Decoder Tape) : Prop where
  lookahead : d.lookahead = none
  size : d.dictionary.size ≤ d.limits.maxDictionaryEntries

theorem between_ofFeed (tape : Tape) (limits : Limits) : Between (ofFeed tape limits) :=
  ⟨rfl, Nat.zero_le _⟩

/-- The state after some records that took `bs` off the tape. -/
structure Advanced (d : Decoder Tape) (bs : List UInt8) (entries : List Entry)
    (d' : Decoder Tape) : Prop where
  between : Between d'
  rest : (tape d).rest = bs ++ (tape d').rest
  ending : (tape d').ending = (tape d).ending
  limits : d'.limits = d.limits
  failed : d'.failed = d.failed
  started : d'.started = (d.started || !entries.isEmpty)
  values : d'.stats.valueRecords = d.stats.valueRecords + Grammar.count .value entries
  adds : d'.stats.addRecords = d.stats.addRecords + Grammar.count .add entries
  clears : d'.stats.clearRecords = d.stats.clearRecords + Grammar.count .clear entries

/-- No records take nothing and change nothing. -/
theorem Advanced.refl (hd : Between d) : Advanced d [] [] d where
  between := hd
  rest := rfl
  ending := rfl
  limits := rfl
  failed := rfl
  started := (Bool.or_false _).symm
  values := rfl
  adds := rfl
  clears := rfl

/-- One record and then others: bytes and counts add up.  Everything that a decoder keeps of the past
is a sum over records, so a run is told by its first record and the rest. -/
theorem Advanced.cons {cs : List UInt8} (h : Advanced d bs [entry] t)
    (k : Advanced t cs entries d') : Advanced d (bs ++ cs) (entry :: entries) d' where
  between := k.between
  rest := by rw [h.rest, k.rest, List.append_assoc]
  ending := k.ending.trans h.ending
  limits := k.limits.trans h.limits
  failed := k.failed.trans h.failed
  started := by
    rw [k.started, h.started]
    simp
  values := by
    have hcount := Grammar.count_cons .value entry entries
    rw [k.values, h.values]
    omega
  adds := by
    have hcount := Grammar.count_cons .add entry entries
    rw [k.adds, h.adds]
    omega
  clears := by
    have hcount := Grammar.count_cons .clear entry entries
    rw [k.clears, h.clears]
    omega

/-! ## 2. One record -/

/-- The decoder behind a record is the scope behind the record.  The decoder has kept its mark, its
dictionary and its offset apart, and the grammar has one rule for all of them (`Scope.after`). -/
theorem scope_completed (hr : Reads d bs t) (hentry : entry.offset = d.tokens.offset) :
    (t.completed entry after).scope = d.scope.after bs entry after := by
  obtain ⟨offset, backlink, record⟩ := entry
  have hoffset : t.tokens.offset = d.tokens.offset + bs.length := hr.offset
  change offset = d.tokens.offset at hentry
  have hlast : t.tokens.lastDictionary = d.tokens.lastDictionary := by
    rw [hr.frame]
    rfl
  -- Only `clear` and `add` records leave a mark; the other two keep the last one.
  cases record with
  | header _ => simp [scope, completed, markedBy, Grammar.Scope.after, hoffset, hlast]
  | clear =>
    simp [scope, completed, markedBy, marked, TokenStream.marked, Grammar.Scope.after, hentry]
    exact hoffset
  | add _ =>
    simp [scope, completed, markedBy, marked, TokenStream.marked, Grammar.Scope.after, hentry]
    exact hoffset
  | value _ _ => simp [scope, completed, markedBy, Grammar.Scope.after, hoffset, hlast]

/-- What a complete record has changed: the dictionary, the counts and the tape, and nothing else.
Reading itself touches the tape only, and the rest is what completion does. -/
theorem advanced_completed (hd : Between d) (hr : Reads d bs t)
    (hafter : after.length ≤ d.limits.maxDictionaryEntries) :
    Advanced d bs [entry] (t.completed entry after) := by
  have hframe := hr.frame
  have hlimits : t.limits = d.limits := by
    rw [hframe]
    rfl
  have hlook : t.lookahead = none := by
    rw [hframe]
    exact hd.lookahead
  have hstats : t.stats = d.stats := by
    rw [hframe]
    rfl
  have hfailed : t.failed = d.failed := by
    rw [hframe]
    rfl
  have hsize : (Dictionary.ofList after).size ≤ d.limits.maxDictionaryEntries := by
    rwa [← Dictionary.length_toList, Dictionary.toList_ofList]
  obtain ⟨offset, backlink, record⟩ := entry
  cases record <;>
    exact {
      between := ⟨hlook, by rw [← hlimits] at hsize; exact hsize⟩
      rest := hr.rest
      ending := hr.ending
      limits := hlimits
      failed := hfailed
      started := by simp [completed]
      values := by simp [completed, DecodeStats.count, hstats, Grammar.count, Record.kind]
      adds := by simp [completed, DecodeStats.count, hstats, Grammar.count, Record.kind]
      clears := by simp [completed, DecodeStats.count, hstats, Grammar.count, Record.kind] }

theorem Between.length_le (hd : Between d) :
    d.scope.dictionary.length ≤ d.limits.maxDictionaryEntries := by
  rw [scope, Dictionary.length_toList]
  exact hd.size

/-- **Soundness of one record.**  A record that is returned is a record of the grammar, in the scope
that the decoder stands for, and the decoder then stands for the scope behind it. -/
theorem nextRecord_sound (hd : Between d) (h : nextRecord .decoded d = .ok (some entry) d') :
    (d.started ∨ entry.record.kind = .header) ∧
      ∃ bs after, Grammar.Record d.limits d.scope bs entry after ∧
        d'.scope = d.scope.after bs entry after ∧ Advanced d bs [entry] d' := by
  obtain ⟨hmay, bs, after, t, hrecord, hr, rfl⟩ := (nextRecord_eq_some hd.lookahead hd.size).mp h
  exact ⟨hmay, bs, after, hrecord, scope_completed hr hrecord.offset_eq,
    advanced_completed hd hr (hrecord.length_le hd.length_le)⟩

/-- **Completeness of one record.**  If a record of the grammar is what the tape begins with, it is
returned, whatever is behind it. -/
theorem nextRecord_complete (hd : Between d) (hmay : d.started ∨ entry.record.kind = .header)
    (hrecord : Grammar.Record d.limits d.scope bs entry after)
    (hrest : (tape d).rest = bs ++ rest) :
    ∃ d', nextRecord .decoded d = .ok (some entry) d' ∧ d'.scope = d.scope.after bs entry after ∧
      (tape d').rest = rest ∧ Advanced d bs [entry] d' := by
  obtain ⟨t, hr, ht⟩ := Reads.exists_of_rest hrest
  have hrest' : (tape (t.completed entry after)).rest = rest := by
    obtain ⟨offset, backlink, record⟩ := entry
    cases record <;> exact ht
  exact ⟨t.completed entry after,
    (nextRecord_eq_some hd.lookahead hd.size).mpr ⟨hmay, bs, after, t, hrecord, hr, rfl⟩,
    scope_completed hr hrecord.offset_eq, hrest',
    advanced_completed hd hr (hrecord.length_le hd.length_le)⟩

/-- Each record makes the tape shorter, since no record is empty.  This is the measure by which a run
comes to its end or to a fault. -/
theorem nextRecord_shrinks :
    Run.Shrinks (nextRecord .decoded) Between (fun d => (tape d).rest.length) := by
  intro d entry d' hd h
  obtain ⟨-, bs, after, hrecord, -, hadv⟩ := nextRecord_sound hd h
  have hpos := List.length_pos_iff.mpr hrecord.ne_nil
  have hlen := congrArg List.length hadv.rest
  rw [List.length_append] at hlen
  refine ⟨hadv.between, ?_⟩
  show (tape d').rest.length < (tape d).rest.length
  omega

/-! ## 3. Records one after the other -/

/-- The records that are returned are records of the grammar, by induction on the run.  The bytes of
each are what it took off the tape. -/
theorem yields_sound (h : Run.Yields (nextRecord .decoded) d entries d') (hd : Between d) :
    (d.started ∨ Grammar.Headed entries) ∧
      ∃ bs, Grammar.Records d.limits d.scope bs entries d'.scope ∧ Advanced d bs entries d' := by
  induction h with
  | nil => exact ⟨.inr Grammar.headed_nil, [], .nil, .refl hd⟩
  | @cons d t d' entry entries head tail ih =>
    obtain ⟨hmay, bs, after, hrecord, hscope, hadv⟩ := nextRecord_sound hd head
    obtain ⟨-, cs, hrecords, hadv'⟩ := ih hadv.between
    rw [hadv.limits, hscope] at hrecords
    exact ⟨by rwa [Grammar.headed_cons], bs ++ cs, .cons hrecord hrecords, hadv.cons hadv'⟩

/-- Behind a record that is returned, the decoder has read up to where it stands.  In the middle of a
record the count stays behind, at the last one that was complete. -/
theorem bytesRead_of_yields (h : Run.Yields (nextRecord .decoded) d entries d') (hd : Between d)
    (hread : d.stats.bytesRead = d.tokens.offset) : d'.stats.bytesRead = d'.tokens.offset := by
  induction h with
  | nil => exact hread
  | @cons d t d' entry entries head tail ih =>
    obtain ⟨-, _, _, -, -, hadv⟩ := nextRecord_sound hd head
    obtain ⟨-, _, _, u, -, -, rfl⟩ := (nextRecord_eq_some hd.lookahead hd.size).mp head
    refine ih hadv.between ?_
    obtain ⟨offset, backlink, record⟩ := entry
    cases record <;> rfl

/-- The records of the grammar are returned, by induction on them.  Only the first needs to be a
header, or to come after one; behind it the decoder has started. -/
theorem yields_complete {limits : Limits} {scope s : Grammar.Scope}
    (h : Grammar.Records limits scope bs entries s) :
    ∀ {d : Decoder Tape}, Between d → d.limits = limits → d.scope = scope →
      (d.started ∨ Grammar.Headed entries) → (tape d).rest = bs ++ rest →
      ∃ d', Run.Yields (nextRecord .decoded) d entries d' ∧ d'.scope = s ∧
        (tape d').rest = rest := by
  induction h with
  | nil =>
    intro d _ _ hscope _ hrest
    exact ⟨d, .nil, hscope, hrest⟩
  | @cons scope s bs cs entry entries after head tail ih =>
    intro d hd hlimits hscope hmay hrest
    subst hlimits hscope
    rw [Grammar.headed_cons] at hmay
    rw [List.append_assoc] at hrest
    obtain ⟨t, ht, hscope, hrest', hadv⟩ := nextRecord_complete hd hmay head hrest
    -- One record was returned, so the header has been there.
    have hstarted : t.started = true := by
      rw [hadv.started]
      simp
    obtain ⟨d', hd', hs, hrest''⟩ := ih hadv.between hadv.limits hscope (.inl hstarted) hrest'
    exact ⟨d', .cons ht hd', hs, hrest''⟩

/-! ## 4. Whole streams -/

/-- What a decoder has counted once it has read a stream. -/
def countsOf (entries : List Entry) (bytes : List UInt8) : DecodeStats where
  valueRecords := Grammar.count .value entries
  addRecords := Grammar.count .add entries
  clearRecords := Grammar.count .clear entries
  bytesRead := bytes.length

/-- On a stream of the grammar, a decoder comes to a clean end, in the scope behind the stream.  The
grammar says which record is next, so each is returned; when none is left the tape is empty, which
is the one place where a tape may end. -/
theorem ends_of_stream {limits : Limits} {bytes : List UInt8}
    (h : Grammar.Stream limits bytes entries s) :
    ∃ final, Run.Ends (nextRecord .decoded) (ofFeed (Tape.ofBytes bytes) limits) entries final ∧
      final.scope = s ∧ final.stats = countsOf entries bytes := by
  have hbetween := between_ofFeed (Tape.ofBytes bytes) limits
  obtain ⟨t, hyields, hscope, hrest⟩ :=
    yields_complete h.records hbetween rfl rfl (.inr h.headed) (List.append_nil bytes).symm
  obtain ⟨-, _, -, hadv⟩ := yields_sound hyields hbetween
  have hoffset : t.tokens.offset = bytes.length := by
    have hs := h.records.offset_eq
    rw [← hscope] at hs
    exact hs.trans (Nat.zero_add _)
  refine ⟨_, ⟨t, hyields, (nextRecord_eq_none hadv.between.lookahead).mpr
    ⟨hrest, hadv.ending, rfl⟩⟩, hscope, ?_⟩
  show DecodeStats.mk t.stats.valueRecords t.stats.addRecords t.stats.clearRecords
    t.tokens.offset = _
  rw [hadv.values, hadv.adds, hadv.clears, hoffset]
  simp [ofFeed, countsOf]

/-- Bytes on which a decoder comes to a clean end are a stream of the grammar: what was returned is
records, and at a clean end nothing is left that could be anything else. -/
theorem stream_of_ends {limits : Limits} {bytes : List UInt8} {final : Decoder Tape}
    (h : Run.Ends (nextRecord .decoded) (ofFeed (Tape.ofBytes bytes) limits) entries final) :
    ∃ s, Grammar.Stream limits bytes entries s := by
  obtain ⟨t, hyields, hend⟩ := h
  obtain ⟨hmay, bs, hrecords, hadv⟩ := yields_sound hyields (between_ofFeed _ limits)
  obtain ⟨hrest, -, -⟩ := (nextRecord_eq_none hadv.between.lookahead).mp hend
  have hbytes : bytes = bs := by
    have hall := hadv.rest
    rw [hrest, List.append_nil] at hall
    exact hall
  subst hbytes
  exact ⟨t.scope, hrecords, hmay.resolve_left nofun⟩

/-- **The language that is accepted.**  A decoder comes to a clean end, having returned some
records, exactly if its bytes are a stream of the grammar with these records.  This holds of all
bytes and all limits: what is no stream, by whatever fault, is not accepted, and nothing that is a
stream is turned away. -/
theorem ends_iff_stream (limits : Limits) (bytes : List UInt8) (entries : List Entry) :
    (∃ final, Run.Ends (nextRecord .decoded) (ofFeed (Tape.ofBytes bytes) limits) entries final) ↔
      ∃ s, Grammar.Stream limits bytes entries s := by
  constructor
  · intro h
    obtain ⟨final, hends⟩ := h
    exact stream_of_ends hends
  · intro h
    obtain ⟨s, hstream⟩ := h
    obtain ⟨final, hends, -, -⟩ := ends_of_stream hstream
    exact ⟨final, hends⟩

end Decoder

end DictLog
