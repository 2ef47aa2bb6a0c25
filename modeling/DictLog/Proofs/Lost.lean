/-
# A dictionary record that is lost is missed

If an `add` or a `clear` record is taken out of a stream, the next record stands where it stood, and
its backlink leads past the last record that changed the dictionary, or short of it.  Only if the
lost record was as long as that one is away does the backlink lead there by coincidence.

* A lost `add` record is missed even so: the value behind it needs the strings that it announced
  (`Amid.lost_add`).
* A lost `clear` record is as long as a `clear` record.  So the coincidence is that there was
  another right in front of it, and there was nothing to clear (`Amid.lost_clear`).
-/
import DictLog.Proofs.Announced
import DictLog.Proofs.Copied
import DictLog.Proofs.Narrow

namespace DictLog

open OnTape Step

namespace Decoder

open Grammar Wire

/-- The bytes without a record. -/
def lost (bytes : List UInt8) (span : Span) : List UInt8 :=
  bytes.take span.entry.offset ++ bytes.drop span.stop

variable {limits : Limits} {bytes pre bs rest : List UInt8} {values : List Json} {span : Span}
  {front behind : List Span} {s t : Scope} {after : List String} {draft : Draft}
  {drafts : List Draft}

namespace Amid

/-! ## 1. The record that is lost -/

theorem lost_eq (h : Amid limits bytes front span behind pre bs rest s after t) :
    lost bytes span = pre ++ rest := by
  rw [lost, h.take_start, h.drop_stop]

/-- In a stream that was written, the record is one of those that were, and so are those behind
it. -/
theorem threaded (h : Amid limits bytes front span behind pre bs rest s after t)
    (hkind : span.entry.record.kind ≠ .header)
    (hbytes : bytes = (Draft.header :: drafts).flatMap Draft.bytes) (hdrafts : Threaded 0 drafts) :
    ∃ draft more, rest = more.flatMap Draft.bytes ∧ span.entry.record.kind = draft.kind ∧
      after.length = draft.sizeAfter s.dictionary.length ∧
        Threaded s.dictionary.length (draft :: more) := by
  have hbefore := h.before
  have hall := h.bytes
  generalize hfront : front.map Span.entry = entries at hbefore
  cases hbefore with
  | nil => exact absurd hfront (h.headed_front hkind []).1
  | cons head tail =>
    rw [hbytes, List.append_assoc] at hall
    obtain ⟨_, _, hcons, -, hrest, -, hsize⟩ := head.first_of_drafts hall.symm
    cases hcons
    obtain ⟨_, hbehind, hthreaded⟩ := tail.threaded (hsize ▸ hdrafts) hrest
    obtain ⟨draft, more, rfl, -, hrest, hsame, hgrown⟩ := h.record.first_of_drafts hbehind
    exact ⟨draft, more, hrest, hsame, hgrown, hthreaded⟩

end Amid

/-! ## 2. A lost `add` record -/

/-- A value that needs more strings than there are in the dictionary refers to one of those that are
missing. -/
theorem nextRecord_missing {d : Decoder Tape} {large : List String} {link : Nat}
    {payload cs : List UInt8} {entry : Entry} (hd : Between d) (hstarted : d.started = true)
    (hlarge : d.scope.dictionary <+: large) (hroom : large.length ≤ d.limits.maxDictionaryEntries)
    (hrecord : Grammar.Record d.limits { d.scope with dictionary := large }
      (Draft.value link payload).bytes entry after)
    (hneeds : Needs large.length payload) (hmore : d.scope.dictionary.length < large.length)
    (hrest : (tape d).rest = (Draft.value link payload).bytes ++ cs) :
    ∃ index d', d.dictionary.size ≤ index ∧
      nextRecord .decoded d = .error (.indexOutOfRange index d.dictionary.size) d' := by
  -- With the strings that the stream announces, the record would be read.
  have hwide : Between (d.withDictionary (.ofList large)) := by
    refine ⟨hd.lookahead, ?_⟩
    show (Dictionary.ofList large).size ≤ _
    rw [← Dictionary.length_toList, Dictionary.toList_ofList]
    exact hroom
  have hkind : entry.record.kind = .value := (hrecord.of_draft (x := []) (y := []) rfl).2.1
  obtain ⟨d', hnext, -⟩ := nextRecord_complete hwide (.inl hstarted) hrecord hrest
  have hnarrowed : Narrowed d.dictionary (some entry) d' (nextRecord .decoded d) :=
    narrowed_nextRecord (d := d.withDictionary (.ofList large)) hlarge hnext hkind
  generalize hr : nextRecord .decoded d = r at hnarrowed
  cases hnarrowed with
  | same =>
    obtain ⟨-, bs, found, hfound, -, hadv⟩ := nextRecord_sound hd hr
    obtain ⟨rfl, -⟩ := hfound.of_draft (hadv.rest.symm.trans hrest)
    obtain ⟨-, v, hv⟩ := hfound.value_of_draft
    -- It cannot be the same value: its payload has no meaning in so small a dictionary.
    exact absurd (hneeds hv) (Nat.not_le.mpr hmore)
  | missing hle => exact ⟨_, _, hle, rfl⟩

namespace Amid

/-- Behind an `add` record stands the value that needs its strings.  The writing side announces
strings only when a value is about to refer to them. -/
theorem next_of_add (h : Amid limits bytes front span behind pre bs rest s after t)
    (hkind : span.entry.record.kind = .add)
    (hbytes : bytes = (Draft.header :: drafts).flatMap Draft.bytes) (hdrafts : Threaded 0 drafts) :
    ∃ next more link payload cs found, behind = next :: more ∧
      rest = (Draft.value link payload).bytes ++ cs ∧
      Grammar.Record limits (s.after bs span.entry after) (Draft.value link payload).bytes
        next.entry found ∧
      next.entry.record.kind = .value ∧ Needs after.length payload ∧
      s.dictionary.length < after.length := by
  obtain ⟨draft, drafts, hrest, hsame, hsize, hthreaded⟩ :=
    h.threaded (by rw [hkind]; decide) hbytes hdrafts
  obtain ⟨hlt, link, payload, more, rfl, hneeds⟩ := hthreaded.of_add (hsame.symm.trans hkind)
  rw [← hsize] at hlt hneeds
  rw [List.flatMap_cons] at hrest
  have honward := h.onward
  cases behind with
  | nil =>
    generalize hentries : ([] : List Span).map Span.entry = entries at honward
    cases honward with
    | nil => exact absurd hrest.symm (List.append_ne_nil_of_left_ne_nil (List.cons_ne_nil _ _) _)
    | cons _ _ => cases hentries
  | cons next behind =>
    cases honward with
    | cons head _ =>
      obtain ⟨rfl, hvalue, -⟩ := head.of_draft hrest
      exact ⟨next, behind, link, payload, _, _, rfl, rfl, head, hvalue, hneeds, hlt⟩

/-- Behind a `clear` record there is no header, as a header is written once, in front of everything. -/
theorem next_of_clear (h : Amid limits bytes front span behind pre bs rest s after t)
    (hkind : span.entry.record.kind = .clear)
    (hbytes : bytes = (Draft.header :: drafts).flatMap Draft.bytes) (hdrafts : Threaded 0 drafts) :
    ∀ next ∈ behind.head?, next.entry.record.kind ≠ .header := by
  obtain ⟨_, drafts, hrest, -, -, hthreaded⟩ :=
    h.threaded (by rw [hkind]; decide) hbytes hdrafts
  have htail := hthreaded.tail
  have honward := h.onward
  rintro next hnext
  cases behind with
  | nil => cases hnext
  | cons found behind =>
    obtain rfl : found = next := Option.some.inj hnext
    cases honward with
    | cons head _ =>
      obtain ⟨_, _, rfl, -, -, hsame, -⟩ := head.first_of_drafts hrest
      rw [hsame]
      exact htail.ne_header

/-- Without the `add` record, the value does not stand where its backlink says, or lacks strings.
The latter is how the loss shows if the bytes since the last change of the dictionary are as many as
those of the record. -/
theorem lost_add (h : Amid limits bytes front span behind pre bs rest s after t)
    (hkind : span.entry.record.kind = .add)
    (hbytes : bytes = (Draft.header :: drafts).flatMap Draft.bytes) (hdrafts : Threaded 0 drafts) :
    ∃ fault final,
      Run.Fails (nextRecord .decoded) (ofFeed (Tape.ofBytes (lost bytes span)) limits)
        (front.map Span.entry) fault final ∧
      (s.lastDictionary + bs.length ≠ s.offset →
        fault = .desync s.offset s.lastDictionary bs.length) ∧
      (s.lastDictionary + bs.length = s.offset →
        ∃ index size, size ≤ index ∧ fault = .indexOutOfRange index size) := by
  obtain ⟨next, more, link, payload, cs, found, -, rfl, hnext, hvalue, hneeds, hlt⟩ :=
    h.next_of_add hkind hbytes hdrafts
  obtain ⟨_, _, backlink, strings, -, -, -, hroom, -, hentry, rfl⟩ := h.record.add_of_kind hkind
  have hafter : s.after bs span.entry (s.dictionary ++ strings) =
      ⟨s.offset + bs.length, s.offset, s.dictionary ++ strings⟩ := by
    rw [hentry]
    rfl
  obtain ⟨distance, hlink, hdistance, -⟩ := hnext.linked_of_kind (.inr hvalue)
  obtain ⟨hne, hheaded⟩ := h.headed_front (by rw [hkind]; decide) []
  rw [List.append_nil] at hheaded
  rw [hafter] at hnext hdistance
  obtain rfl : distance = bs.length := Nat.add_left_cancel hdistance
  rw [h.lost_eq]
  -- The value now stands where the `add` record stood.  Its backlink is the length of that record,
  -- and is right only by coincidence.
  by_cases hcoincide : s.lastDictionary + bs.length = s.offset
  · obtain ⟨d, hyields, hd, rfl, rfl, hrest, hstarted⟩ := arrives_behind h.before hheaded _
    have hmoved : Scope.mk (d.scope.offset + bs.length) d.scope.offset
          (d.scope.dictionary ++ strings) =
        Scope.moved bs.length [] { d.scope with dictionary := d.scope.dictionary ++ strings } := by
      simp [Scope.moved, hcoincide]
    rw [hmoved] at hnext
    obtain ⟨entry, -, hrecord, -⟩ := hnext.back
    obtain ⟨index, d', hle, hmissing⟩ := nextRecord_missing hd (hstarted hne)
      (List.prefix_append _ strings) (by rw [List.length_append]; exact hroom) hrecord hneeds hlt
      hrest
    exact ⟨_, d', ⟨d, hyields, hmissing⟩, absurd hcoincide, fun _ => ⟨index, _, hle, rfl⟩⟩
  · obtain ⟨final, hfails⟩ := fails_of_desync h.before hheaded hnext (.inr hvalue) hlink hcoincide
    exact ⟨_, final, hfails, fun _ => rfl, fun heq => absurd heq hcoincide⟩

end Amid

/-! ## 3. A lost `clear` record -/

/-- A `clear` record is its tag and the terminator. -/
theorem clear_of_kind {entry : Entry} (h : Grammar.Record limits s bs entry after)
    (hkind : entry.record.kind = .clear) :
    bs = Wire.clear ∧ entry = ⟨s.offset, none, .clear⟩ ∧ after = [] := by
  cases h with
  | clear => exact ⟨rfl, rfl, rfl⟩
  | _ => cases hkind

/-- Records behind a `clear` record, where the record in front of it is as short and it has cleared
nothing. -/
theorem without_clear {entries : List Entry}
    (h : Records limits ⟨s.offset + 3, s.offset, []⟩ bs entries t) (hspaced : s.Spaced)
    (hcoincide : s.lastDictionary + 3 = s.offset) :
    ∃ found u, Records limits s bs found u ∧ Entry.values found = Entry.values entries := by
  have hnone : s.dictionary = [] :=
    hspaced.resolve_right fun hlt => absurd hcoincide (Nat.ne_of_lt hlt)
  have hmoved : Scope.mk (s.offset + 3) s.offset [] = s.moved 3 [] := by
    simp [Scope.moved, hcoincide, hnone]
  obtain ⟨found, u, rfl, hrecords⟩ := h.back hmoved
  exact ⟨found, u, hrecords, (Entry.values_map_shift ..).symm⟩

/-- Records behind a `clear` record, the first of which clears the dictionary again.  It does not
matter to it what there was to clear, so the one that is lost is not missed. -/
theorem without_first_clear {entry : Entry} {entries : List Entry}
    (h : Records limits ⟨s.offset + 3, s.offset, []⟩ bs (entry :: entries) t)
    (hkind : entry.record.kind = .clear) :
    ∃ found u, Records limits s bs found u ∧
      Entry.values found = Entry.values (entry :: entries) := by
  cases h with
  | cons head tail =>
    obtain ⟨rfl, hentry, rfl⟩ := clear_of_kind head hkind
    have hmoved : (Scope.mk (s.offset + 3) s.offset []).after Wire.clear entry [] =
        (s.after Wire.clear ⟨s.offset, none, .clear⟩ []).moved 3 [] := by
      rw [hentry]
      rfl
    obtain ⟨found, u, rfl, hrecords⟩ := tail.back hmoved
    refine ⟨_ :: found, u, .cons .clear hrecords, ?_⟩
    rw [Entry.values_cons_of_kind (by simp [DictLog.Record.kind]),
      Entry.values_cons_of_kind (by rw [hkind]; decide), Entry.values_map_shift]

namespace Amid

/-- Without the `clear` record, the backlink of the next record does not lead to the last record
that changed the dictionary, or the records behind it are read as before. -/
theorem lost_clear (h : Amid limits bytes front span behind pre bs rest s after t)
    (hkind : span.entry.record.kind = .clear)
    (hnext : ∀ next ∈ behind.head?, next.entry.record.kind ≠ .header) :
    (∃ final, Run.Fails (nextRecord .decoded) (ofFeed (Tape.ofBytes (lost bytes span)) limits)
        (front.map Span.entry) (.desync s.offset s.lastDictionary 3) final ∧
      ∃ next ∈ behind.head?,
        next.entry.record.kind = .add ∨ next.entry.record.kind = .value) ∨
      ∃ entries u, Records limits s rest entries u ∧
        Entry.values entries = Entry.values (behind.map Span.entry) := by
  obtain ⟨rfl, hentry, rfl⟩ := clear_of_kind h.record hkind
  have hafter : s.after Wire.clear span.entry [] = ⟨s.offset + 3, s.offset, []⟩ := by
    rw [hentry]
    rfl
  obtain ⟨-, hheaded⟩ := h.headed_front (by rw [hkind]; decide) []
  rw [List.append_nil] at hheaded
  have honward := h.onward
  rw [hafter] at honward
  rw [h.lost_eq]
  cases behind with
  | nil =>
    cases honward with
    | nil => exact .inr ⟨[], s, .nil, rfl⟩
  | cons next more =>
    cases hother : next.entry.record.kind with
    | header => exact absurd hother (hnext next rfl)
    | clear => exact .inr (without_first_clear honward hother)
    | _ =>
      have hlinked : next.entry.record.kind = .add ∨ next.entry.record.kind = .value := by
        simp [hother]
      -- The distance is that of a `clear` record.  It is right only if there was one right in
      -- front, and that one had left nothing to clear.
      by_cases hcoincide : s.lastDictionary + 3 = s.offset
      · exact .inr (without_clear honward h.spaced hcoincide)
      · cases honward with
        | cons head _ =>
          obtain ⟨distance, hlink, hdistance, -⟩ := head.linked_of_kind hlinked
          obtain rfl : distance = 3 := Nat.add_left_cancel hdistance
          obtain ⟨final, hfails⟩ := fails_of_desync h.before hheaded head hlinked hlink hcoincide
          exact .inl ⟨final, hfails, next, rfl, hother ▸ hlinked⟩

/-- Where the records behind the one that is lost are read as before, so are all values, since a
`clear` record has none of its own. -/
theorem lost_values (h : Amid limits bytes front span behind pre bs rest s after t)
    (hkind : span.entry.record.kind = .clear) {entries : List Entry} {u : Scope}
    (hrecords : Records limits s rest entries u)
    (hsame : Entry.values entries = Entry.values (behind.map Span.entry))
    (hvalues : decodeValues bytes limits = .ok values) :
    decodeValues (lost bytes span) limits = .ok values := by
  have hall := h.before.append hrecords
  rw [← h.lost_eq] at hall
  have hheaded := (h.headed_front (by rw [hkind]; decide) entries).2
  rw [decodeValues_of_stream ⟨hall, hheaded⟩, h.values_eq hvalues, Entry.values_append, hsame,
    List.map_append, Entry.values_append, List.map_cons,
    Entry.values_cons_of_kind (by rw [hkind]; decide)]

end Amid

/-! ## 4. What is lost is missed -/

/-- **A dictionary record that is lost is missed.**  Take a stream in which every value was
accepted, and that a decoder accepts, and take a record that changes the dictionary out of it.

Without an `add` record, the decoder returns the records in front, and finds fault with the value
that stood behind it: its backlink is as long as the lost record, and does not lead to the last
record that changed the dictionary; or, if it does by coincidence, an index is out of range.

Without a `clear` record, it finds fault with the backlink of the next record, which is an `add` or
a `value` record then, or decodes the same values.  In no case does it decode other values. -/
theorem values_of_lost (options : EncodeOptions) (limits : Limits) (calls : List Call)
    (values : List Json) (haccepted : Call.AllAccepted (Output.start options).encoder calls)
    (hdecoded : decodeValues ((Output.start options).run calls).bytes limits = .ok values) :
    let bytes := ((Output.start options).run calls).bytes
    ∀ front span behind, spans bytes limits = front ++ span :: behind →
      let run := (ofFeed (Tape.ofBytes (lost bytes span)) limits).records .decoded
      let length := span.stop - span.entry.offset
      (span.entry.record.kind = .add →
        run.items = front.map Span.entry ∧
        (∃ next ∈ behind.head?, next.entry.record.kind = .value) ∧
        ∃ backlink, span.entry.backlink = some backlink ∧
          (length ≠ backlink → run.failure =
            some (.desync span.entry.offset (span.entry.offset - backlink) length)) ∧
          (length = backlink → ∃ index size, size ≤ index ∧
            run.failure = some (.indexOutOfRange index size))) ∧
      (span.entry.record.kind = .clear →
        (run.items = front.map Span.entry ∧
          (∃ last, run.failure = some (.desync span.entry.offset last 3)) ∧
          ∃ next ∈ behind.head?,
            next.entry.record.kind = .add ∨ next.entry.record.kind = .value) ∨
        decodeValues (lost bytes span) limits = .ok values) ∧
      (span.entry.record.kind = .add ∨ span.entry.record.kind = .clear →
        ∀ found, decodeValues (lost bytes span) limits = .ok found → found = values) := by
  intro bytes front span behind hspans run length
  obtain ⟨drafts, hbytes, hdrafts⟩ := Output.threaded_start options calls haccepted
  obtain ⟨pre, bs, rest, s, after, t, h⟩ := exists_amid hdecoded hspans
  have hlength : length = bs.length := h.length_eq
  have hadd (hkind : span.entry.record.kind = .add) := h.lost_add hkind hbytes hdrafts
  have hclear (hkind : span.entry.record.kind = .clear) :=
    h.lost_clear hkind (h.next_of_clear hkind hbytes hdrafts)
  refine ⟨fun hkind => ?_, fun hkind => ?_, fun hkind found hfound => ?_⟩
  · obtain ⟨fault, final, hfails, hdesync, hmissing⟩ := hadd hkind
    obtain ⟨next, more, _, _, _, _, rfl, -, -, hvalue, -⟩ := h.next_of_add hkind hbytes hdrafts
    obtain ⟨backlink, hlink, hdistance, -⟩ := h.record.linked_of_kind (.inl hkind)
    have hlast : s.lastDictionary = span.entry.offset - backlink := by
      rw [← h.scope_offset]
      omega
    have hrun : run = _ := records_of_fails rfl hfails
    rw [hrun, hlength]
    refine ⟨rfl, ⟨next, rfl, hvalue⟩, backlink, hlink, fun hne => ?_, fun heq => ?_⟩
    · rw [hdesync (by omega), hlast, h.scope_offset]
    · obtain ⟨index, size, hle, rfl⟩ := hmissing (by omega)
      exact ⟨index, size, hle, rfl⟩
  · rcases hclear hkind with ⟨final, hfails, hnext⟩ | ⟨entries, u, hrecords, hsame⟩
    · have hrun : run = _ := records_of_fails rfl hfails
      rw [hrun, h.scope_offset]
      exact .inl ⟨rfl, ⟨_, rfl⟩, hnext⟩
    · exact .inr (h.lost_values hkind hrecords hsame hdecoded)
  · rcases hkind with hkind | hkind
    · obtain ⟨fault, final, hfails, -⟩ := hadd hkind
      rw [decodeValues_of_fails hfails] at hfound
      cases hfound
    · rcases hclear hkind with ⟨final, hfails, -⟩ | ⟨entries, u, hrecords, hsame⟩
      · rw [decodeValues_of_fails hfails] at hfound
        cases hfound
      · rw [h.lost_values hkind hrecords hsame hdecoded] at hfound
        cases hfound
        rfl

/-- The record that announces the second of three keys is as long as its backlink says.  Without it,
the backlink of the second value is right, but the key that it refers to is missing. -/
theorem values_of_lost_second :
    let named (key : String) : Json := .object [(key, .null)]
    let calls := [Call.put (named "a"), .put (named "bbbbbbbbbbb"), .put (named "c")]
    let bytes :=
      [0x48, 0x49, 0x01, 0x45, 0x0A, 0x43, 0x45, 0x0A, 0x41, 0x03, 0x53, 0x01, 0x61, 0x45, 0x0A,
        0x56, 0x07, 0x05, 0x7B, 0x58, 0x00, 0x4E, 0x7D, 0x45, 0x0A,
        0x41, 0x11, 0x53, 0x0B, 0x62, 0x62, 0x62, 0x62, 0x62, 0x62, 0x62, 0x62, 0x62, 0x62, 0x62,
        0x45, 0x0A, 0x56, 0x11, 0x05, 0x7B, 0x58, 0x01, 0x4E, 0x7D, 0x45, 0x0A,
        0x41, 0x1B, 0x53, 0x01, 0x63, 0x45, 0x0A, 0x56, 0x07, 0x05, 0x7B, 0x58, 0x02, 0x4E, 0x7D,
        0x45, 0x0A]
    let span : Span := ⟨⟨25, some 17, .add 1⟩, 42⟩
    let run := (ofFeed (Tape.ofBytes (lost bytes span)) {}).records .decoded
    Call.AllAccepted (Output.start {}).encoder calls ∧
      ((Output.start {}).run calls).bytes = bytes ∧
      decodeValues bytes {} = .ok [named "a", named "bbbbbbbbbbb", named "c"] ∧
      spans bytes {} = (spans bytes {}).take 4 ++ span :: (spans bytes {}).drop 5 ∧
      span.entry.record.kind = .add ∧
      run.items = ((spans bytes {}).take 4).map Span.entry ∧
      ∃ index size, size ≤ index ∧ run.failure = some (.indexOutOfRange index size) := by
  intro named calls bytes span run
  obtain ⟨haccepted, hwritten, hdecoded, hspans⟩ :
      Call.AllAccepted (Output.start {}).encoder calls ∧
      ((Output.start {}).run calls).bytes = bytes ∧
      decodeValues bytes {} = .ok [named "a", named "bbbbbbbbbbb", named "c"] ∧
      spans bytes {} = (spans bytes {}).take 4 ++ span :: (spans bytes {}).drop 5 :=
    ⟨⟨by decide +kernel, by decide +kernel, by decide +kernel, trivial⟩, by decide +kernel,
      by decide +kernel, by decide +kernel⟩
  have hlost := values_of_lost {} {} calls _ haccepted (hwritten ▸ hdecoded)
  rw [hwritten] at hlost
  obtain ⟨hitems, -, backlink, hlink, -, hmissing⟩ := (hlost _ span _ hspans).1 rfl
  cases hlink
  exact ⟨haccepted, hwritten, hdecoded, hspans, rfl, hitems, hmissing rfl⟩

end Decoder

end DictLog
