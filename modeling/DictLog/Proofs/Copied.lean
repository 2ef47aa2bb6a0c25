/-
# A dictionary record that stands there twice

A backlink is a distance, and says nothing about what a dictionary holds.  So a reader finds out
that an `add` record has been copied right behind itself if the record is not just as long as its
backlink says: then the backlink of the copy does not lead to the record in front of it.

If it is, the copy is taken for a record, unless the dictionary has no room for its strings
(`nextRecord_full`), and the strings are in the dictionary twice.  Values do not refer to the second
ones, and so nothing changes up to the next `add` record of the epoch (`Amid.copied_records`).  The
strings of that one are further on in the dictionary than its writer thought, and this is how the
values of a stream may change without a fault (`copied_changes`).
-/
import DictLog.Proofs.Damage
import DictLog.Proofs.Framing
import DictLog.Proofs.Relocation

namespace DictLog

open OnTape Step

namespace Decoder

/-! ## 1. No room in the dictionary -/

section Full

variable {limits : Limits} {d u u' : Decoder Tape} {digits bs more : List UInt8} {backlink : Nat}
  {strings : List String} {fault : Fault}

/-- In a dictionary that is full, a string is refused. -/
theorem addString_full {s : String} (h : d.limits.maxDictionaryEntries ≤ d.dictionary.size) :
    addString s d = .error (.limit (.dictionary d.limits.maxDictionaryEntries)) d := by
  rw [addString, get_bind_apply]
  simp [h]

/-- Where there is no room for all strings of an `add` record, reading them fails.  The strings
before the first one without room are added; the fault is that of the next. -/
theorem additions_full (times : Nat) :
    ∀ {dictionary : List String} {d : Decoder Tape} {added : Nat} {bs : List UInt8}
      {strings : List String}, Ready limits dictionary times d →
      dictionary.length ≤ limits.maxDictionaryEntries →
      Grammar.Sequence (Grammar.StringLiteral limits) bs strings →
      limits.maxDictionaryEntries < dictionary.length + strings.length →
      (tape d).rest = bs ++ more →
      ∃ d', additions times added d =
        .error (.limit (.dictionary limits.maxDictionaryEntries)) d' := by
  induction times with
  | zero =>
    intro dictionary d added bs strings hd
    exact absurd hd.unread (Nat.not_lt_zero _)
  | succ times ih =>
    intro dictionary d added bs strings hd hdict hseq hfull hrest
    cases hseq with
    | nil => exact absurd hfull (Nat.not_lt.mpr hdict)
    | @cons bs cs s strings hliteral hseq =>
      rw [List.append_assoc] at hrest
      obtain ⟨u, hru, hu⟩ := Reads.exists_of_rest hrest
      -- Either there is room for this string, and the others are too many, or it is the first too
      -- many.
      rcases Nat.lt_or_ge dictionary.length limits.maxDictionaryEntries with hroom | hnone
      · rw [← length_snoc_add] at hfull
        obtain ⟨hready, hnext⟩ := additions_of_literal added hd hliteral hru hroom
        rw [hnext]
        exact ih hready (by rw [List.length_append]; exact hroom) hseq hfull hu
      · obtain ⟨cs, rfl, hbody⟩ := literal_body hliteral d.tokens.offset d.tokens.lastDictionary
        rw [← hd.limits] at hbody
        have hreq : require d = .ok ⟨d.tokens.offset, .string s⟩ u :=
          require_eq_ok.mpr ((advance_eq_some hd.lookahead).mpr ⟨rfl, cs, u, hbody, hru, rfl⟩)
        have hready := hd.reads hru
        have hadd : addString s u =
            .error (.limit (.dictionary limits.maxDictionaryEntries)) u := by
          rw [← hready.limits]
          refine addString_full ?_
          rw [hready.limits, ← Dictionary.length_toList, hready.dictionary]
          exact hnone
        refine ⟨u, ?_⟩
        rw [additions, bind_of_ok hreq]
        exact bind_of_error hadd _

/-- Where the rest of a record cannot be read, the record cannot. -/
theorem nextRecord_of_opened {payloads : Payloads} {offset : Nat} {token : Token}
    (hadvance : advance d = .ok (some ⟨offset, token⟩) u) (hmay : u.started ∨ token = .header)
    (h : opened payloads offset token u = .error fault u') :
    ∃ d', nextRecord payloads d = .error fault d' :=
  ⟨u', (nextRecord_of_advance hadvance hmay).trans (bind_of_error h _)⟩

/-- An `add` record for the strings of which there is no room.  Its backlink is right, so a decoder
begins with the strings. -/
theorem nextRecord_full (hd : Between d) (hstarted : d.started = true)
    (hspells : Varint.Spells digits backlink)
    (hlinked : d.scope.lastDictionary + backlink = d.scope.offset)
    (hliterals : Grammar.Sequence (Grammar.StringLiteral d.limits) bs strings)
    (hfull : d.limits.maxDictionaryEntries < d.scope.dictionary.length + strings.length)
    (hrest : (tape d).rest = Tag.add.byte :: (digits ++ (bs ++ more))) :
    ∃ d', nextRecord .decoded d =
      .error (.limit (.dictionary d.limits.maxDictionaryEntries)) d' := by
  have hready : Ready d.limits d.scope.dictionary d.bound d :=
    Ready.bounded ⟨hd.lookahead, rfl, rfl, Nat.lt_succ_self _⟩
  have hsplit : (tape d).rest = (Tag.add.byte :: digits) ++ (bs ++ more) := hrest
  obtain ⟨u, hru, hu⟩ := Reads.exists_of_rest hsplit
  have hadvance : advance d =
      .ok (some ⟨d.tokens.offset, .add backlink⟩) (u.marked d.tokens.offset (.add backlink)) :=
    (advance_eq_some hd.lookahead).mpr ⟨rfl, digits, u, ⟨hspells, hlinked⟩, hru, rfl⟩
  have hmarked := (hready.reads hru).marked d.tokens.offset (.add backlink)
  have hdict : d.scope.dictionary.length ≤ d.limits.maxDictionaryEntries := by
    rw [scope, Dictionary.length_toList]
    exact hd.size
  obtain ⟨d', he⟩ : ∃ d', additions _ 0 _ = .error _ d' :=
    additions_full _ hmarked.bounded hdict hliterals hfull hu
  refine nextRecord_of_opened hadvance (.inl ?_) (bind_of_error (bind_of_error he _) _)
  show u.started = true
  rw [hru.frame]
  exact hstarted

end Full

end Decoder

/-! ## 2. Records that add strings -/

/-- The records in front of the next `add` record. -/
def Entry.beforeAdd (entries : List Entry) : List Entry :=
  entries.takeWhile fun entry => entry.record.kind ≠ .add

/-- In front of the next `add` record there is none. -/
theorem Entry.kind_of_mem_beforeAdd {entry : Entry} {entries : List Entry}
    (h : entry ∈ Entry.epoch (Entry.beforeAdd entries)) : entry.record.kind ≠ .add := by
  have hbefore : entry ∈ Entry.beforeAdd entries := List.takeWhile_subset _ h
  have hall : (Entry.beforeAdd entries).all (fun entry => entry.record.kind ≠ .add) = true :=
    List.all_takeWhile
  simpa using List.all_eq_true.mp hall entry hbefore

/-- An `add` record is its tag, its backlink, string literals and the terminator, and there is room
for the strings. -/
theorem Grammar.Record.add_of_kind {limits : Limits} {s : Scope} {bs : List UInt8} {entry : Entry}
    {after : List String} (h : Record limits s bs entry after) (hkind : entry.record.kind = .add) :
    ∃ (digits literals : List UInt8) (backlink : Nat) (strings : List String),
      Varint.Spells digits backlink ∧ s.lastDictionary + backlink = s.offset ∧
      Sequence (StringLiteral limits) literals strings ∧
      s.dictionary.length + strings.length ≤ limits.maxDictionaryEntries ∧
      bs = Tag.add.byte :: (digits ++ (literals ++ Format.terminator)) ∧
      entry = ⟨s.offset, some backlink, .add strings.length⟩ ∧
      after = s.dictionary ++ strings := by
  cases h with
  | add spells linked sequence limit =>
    exact ⟨_, _, _, _, spells, linked, sequence, limit, rfl, rfl, rfl⟩
  | _ => cases hkind

namespace Decoder

open Grammar

/-! ## 3. The copy -/

/-- The bytes with a copy of a record right behind it. -/
def copied (bytes : List UInt8) (span : Span) : List UInt8 :=
  bytes.take span.stop ++ bytes.drop span.entry.offset

variable {limits : Limits} {bytes pre bs rest : List UInt8} {values : List Json} {span : Span}
  {front behind : List Span} {s t : Scope} {after : List String} {backlink : Nat}

namespace Amid

/-- In a copied stream, the bytes of the record stand there twice. -/
theorem copied_eq (h : Amid limits bytes front span behind pre bs rest s after t) :
    copied bytes span = (pre ++ bs) ++ (bs ++ rest) := by
  rw [copied, h.take_stop, h.drop_start]

theorem upTo (h : Amid limits bytes front span behind pre bs rest s after t) :
    Records limits .start (pre ++ bs) ((front ++ [span]).map Span.entry)
      (s.after bs span.entry after) := by
  rw [List.map_append]
  exact h.before.append (.single h.record)

theorem headed_upTo (h : Amid limits bytes front span behind pre bs rest s after t)
    (hkind : span.entry.record.kind = .add) : Headed ((front ++ [span]).map Span.entry) := by
  rw [List.map_append]
  exact (h.headed_front (by rw [hkind]; decide) _).2

theorem length_eq (h : Amid limits bytes front span behind pre bs rest s after t) :
    span.stop - span.entry.offset = bs.length := by
  rw [h.start, h.stop, Nat.add_sub_cancel_left]

/-- A backlink of the copy that does not lead to the record in front of it.  The record in front is
the original, which changed the dictionary, so the distance would have to be the length of the
record. -/
theorem copied_desync (h : Amid limits bytes front span behind pre bs rest s after t)
    (hkind : span.entry.record.kind = .add) (hlink : span.entry.backlink = some backlink)
    (hne : bs.length ≠ backlink) :
    ∃ final, Run.Fails (nextRecord .decoded) (ofFeed (Tape.ofBytes (copied bytes span)) limits)
      ((front ++ [span]).map Span.entry) (.desync span.stop span.entry.offset backlink) final := by
  obtain ⟨_, _, _, _, -, -, -, -, -, hentry, -⟩ := h.record.add_of_kind hkind
  have hlast : (s.after bs span.entry after).lastDictionary = span.entry.offset := by
    rw [hentry]
    rfl
  have hoffset : (s.after bs span.entry after).offset = span.stop := by
    show s.offset + bs.length = span.stop
    rw [h.scope_offset, h.stop, h.start]
  have hdesync : span.entry.offset + backlink ≠ span.stop := by
    have hstart := h.start
    have hstop := h.stop
    omega
  rw [← hlast, ← hoffset] at hdesync ⊢
  rw [h.copied_eq]
  exact fails_of_desync h.upTo (h.headed_upTo hkind) h.record (.inl hkind) hlink hdesync

/-- A copy for the strings of which there is no room.  The record itself added as many strings, so
the copy would bring the dictionary to the size that is refused. -/
theorem copied_full (h : Amid limits bytes front span behind pre bs rest s after t)
    (hkind : span.entry.record.kind = .add) (hlink : span.entry.backlink = some bs.length)
    (hfull : limits.maxDictionaryEntries < after.length + (after.length - s.dictionary.length)) :
    ∃ final, Run.Fails (nextRecord .decoded) (ofFeed (Tape.ofBytes (copied bytes span)) limits)
      ((front ++ [span]).map Span.entry) (.limit (.dictionary limits.maxDictionaryEntries))
      final := by
  obtain ⟨digits, literals, backlink, strings, hspells, -, hliterals, -, hbs, hentry, rfl⟩ :=
    h.record.add_of_kind hkind
  rw [hentry, Option.some.injEq] at hlink
  rw [h.copied_eq]
  refine fails_behind h.upTo (h.headed_upTo hkind) fun d hd hlimits hscope hrest hstarted => ?_
  subst hlimits
  rw [hentry] at hscope
  rw [hbs, List.cons_append, List.append_assoc, List.append_assoc] at hrest
  refine nextRecord_full hd (hstarted (by simp)) hspells ?_ hliterals ?_ hrest
  · rw [hscope, hlink]
    rfl
  · rw [hscope]
    simp only [Scope.after, List.length_append] at hfull ⊢
    omega

/-- A copy that is taken for a record, and records behind it as before, if none of them adds to the
dictionary in this epoch.  The records behind are further on by the length of the copy, and have its
strings too many (`Records.moved`). -/
theorem copied_records (h : Amid limits bytes front span behind pre bs rest s after t)
    (hkind : span.entry.record.kind = .add) (hlink : span.entry.backlink = some bs.length)
    (hroom : after.length + (after.length - s.dictionary.length) ≤ limits.maxDictionaryEntries)
    {cs : List UInt8} {entries : List Entry} {u : Scope}
    (hbehind : Records limits (s.after bs span.entry after) cs entries u)
    (hadd : ∀ entry ∈ Entry.epoch entries, entry.record.kind ≠ .add) :
    ∃ copies final, Entry.values copies = Entry.values entries ∧
      Records limits .start ((pre ++ bs) ++ (bs ++ cs)) ((front ++ [span]).map Span.entry ++ copies)
        final := by
  obtain ⟨digits, literals, backlink, strings, hspells, -, hliterals, -, hbs, hentry, rfl⟩ :=
    h.record.add_of_kind hkind
  rw [hentry, Option.some.injEq] at hlink
  obtain ⟨left, hmoved⟩ : ∃ left, Records limits (Scope.moved bs.length strings _) cs
      (entries.map (Entry.shift bs.length)) (u.moved bs.length left) :=
    hbehind.moved bs.length (.inr hadd)
  have hlinked : (s.after bs span.entry (s.dictionary ++ strings)).lastDictionary + backlink =
      (s.after bs span.entry (s.dictionary ++ strings)).offset := by
    rw [hentry, hlink]
    rfl
  have hlimit : (s.after bs span.entry (s.dictionary ++ strings)).dictionary.length +
      strings.length ≤ limits.maxDictionaryEntries := by
    simp only [Scope.after, List.length_append] at hroom ⊢
    omega
  -- The copy is a record of the grammar in the scope behind the original.
  have hcopy := Grammar.Record.add hspells hlinked hliterals hlimit
  rw [← hbs] at hcopy
  have hafter : (s.after bs span.entry (s.dictionary ++ strings)).after bs
        ⟨(s.after bs span.entry (s.dictionary ++ strings)).offset, some backlink,
          .add strings.length⟩ (s.dictionary ++ strings ++ strings) =
      (s.after bs span.entry (s.dictionary ++ strings)).moved bs.length strings := by
    rw [hentry]
    rfl
  -- The scope behind the copy is the one behind the original, moved on.
  rw [← hafter] at hmoved
  refine ⟨_ :: entries.map (Entry.shift bs.length), _, ?_, h.upTo.append (.cons hcopy hmoved)⟩
  rw [Entry.values_cons_of_kind (by simp [DictLog.Record.kind]), Entry.values_map_shift]

/-- Up to the next `add` record, values are what they were.  No index has changed its meaning there:
the copy adds strings behind those that are referred to. -/
theorem copied_prefix (h : Amid limits bytes front span behind pre bs rest s after t)
    (hkind : span.entry.record.kind = .add) (hlink : span.entry.backlink = some bs.length)
    (hroom : after.length + (after.length - s.dictionary.length) ≤ limits.maxDictionaryEntries) :
    Entry.values ((front ++ [span]).map Span.entry ++ Entry.beforeAdd (behind.map Span.entry)) <+:
      (ofFeed (Tape.ofBytes (copied bytes span)) limits).values.items := by
  have hsplit : Entry.beforeAdd (behind.map Span.entry) ++ _ = behind.map Span.entry :=
    List.takeWhile_append_dropWhile
  have honward := h.onward
  rw [← hsplit] at honward
  obtain ⟨cs, ds, u, rfl, hbefore, -⟩ := honward.split
  obtain ⟨copies, final, hvalues, hrecords⟩ :=
    h.copied_records hkind hlink hroom hbefore fun _ => Entry.kind_of_mem_beforeAdd
  have hbytes : copied bytes span = ((pre ++ bs) ++ (bs ++ cs)) ++ ds := by
    rw [h.copied_eq]
    simp
  have hbetween := between_ofFeed (Tape.ofBytes (copied bytes span)) limits
  obtain ⟨d, hyields, -⟩ := yields_complete hrecords hbetween rfl rfl
    (.inr ((h.headed_upTo hkind).append copies (by simp))) hbytes
  have hprefix := prefix_values_of_yields hyields hbetween rfl
  rw [Entry.values_append, hvalues, ← Entry.values_append] at hprefix
  exact hprefix

/-- If there is no other `add` record in the epoch, values are what they were, to the end.  The next
`clear` record leaves nothing of the copy. -/
theorem copied_values (h : Amid limits bytes front span behind pre bs rest s after t)
    (hkind : span.entry.record.kind = .add) (hlink : span.entry.backlink = some bs.length)
    (hroom : after.length + (after.length - s.dictionary.length) ≤ limits.maxDictionaryEntries)
    (hadd : ∀ entry ∈ Entry.epoch (behind.map Span.entry), entry.record.kind ≠ .add)
    (hvalues : decodeValues bytes limits = .ok values) :
    decodeValues (copied bytes span) limits = .ok values := by
  obtain ⟨copies, final, hcopies, hrecords⟩ := h.copied_records hkind hlink hroom h.onward hadd
  rw [← h.copied_eq] at hrecords
  have hheaded := (h.headed_upTo hkind).append copies (by simp)
  rw [decodeValues_of_stream ⟨hrecords, hheaded⟩, h.values_eq hvalues, Entry.values_append, hcopies,
    ← Entry.values_append, ← List.map_append]
  simp

end Amid

/-- **A copy is found, or it changes nothing up to the next `add` record.**  Take a stream that a
decoder accepts, whoever wrote it, any `add` record of it, and put a copy of the record right behind
it.  If the record is not as long as its backlink says, the decoder returns the records up to the
first of the two, and finds fault with the copy, which the backlink does not lead back from.  If it
is, the copy is refused for want of room in the dictionary, or nothing changes up to the next `add`
record, and nothing at all if none follows in the epoch.

So other values are decoded only if the record is as long as its backlink says and another `add`
record follows in the epoch. -/
theorem values_of_copied (limits : Limits) (bytes : List UInt8) (values : List Json)
    (haccepted : decodeValues bytes limits = .ok values) :
    ∀ front span behind, spans bytes limits = front ++ span :: behind →
      span.entry.record.kind = .add →
      let run := (ofFeed (Tape.ofBytes (copied bytes span)) limits).records .decoded
      let upTo := (front ++ [span]).map Span.entry
      let onward := behind.map Span.entry
      ∃ backlink, span.entry.backlink = some backlink ∧
        (span.stop - span.entry.offset ≠ backlink →
          run.items = upTo ∧
            run.failure = some (.desync span.stop span.entry.offset backlink)) ∧
        (span.stop - span.entry.offset = backlink →
          run.items = upTo ∧
              run.failure = some (.limit (.dictionary limits.maxDictionaryEntries)) ∨
            Entry.values (upTo ++ Entry.beforeAdd onward) <+:
                (ofFeed (Tape.ofBytes (copied bytes span)) limits).values.items ∧
              ((∀ entry ∈ Entry.epoch onward, entry.record.kind ≠ .add) →
                decodeValues (copied bytes span) limits = .ok values)) ∧
        ∀ found, decodeValues (copied bytes span) limits = .ok found → found ≠ values →
          span.stop - span.entry.offset = backlink ∧
            ∃ entry ∈ Entry.epoch onward, entry.record.kind = .add := by
  intro front span behind hspans hkind run upTo onward
  obtain ⟨pre, bs, rest, s, after, t, h⟩ := exists_amid haccepted hspans
  obtain ⟨backlink, hlink, -⟩ := h.record.linked_of_kind (.inl hkind)
  rw [h.length_eq]
  refine ⟨backlink, hlink, ?_⟩
  -- The backlink of the copy is a distance from the original.  So it can lead back only if the
  -- record is as long as it says, and that decides between the two cases of the statement.
  by_cases heq : bs.length = backlink
  · subst heq
    -- The copy is met as a record.  Its strings are as many as the original brought in, and the
    -- dictionary has room for them or not.
    rcases Nat.lt_or_ge limits.maxDictionaryEntries
      (after.length + (after.length - s.dictionary.length)) with hfull | hroom
    · -- No room: the run stops at the copy, with the records in front of it returned.
      obtain ⟨_, hfails⟩ := h.copied_full hkind hlink hfull
      have hrun : run = _ := records_of_fails rfl hfails
      rw [hrun, decodeValues_of_fails hfails]
      exact ⟨fun hne => absurd rfl hne, fun _ => .inl ⟨rfl, rfl⟩, nofun⟩
    · -- There is room.  Other values than before would need an `add` record in the epoch, for
      -- without one the values are the same; hence the argument by contradiction.
      have hsame (hadd : ∀ entry ∈ Entry.epoch onward, entry.record.kind ≠ .add) :=
        h.copied_values hkind hlink hroom hadd haccepted
      refine ⟨fun hne => absurd rfl hne,
        fun _ => .inr ⟨h.copied_prefix hkind hlink hroom, hsame⟩, fun found hfound hother =>
          ⟨rfl, Classical.byContradiction fun hnone => hother ?_⟩⟩
      rw [hsame fun entry hentry hkind => hnone ⟨entry, hentry, hkind⟩] at hfound
      cases hfound
      rfl
  · -- The copy is refused, and so there are no other values to speak of.
    obtain ⟨_, hfails⟩ := h.copied_desync hkind hlink heq
    have hrun : run = _ := records_of_fails rfl hfails
    rw [hrun, decodeValues_of_fails hfails]
    exact ⟨fun _ => ⟨rfl, rfl⟩, fun hsame => absurd hsame heq, nofun⟩

/-- The record that announces the key of a single value is longer than its backlink says. -/
theorem values_of_copied_single :
    let bytes :=
      [0x48, 0x49, 0x01, 0x45, 0x0A, 0x43, 0x45, 0x0A, 0x41, 0x03, 0x53, 0x01, 0x61, 0x45, 0x0A,
        0x56, 0x07, 0x05, 0x7B, 0x58, 0x00, 0x4E, 0x7D, 0x45, 0x0A]
    let span : Span := ⟨⟨8, some 3, .add 1⟩, 15⟩
    let run := (ofFeed (Tape.ofBytes (copied bytes span)) {}).records .decoded
    decodeValues bytes {} = .ok [.object [("a", .null)]] ∧
      spans bytes {} = (spans bytes {}).take 2 ++ span :: (spans bytes {}).drop 3 ∧
      span.entry.record.kind = .add ∧ run.failure = some (.desync 15 8 3) := by
  intro bytes span run
  have haccepted : decodeValues bytes {} = .ok [.object [("a", .null)]] := by decide +kernel
  have hspans : spans bytes {} = (spans bytes {}).take 2 ++ span :: (spans bytes {}).drop 3 := by
    decide +kernel
  obtain ⟨backlink, hlink, hdesync, -⟩ :=
    values_of_copied {} bytes _ haccepted _ span _ hspans rfl
  cases hlink
  exact ⟨haccepted, hspans, rfl, (hdesync (by decide)).2⟩

/-- The record that announces the second key is as long as its backlink says, and so a copy of it is
taken for a record.  The third key then is a string further on in the dictionary than where the
third value refers to: the second key. -/
theorem copied_changes :
    let named (key : String) : Json := .object [(key, .null)]
    let values := [named "a", named "bbbbbbbbbbb", named "c"]
    let bytes :=
      [0x48, 0x49, 0x01, 0x45, 0x0A, 0x43, 0x45, 0x0A, 0x41, 0x03, 0x53, 0x01, 0x61, 0x45, 0x0A,
        0x56, 0x07, 0x05, 0x7B, 0x58, 0x00, 0x4E, 0x7D, 0x45, 0x0A,
        0x41, 0x11, 0x53, 0x0B, 0x62, 0x62, 0x62, 0x62, 0x62, 0x62, 0x62, 0x62, 0x62, 0x62, 0x62,
        0x45, 0x0A, 0x56, 0x11, 0x05, 0x7B, 0x58, 0x01, 0x4E, 0x7D, 0x45, 0x0A,
        0x41, 0x1B, 0x53, 0x01, 0x63, 0x45, 0x0A, 0x56, 0x07, 0x05, 0x7B, 0x58, 0x02, 0x4E, 0x7D,
        0x45, 0x0A]
    let span : Span := ⟨⟨25, some 17, .add 1⟩, 42⟩
    encodeValues values {} = .ok bytes ∧ decodeValues bytes {} = .ok values ∧
      spans bytes {} = (spans bytes {}).take 4 ++ span :: (spans bytes {}).drop 5 ∧
      span.entry.record.kind = .add ∧
      decodeValues (copied bytes span) {} =
        .ok [named "a", named "bbbbbbbbbbb", named "bbbbbbbbbbb"] ∧
      [named "a", named "bbbbbbbbbbb", named "bbbbbbbbbbb"] ≠ values := by
  intro named values bytes span
  refine ⟨by decide +kernel, by decide +kernel, by decide +kernel, rfl, by decide +kernel, ?_⟩
  simp [values, named]

end Decoder

end DictLog
