/-
# Three accounts of one stream

Whoever encodes a text keeps counts, and so do those who decode the stream or list its records.  The
counts are kept in different places, and they agree (`accounts_agree`).  What they have in common is
the records: an encoder has counted those that it wrote (`Shapes.stats`), and a reader finds these,
one for one (`Records.tallied`).

A listing also reports how large the dictionary ever was.  That is the largest number of strings
that any epoch has announced (`foldl_max_listed`).
-/
import DictLog.Proofs.Lines
import DictLog.Proofs.Lockstep
import DictLog.Proofs.OnePass
import DictLog.Proofs.Shape

namespace DictLog

/-! ## 1. Records that were written, as they are read -/

/-- How many strings a record announces. -/
def Wire.Draft.added : Draft → Nat
  | add _ strings => strings.length
  | _ => 0

/-- Counts that go on from others by these records, which take these bytes. -/
structure EncodeStats.Tallied (stats : EncodeStats) (entries : List Entry) (bytes : List UInt8)
    (counted : EncodeStats) : Prop where
  valueRecords : counted.valueRecords = stats.valueRecords + Grammar.count .value entries
  addRecords : counted.addRecords = stats.addRecords + Grammar.count .add entries
  clearRecords : counted.clearRecords = stats.clearRecords + Grammar.count .clear entries
  stringsInterned : counted.stringsInterned = stats.stringsInterned + Entry.addedIn entries
  bytesFramed : counted.bytesFramed = stats.bytesFramed + bytes.length

namespace EncodeStats

open Wire

variable {stats counted : EncodeStats} {draft : Draft} {entry : Entry} {entries : List Entry}
  {bs cs : List UInt8}

theorem tallied_nil (stats : EncodeStats) : Tallied stats [] [] stats :=
  ⟨rfl, rfl, rfl, rfl, rfl⟩

/-- One record counts for its kind, its strings and its bytes. -/
theorem tallied_count (hkind : entry.record.kind = draft.kind) (hadded : entry.added = draft.added)
    (stats : EncodeStats) : Tallied stats [entry] draft.bytes (stats.count draft) := by
  cases draft <;>
    constructor <;>
      simp_all [EncodeStats.count, Grammar.count, Entry.addedIn, Draft.kind, Draft.added]

/-- The bytes that are counted are those of the records. -/
theorem bytesFramed_foldl (drafts : List Draft) : ∀ stats : EncodeStats,
    (drafts.foldl count stats).bytesFramed =
      stats.bytesFramed + (drafts.flatMap Draft.bytes).length := by
  induction drafts with
  | nil => exact fun _ => rfl
  | cons draft drafts ih =>
    intro stats
    have hdraft : (stats.count draft).bytesFramed = stats.bytesFramed + draft.bytes.length := by
      cases draft <;> rfl
    rw [List.foldl_cons, ih, hdraft, List.flatMap_cons, List.length_append, Nat.add_assoc]

/-- The `value` records that are counted are those with a payload, so the summary counts a value for
each payload that was written. -/
theorem valueRecords_foldl (drafts : List Draft) : ∀ stats : EncodeStats,
    (drafts.foldl count stats).valueRecords =
      stats.valueRecords + (drafts.filterMap Draft.payload?).length := by
  induction drafts with
  | nil => exact fun _ => rfl
  | cons draft drafts ih =>
    intro stats
    rw [List.foldl_cons, ih]
    cases draft with
    | value backlink payload => exact Nat.add_right_comm ..
    | _ => rfl

/-- The `clear` records that are counted are those of that kind. -/
theorem clearRecords_foldl (drafts : List Draft) : ∀ stats : EncodeStats,
    (drafts.foldl count stats).clearRecords =
      stats.clearRecords + (drafts.map Draft.kind).count .clear := by
  induction drafts with
  | nil => exact fun _ => rfl
  | cons draft drafts ih =>
    intro stats
    rw [List.foldl_cons, ih]
    cases draft <;> simp only [count, List.map_cons, Draft.kind, List.count_cons] <;> grind

/-- Counting goes on from what has been counted.  This is how the tally of a run is put together from
those of its records. -/
theorem Tallied.cons (h : Tallied stats [entry] bs (stats.count draft))
    (k : Tallied (stats.count draft) entries cs counted) :
    Tallied stats (entry :: entries) (bs ++ cs) counted where
  valueRecords := by
    rw [k.valueRecords, h.valueRecords, Grammar.count_cons _ entry entries, Nat.add_assoc]
  addRecords := by
    rw [k.addRecords, h.addRecords, Grammar.count_cons _ entry entries, Nat.add_assoc]
  clearRecords := by
    rw [k.clearRecords, h.clearRecords, Grammar.count_cons _ entry entries, Nat.add_assoc]
  stringsInterned := by
    rw [k.stringsInterned, h.stringsInterned]
    simp only [Entry.addedIn]
    omega
  bytesFramed := by rw [k.bytesFramed, h.bytesFramed, List.length_append, Nat.add_assoc]

end EncodeStats

namespace Grammar

open Wire

variable {limits : Limits} {s t : Scope} {bs : List UInt8} {entry : Entry} {entries : List Entry}
  {after : List String} {draft : Draft} {announced : List String} {drafts : List Draft}

/-- A record that stands where one was written announces as many strings.  It is of the same kind,
and what the dictionary grows by is the same on both sides. -/
theorem Record.added_of_draft (h : Record limits s bs entry after)
    (hkind : entry.record.kind = draft.kind)
    (hsize : after.length = draft.sizeAfter s.dictionary.length) : entry.added = draft.added := by
  have hlength := h.length_after
  rw [hsize] at hlength
  obtain ⟨offset, backlink, record⟩ := entry
  cases record <;> cases draft <;> cases hkind
  · rfl
  · rfl
  · exact (Nat.add_left_cancel hlength).symm
  · rfl

/-- Records that were written are read one for one.  The bytes alone determine where each of them
ends, whatever limits they are read under, so the two lists go along with each other. -/
theorem Records.tallied (h : Records limits s bs entries t) : ∀ {drafts : List Draft},
    bs = drafts.flatMap Draft.bytes → ∀ stats : EncodeStats,
      stats.Tallied entries bs (drafts.foldl EncodeStats.count stats) ∧
        entries.map (·.record.kind) = drafts.map Draft.kind := by
  induction h with
  | nil =>
    intro drafts heq stats
    cases drafts with
    | nil => exact ⟨EncodeStats.tallied_nil stats, rfl⟩
    | cons draft drafts => cases draft <;> cases heq
  | cons head _ ih =>
    intro drafts heq stats
    obtain ⟨draft, more, rfl, rfl, hrest, hkind, hsize⟩ := head.first_of_drafts heq
    obtain ⟨htail, hkinds⟩ := ih hrest (stats.count draft)
    have hadded := head.added_of_draft hkind hsize
    exact ⟨(EncodeStats.tallied_count hkind hadded stats).cons htail, by
      rw [List.map_cons, List.map_cons, hkind, hkinds]⟩

/-- Records of which none is a header are of the other three kinds, and those are the ones that are
counted. -/
theorem length_of_headless (h : ∀ entry ∈ entries, entry.record.kind ≠ .header) :
    entries.length = count .value entries + count .add entries + count .clear entries := by
  induction entries with
  | nil => rfl
  | cons entry rest ih =>
    obtain ⟨hhead, hrest⟩ := List.forall_mem_cons.mp h
    have hone : count .value [entry] + count .add [entry] + count .clear [entry] = 1 := by
      cases hkind : entry.record.kind with
      | header => exact absurd hkind hhead
      | _ => simp [count, hkind]
    rw [List.length_cons, ih hrest, count_cons .value entry, count_cons .add entry,
      count_cons .clear entry]
    omega

/-- Each `value` record has its value, so there are as many values as such records. -/
theorem Records.length_values (h : Records limits s bs entries t) :
    (Entry.values entries).length = count .value entries := by
  induction h with
  | nil => rfl
  | @cons s t bs cs entry entries after head _ ih =>
    rw [count_cons, ← ih]
    by_cases hkind : entry.record.kind = .value
    · obtain ⟨n, v, hv⟩ := head.value_of_kind hkind
      have hvalue : entry.value? = some v := by simp [Entry.value?, hv]
      simp [Entry.values, hvalue, count, hkind]
      omega
    · have hvalue : entry.value? = none := by
        unfold Entry.value?
        split
        · rename_i n v hv
          exact absurd (congrArg Record.kind hv) hkind
        · rfl
      simp [Entry.values, hvalue, count, hkind]

end Grammar

namespace Wire

variable {announced : List String} {drafts : List Draft}

/-- Behind the first one there is no other header. -/
theorem Shaped.ne_header (h : Shaped announced drafts) : ∀ draft ∈ drafts, draft.kind ≠ .header := by
  induction h with
  | nil => exact nofun
  | clear _ ih => exact List.forall_mem_cons.mpr ⟨nofun, ih⟩
  | value _ _ ih => exact List.forall_mem_cons.mpr ⟨nofun, ih⟩
  | add _ _ _ ih => exact List.forall_mem_cons.mpr ⟨nofun, ih⟩

/-- Of records that were written in shape, the first alone is a header.  A listing counts it as a
record, and counts no kind of record for it. -/
theorem Shaped.length_eq {entries : List Entry} (h : Shaped announced drafts)
    (hkinds : entries.map (·.record.kind) = (Draft.header :: .clear :: drafts).map Draft.kind) :
    entries.length = 1 + Grammar.count .value entries + Grammar.count .add entries +
      Grammar.count .clear entries := by
  cases entries with
  | nil => cases hkinds
  | cons header rest =>
    obtain ⟨hheader, hrest⟩ := List.cons.inj hkinds
    have hclear : ∀ draft ∈ Draft.clear :: drafts, draft.kind ≠ .header :=
      List.forall_mem_cons.mpr ⟨by decide, h.ne_header⟩
    have hheadless : ∀ entry ∈ rest, entry.record.kind ≠ .header := by
      intro entry hentry
      have hmem := List.mem_map_of_mem (f := (·.record.kind)) hentry
      rw [hrest] at hmem
      obtain ⟨draft, hdraft, hkind⟩ := List.mem_map.mp hmem
      exact hkind ▸ hclear draft hdraft
    have hnone : ∀ kind ≠ RecordKind.header, Grammar.count kind [header] = 0 := by
      intro kind hne
      change header.record.kind = .header at hheader
      simp [Grammar.count, hheader, Ne.symm hne]
    rw [List.length_cons, Grammar.length_of_headless hheadless, Grammar.count_cons .value header,
      Grammar.count_cons .add header, Grammar.count_cons .clear header,
      hnone .value (by decide), hnone .add (by decide), hnone .clear (by decide)]
    omega

end Wire

/-! ## 2. Values that are all accepted -/

namespace Call

variable {e : Encoder} {values : List Json}

/-- Each value that is accepted has its payload.  A call that was refused would have none, which is
why all have to be accepted. -/
theorem length_allPayloads : ∀ {values : List Json} {e : Encoder},
    (Emission.forEach Encoder.put values e).outcome = .ok () →
      (allPayloads e (values.map .put)).length = values.length := by
  intro values
  induction values with
  | nil => exact fun _ => rfl
  | cons v values ih =>
    intro e hok
    rw [Emission.forEach_cons] at hok
    obtain ⟨hput, hrest⟩ := Emission.outcome_andThen.mp hok
    rw [List.map_cons, allPayloads, List.length_append, payloads, hput]
    have htail := ih hrest
    simp only [List.length_cons, List.length_nil]
    rw [show (put v).emit e = e.put v from rfl, htail]
    omega

end Call

namespace Output

/-- What is emitted for values that are all accepted is what putting them one after the other emits,
as no step fails that would stop the sequence. -/
theorem run_puts : ∀ {values : List Json} {out : Output},
    (Emission.forEach Encoder.put values out.encoder).outcome = .ok () →
      out.run (values.map .put) =
        ⟨out.bytes ++ (Emission.forEach Encoder.put values out.encoder).bytes,
          (Emission.forEach Encoder.put values out.encoder).state⟩ := by
  intro values
  induction values with
  | nil =>
    intro out _
    simp [run, Emission.skip, Emission.write]
  | cons v values ih =>
    intro out hok
    rw [Emission.forEach_cons] at hok ⊢
    obtain ⟨hput, hrest⟩ := Emission.outcome_andThen.mp hok
    rw [Emission.andThen_of_ok hput, List.map_cons, run, List.foldl_cons, ← run]
    have htail := @ih (out.step (.put v)) hrest
    rw [htail, ← List.append_assoc]
    rfl

end Output

/-! ## 3. Texts that are encoded -/

namespace Ndjson

open Wire

variable {input : Tape} {options : EncodeOptions} {sink : Sink} {summary : EncodeSummary}

/-- Where encoding succeeds, the input has ended cleanly, all its lines say something, and the sink
has taken what they come to. -/
theorem encode_eq_ok (h : (encode input options sink).outcome = .ok summary) :
    ∃ values e', Good options.maxNestingDepth (Line.split input.rest) values ∧
      (Emission.forEach Encoder.put values (Encoder.new options).start.state).outcome = .ok () ∧
      Encoding.After (Line.split input.rest) values (opened options) e' ∧
      encode input options sink = ⟨stream options values, .ok e'.summary⟩ := by
  have hok : (encodeLines input options).outcome = .ok () := by
    cases houtcome : (encodeLines input options).outcome with
    | ok u => rfl
    | error fault =>
      cases sink with
      | accepting => simp [encode, houtcome, Except.map] at h
      | refusing cause =>
        simp only [encode, houtcome] at h
        split at h <;> cases h
  cases sink with
  | refusing cause => simp [encode, hok] at h
  | accepting =>
    have hending : input.ending = .clean := by
      cases hending : input.ending with
      | clean => rfl
      | failing cause =>
        rw [encodeLines, hending] at hok
        cases (Emission.outcome_andThen.mp hok).2
    -- So only the bytes of the input matter, and they are cut into lines.
    have hinput : encodeLines input options = encodeLines (Tape.ofBytes input.rest) options := by
      rw [encodeLines, encodeLines, Line.ofTape, Line.ofTape, hending]
      rfl
    have hencode : encode input options .accepting =
        encode (Tape.ofBytes input.rest) options .accepting := by
      rw [encode, encode, hinput]
    rw [hencode] at h ⊢
    have hcuts := Line.cuts_split input.rest
    rcases good_or_faulty options.maxNestingDepth (Line.split input.rest) 1 with
      ⟨values, hgood⟩ | ⟨good, values, bad, rest, fault, hlines, hgood, hbad⟩
    · obtain ⟨haccepted, e', hall, hafter⟩ := encodeLines_good hgood hcuts
      refine ⟨values, e', hgood, haccepted, hafter, ?_⟩
      rw [encode, hall]
      rfl
    · rw [Nat.add_comm] at hbad
      rw [(encode_faulty hgood hbad (hlines ▸ hcuts)).2] at h
      cases h

/-- Where encoding succeeds, the output is a header, a `clear` record and records in shape, and the
summary counts them. -/
theorem drafts_of_encode (h : (encode input options sink).outcome = .ok summary) :
    ∃ values drafts, Good options.maxNestingDepth (Line.split input.rest) values ∧
      (encode input options sink).output =
        ((Output.start options).run (values.map .put)).bytes ∧
      (encode input options sink).output =
        (Draft.header :: Draft.clear :: drafts).flatMap Draft.bytes ∧
      Shaped [] drafts ∧ (drafts.filterMap Draft.payload?).length = values.length ∧
      let stats := (Draft.header :: Draft.clear :: drafts).foldl EncodeStats.count {}
      ∃ lines blank, blank + values.length = lines ∧
        summary = ⟨lines, blank, stats.valueRecords, stats.addRecords, stats.clearRecords,
          stats.stringsInterned, input.rest.length, stats.bytesFramed⟩ := by
  obtain ⟨values, e', hgood, haccepted, hafter, hencode⟩ := encode_eq_ok h
  have hrun := @Output.run_puts values (Output.start options) haccepted
  obtain ⟨drafts, hbytes, hshapes, hpayloads⟩ :=
    Output.shapes_run (values.map .put) (Output.sound_start options)
  have hshaped := hshapes.shaped .nil
  rw [List.append_nil] at hshaped
  have hstart : (Output.start options).bytes =
      [Draft.header, Draft.clear].flatMap Draft.bytes := rfl
  have hstats : e'.session.encoder.stats =
      (Draft.header :: Draft.clear :: drafts).foldl EncodeStats.count {} := by
    have hfolded := hshapes.stats
    rw [hrun] at hfolded
    rw [hafter.encoder]
    exact hfolded
  have houtput : (encode input options sink).output =
      ((Output.start options).run (values.map .put)).bytes := by
    rw [hencode, hrun]
    rfl
  refine ⟨values, drafts, hgood, houtput, ?_, hshaped, ?_, ?_⟩
  · rw [houtput, hbytes, hstart, ← List.flatMap_append]
    rfl
  · rw [hpayloads]
    exact Call.length_allPayloads haccepted
  · rw [hencode] at h
    obtain rfl := Except.ok.inj h
    have hlines := hafter.linesRead
    have hblank := hafter.blankLines
    have hbytes := hafter.bytesIn
    rw [Line.flatten_split] at hbytes
    simp only [opened, Nat.zero_add] at hlines hblank hbytes
    refine ⟨e'.linesRead, e'.blankLines, hblank.trans hlines.symm, ?_⟩
    rw [Encoding.summary, hstats, hbytes]

end Ndjson

/-! ## 4. Listings of records -/

/-- The records between the `clear` records. -/
def Entry.epochs (entries : List Entry) : List (List Entry) :=
  entries.splitOnP fun entry => entry.record.kind = .clear

namespace Entry

variable {entry : Entry} {entries : List Entry} {payloads : Payloads} {kind : RecordKind}

theorem kind_under (payloads : Payloads) (entry : Entry) :
    (entry.under payloads).record.kind = entry.record.kind := by
  obtain ⟨offset, backlink, record⟩ := entry
  cases record <;> cases payloads <;> rfl

theorem added_under (payloads : Payloads) (entry : Entry) :
    (entry.under payloads).added = entry.added := by
  obtain ⟨offset, backlink, record⟩ := entry
  cases record <;> cases payloads <;> rfl

theorem sizeAfter_under (payloads : Payloads) (size : Nat) (entry : Entry) :
    (entry.under payloads).sizeAfter size = entry.sizeAfter size := by
  obtain ⟨offset, backlink, record⟩ := entry
  cases record <;> cases payloads <;> rfl

theorem count_under (payloads : Payloads) (entries : List Entry) :
    Grammar.count kind (entries.map (under payloads)) = Grammar.count kind entries := by
  simp only [Grammar.count, List.countP_map, Function.comp_def, kind_under]

theorem addedIn_under (payloads : Payloads) (entries : List Entry) :
    addedIn (entries.map (under payloads)) = addedIn entries := by
  induction entries with
  | nil => rfl
  | cons entry rest ih => rw [List.map_cons, addedIn, addedIn, added_under, ih]

/-- A record adds to the dictionary, or empties it. -/
theorem sizeAfter_eq (size : Nat) (entry : Entry) :
    entry.sizeAfter size = if entry.record.kind = .clear then 0 else size + entry.added := by
  obtain ⟨offset, backlink, record⟩ := entry
  cases record <;> rfl

end Entry

namespace Row

/-- Leaving values out changes neither the order of the rows nor the sizes. -/
theorem map_under_listed (payloads : Payloads) (entries : List Entry) : ∀ size,
    (listed size entries).map (under payloads) = listed size (entries.map (Entry.under payloads)) := by
  induction entries with
  | nil => exact fun _ => rfl
  | cons entry rest ih =>
    intro size
    rw [List.map_cons, listed, listed, List.map_cons, ih, Entry.sizeAfter_under]
    rfl

/-- The largest dictionary of some rows is the largest of the sums of what the epochs announce.
`size` is what the epoch that is going on has announced so far, and `most` the most that any epoch
did. -/
theorem foldl_max_listed (entries : List Entry) : ∀ size most, ∃ first others,
    Entry.epochs entries = first :: others ∧
      ((listed size entries).map Row.dictionaryEntries).foldl max (max most size) =
        (others.map Entry.addedIn).foldl max (max most (size + Entry.addedIn first)) := by
  induction entries with
  | nil => exact fun size most => ⟨[], [], rfl, rfl⟩
  | cons entry rest ih =>
    intro size most
    rw [Entry.epochs, List.splitOnP_cons_eq_if_modifyHead, ← Entry.epochs, listed,
      Entry.sizeAfter_eq]
    by_cases hclear : entry.record.kind = .clear
    · -- An epoch is over.  What it came to is kept as the most so far, and the next one begins
      -- with nothing.
      obtain ⟨first, others, hepochs, hmost⟩ := ih 0 (max most size)
      refine ⟨[], first :: others, ?_, ?_⟩
      · rw [if_pos (decide_eq_true hclear), hepochs]
      · rw [if_pos hclear, List.map_cons, List.foldl_cons, hmost, Nat.zero_add]
        rfl
    · obtain ⟨first, others, hepochs, hmost⟩ := ih (size + entry.added) most
      refine ⟨entry :: first, others, ?_, ?_⟩
      · rw [if_neg (by simpa using hclear), hepochs]
        rfl
      · have hgrown : max (max most size) (size + entry.added) = max most (size + entry.added) := by
          omega
        rw [if_neg hclear, List.map_cons, List.foldl_cons, hgrown, hmost, Entry.addedIn,
          Nat.add_assoc]

end Row

namespace Listing

variable {limits : Limits} {bytes : List UInt8} {entries : List Entry} {s : Grammar.Scope}

/-- What a summary counts of some rows: all of them, those of each kind, and the largest dictionary
behind any. -/
theorem foldl_add (rows : List Row) : ∀ summary : ListingSummary,
    let total := rows.foldl ListingSummary.add summary
    total.records = summary.records + rows.length ∧
      total.valueRecords = summary.valueRecords + Grammar.count .value (rows.map Row.entry) ∧
      total.addRecords = summary.addRecords + Grammar.count .add (rows.map Row.entry) ∧
      total.clearRecords = summary.clearRecords + Grammar.count .clear (rows.map Row.entry) ∧
      total.maxDictionaryEntries =
        (rows.map Row.dictionaryEntries).foldl max summary.maxDictionaryEntries := by
  induction rows with
  | nil => exact fun _ => ⟨rfl, rfl, rfl, rfl, rfl⟩
  | cons row rows ih =>
    intro summary
    obtain ⟨hrecords, hvalues, hadds, hclears, hmost⟩ := ih (summary.add row)
    simp only [List.foldl_cons, List.map_cons, List.length_cons,
      Grammar.count_cons _ row.entry (rows.map Row.entry)]
    rw [hrecords, hvalues, hadds, hclears, hmost]
    obtain ⟨⟨offset, backlink, record⟩, size⟩ := row
    cases record <;> simp [ListingSummary.add, Grammar.count, Record.kind] <;> omega

/-- A listing of a stream, with the values or without.  Leaving values out changes neither the kind
of a record nor what it announces, so the counts are those of the full listing. -/
theorem all_of_stream (h : Grammar.Stream limits bytes entries s) (payloads : Payloads) :
    ∃ listed, all (Tape.ofBytes bytes) limits payloads =
        ⟨Row.listed 0 (entries.map (Entry.under payloads)), .ok listed⟩ ∧
      listed.records = entries.length ∧ listed.valueRecords = Grammar.count .value entries ∧
      listed.addRecords = Grammar.count .add entries ∧
      listed.clearRecords = Grammar.count .clear entries ∧
      ((Entry.epochs (entries.map (Entry.under payloads))).map Entry.addedIn).max? =
        some listed.maxDictionaryEntries ∧
      listed.finalDictionaryEntries = s.dictionary.length ∧ listed.bytes = bytes.length := by
  obtain ⟨final, hends, hscope, hstats⟩ := Decoder.ends_of_stream h
  have hfull := run_of_ends hends
  have hfailure : (run (Tape.ofBytes bytes) limits .decoded).failure = none := by rw [hfull]
  have hrun := run_under hfailure payloads
  rw [hfull] at hrun
  have hsize : final.dictionary.size = s.dictionary.length := by
    rw [← hscope, Decoder.scope, Dictionary.length_toList]
  obtain ⟨hrecords, hvalues, hadds, hclears, hmost⟩ :=
    foldl_add (Row.listed 0 (entries.map (Entry.under payloads))) {}
  obtain ⟨first, others, hepochs, hlargest⟩ :=
    Row.foldl_max_listed (entries.map (Entry.under payloads)) 0 0
  rw [Row.map_entry_listed, Entry.count_under, Nat.zero_add] at hvalues hadds hclears
  have hlisted : run (Tape.ofBytes bytes) limits payloads =
      ⟨Row.listed 0 (entries.map (Entry.under payloads)), none, ⟨final, false⟩⟩ := by
    rw [hrun, ← Row.map_under_listed]
  refine ⟨summary (run (Tape.ofBytes bytes) limits payloads), ?_, ?_⟩
  · rw [all_eq, hlisted]
  rw [hlisted]
  refine ⟨?_, hvalues, hadds, hclears, ?_, hsize, ?_⟩
  · refine (hrecords.trans (Nat.zero_add _)).trans ?_
    rw [← List.length_map Row.entry, Row.map_entry_listed, List.length_map]
  · rw [hepochs, List.map_cons, List.max?_cons']
    rw [Nat.zero_add, Nat.max_self, Nat.zero_max] at hlargest
    exact congrArg some (hmost.trans hlargest).symm
  · show final.stats.bytesRead = _
    rw [hstats]
    rfl

end Listing

/-! ## 5. Three accounts -/

namespace Ndjson

/-- What decoding a stream reports agrees with what encoding it has reported. -/
structure DecodeSummary.Agrees (decoded : DecodeSummary) (encoded : EncodeSummary)
    (output : List UInt8) : Prop where
  values : decoded.values = encoded.valueRecords
  addRecords : decoded.addRecords = encoded.addRecords
  clearRecords : decoded.clearRecords = encoded.clearRecords
  /-- The header is the one record of no other kind. -/
  records : decoded.records =
    1 + encoded.valueRecords + encoded.addRecords + encoded.clearRecords
  bytesRead : decoded.bytesRead = output.length

/-- What listing a stream reports agrees with what decoding it has reported, and its rows with what
encoding it has reported. -/
structure ListingAgrees (listing : Listing) (listed : ListingSummary) (decoded : DecodeSummary)
    (encoded : EncodeSummary) : Prop where
  outcome : listing.outcome = .ok listed
  records : listed.records = decoded.records
  valueRecords : listed.valueRecords = decoded.values
  addRecords : listed.addRecords = decoded.addRecords
  clearRecords : listed.clearRecords = decoded.clearRecords
  bytes : listed.bytes = decoded.bytesRead
  finalDictionaryEntries : listed.finalDictionaryEntries = decoded.dictionaryEntries
  strings : Entry.addedIn (listing.rows.map Row.entry) = encoded.stringsInterned
  /-- The largest dictionary is the largest that any epoch comes to. -/
  maxDictionaryEntries :
    ((Entry.epochs (listing.rows.map Row.entry)).map Entry.addedIn).max? =
      some listed.maxDictionaryEntries

variable {input : Tape} {options : EncodeOptions} {sink : Sink} {encoded : EncodeSummary}

/-- **Three accounts of one stream.**  Where encoding a text succeeds, its summary counts the bytes
of the text and of the stream, and each line is blank or has its value.

The stream is one for every reader whose limits admit the values, as long as 64 bits hold its
length.  And whenever it is a stream for a reader, then decoding it and listing it, with the values
or without, succeed, and what they report agrees with the summary. -/
theorem accounts_agree (h : (encode input options sink).outcome = .ok encoded) :
    let output := (encode input options sink).output
    (encoded.bytesIn = input.rest.length ∧ encoded.bytesOut = output.length ∧
      encoded.linesRead = encoded.blankLines + encoded.valueRecords) ∧
    (∃ values, Good options.maxNestingDepth (Line.split input.rest) values ∧
      ∀ limits, Call.AllAdmitted limits (Encoder.new options).start.state (values.map .put) →
        output.length < UInt64.size → ∃ entries s, Grammar.Stream limits output entries s) ∧
    ∀ limits entries s, Grammar.Stream limits output entries s →
      ∃ decoded, (decode (Tape.ofBytes output) limits .accepting).outcome = .ok decoded ∧
        decoded.Agrees encoded output ∧
        ∀ payloads, ∃ listed,
          ListingAgrees (Listing.all (Tape.ofBytes output) limits payloads) listed decoded
            encoded := by
  intro output
  obtain ⟨values, drafts, hgood, hrun, houtput, hshaped, hpayloads, lines, blank, hlines,
    hencoded⟩ := drafts_of_encode h
  have hbytes := EncodeStats.bytesFramed_foldl (Wire.Draft.header :: .clear :: drafts) {}
  have hvalues := EncodeStats.valueRecords_foldl (Wire.Draft.header :: .clear :: drafts) {}
  rw [← houtput, Nat.zero_add] at hbytes
  refine ⟨?_, ⟨values, hgood, fun limits hadmitted hlength => ?_⟩,
    fun limits entries s hstream => ?_⟩
  · rw [hencoded]
    refine ⟨rfl, hbytes, ?_⟩
    rw [hvalues, ← hlines, ← hpayloads, Nat.zero_add]
    rfl
  · obtain ⟨entry, rest, hheader, hstart⟩ := Output.framed_start limits options
    obtain ⟨more, others, hframed⟩ := Output.framed_run (values.map .put)
      (Encoder.live_start limits options) hstart hadmitted (hrun ▸ hlength)
    have hrecords := hframed.records
    exact ⟨_, _, hrun ▸ hrecords, Grammar.headed_cons.mpr hheader⟩
  · -- What was encoded is a list of drafts, which the encoder has counted.  The reader finds one
    -- entry for each, so it counts the same.
    obtain ⟨htallied, hkinds⟩ := hstream.records.tallied houtput {}
    obtain ⟨hvalue, hadd, hclear, hstrings⟩ :
        Grammar.count .value entries = encoded.valueRecords ∧
          Grammar.count .add entries = encoded.addRecords ∧
          Grammar.count .clear entries = encoded.clearRecords ∧
          Entry.addedIn entries = encoded.stringsInterned := by
      rw [hencoded]
      exact ⟨(htallied.valueRecords.trans (Nat.zero_add _)).symm,
        (htallied.addRecords.trans (Nat.zero_add _)).symm,
        (htallied.clearRecords.trans (Nat.zero_add _)).symm,
        (htallied.stringsInterned.trans (Nat.zero_add _)).symm⟩
    have hlength := hstream.records.length_values
    have hrecords := hshaped.length_eq hkinds
    rw [hvalue, hadd, hclear] at hrecords
    refine ⟨_, by rw [decode_of_stream hstream], ⟨hlength.trans hvalue, hadd, hclear, hrecords, rfl⟩,
      fun payloads => ?_⟩
    obtain ⟨listed, hall, hrows, hvalues, hadds, hclears, hmost, hfinal, hread⟩ :=
      Listing.all_of_stream hstream payloads
    rw [hall]
    refine ⟨listed, rfl, hrows, hvalues.trans hlength.symm, hadds, hclears, hread, hfinal, ?_, ?_⟩
    · rw [Row.map_entry_listed, Entry.addedIn_under, hstrings]
    · rw [Row.map_entry_listed]
      exact hmost

/-- Two lines with the same key and a blank one between them; a new epoch begins before the second
value. -/
theorem accounts_agree_epochs :
    let options : EncodeOptions := { clearThreshold := some 1 }
    let text : List UInt8 := Utf8.encode "\x7b\"k\":1\x7d\n\n\x7b\"k\":2\x7d"
    let encoded : EncodeSummary := ⟨3, 1, 2, 2, 2, 2, 16, 47⟩
    let written := encode (Tape.ofBytes text) options .accepting
    written.outcome = .ok encoded ∧ (∃ entries s, Grammar.Stream {} written.output entries s) ∧
      ∃ decoded, (decode (Tape.ofBytes written.output) {} .accepting).outcome = .ok decoded ∧
        decoded.Agrees encoded written.output ∧
        ∃ listed, ListingAgrees (Listing.all (Tape.ofBytes written.output) {} .skipped) listed
          decoded encoded := by
  intro options text encoded written
  have hencoded : written.outcome = .ok encoded := by decide +kernel
  have hvalues : decodeValues written.output {} =
      .ok [.object [("k", .number (.integer ⟨1, by decide, by decide⟩))],
        .object [("k", .number (.integer ⟨2, by decide, by decide⟩))]] := by decide +kernel
  obtain ⟨entries, final, hends, -⟩ := Decoder.ends_of_decodeValues hvalues
  obtain ⟨s, hs⟩ := Decoder.stream_of_ends hends
  obtain ⟨decoded, hdecoded, hagrees, hlisted⟩ := (accounts_agree hencoded).2.2 {} entries s hs
  exact ⟨hencoded, ⟨entries, s, hs⟩, decoded, hdecoded, hagrees, hlisted .skipped⟩

end Ndjson

end DictLog
