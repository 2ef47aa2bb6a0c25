/-
# Which encoded streams a reader refuses

A reader whose limit for nesting is no smaller than that of the writing side reads a stream back, or
fails with a limit that is exceeded; and it reads it back exactly if its other limits leave room for
what was written (`decodeValues_iff_roomy`).  The writing side has no such limits of its own, so that
a stream it has written under the defaults may be refused under the defaults: a single string can be
too long (`refused_by_default`).

Limits that leave room for everything in a stream exist, and stricter ones only refuse, which makes
every failure one of limits.  A reader that does succeed has found the records that were written one
for one, each payload within its limit and the dictionary behind each record, too; and the encoder's
dictionary grows with its records (`Threads.size`).
-/
import DictLog.Proofs.Announced
import DictLog.Proofs.Recoding
import DictLog.Proofs.Stricter

namespace DictLog

open Encoder (Short)

/-! ## 1. What a reader has found -/

namespace Grammar

open Wire

variable {limits : Limits} {s t : Scope} {bs : List UInt8} {entries : List Entry}

/-- Where records that were written are read, each payload is within its limit.  A length that is
declared is checked before anything of the payload is read. -/
theorem Records.payload_le (h : Records limits s bs entries t) : ∀ {drafts : List Draft},
    bs = drafts.flatMap Draft.bytes → ∀ payload ∈ drafts.filterMap Draft.payload?,
      payload.length ≤ limits.maxPayloadLength := by
  induction h with
  | nil =>
    intro drafts heq
    cases drafts with
    | nil => exact nofun
    | cons draft drafts => cases draft <;> cases heq
  | cons head _ ih =>
    intro drafts heq payload hmem
    obtain ⟨draft, more, rfl, rfl, hrest, -, -⟩ := head.first_of_drafts heq
    rw [List.filterMap_cons] at hmem
    cases draft with
    | value link found =>
      rcases List.mem_cons.mp hmem with rfl | hmem
      · exact head.value_of_draft.1
      · exact ih hrest payload hmem
    | _ => exact ih hrest payload hmem

/-- Where records that were written are read, the dictionary behind any of them is within its limit.
`front` are the drafts up to there. -/
theorem Records.size_le (h : Records limits s bs entries t) :
    s.dictionary.length ≤ limits.maxDictionaryEntries → ∀ {front behind : List Draft},
      bs = (front ++ behind).flatMap Draft.bytes →
        front.foldl Draft.sizeAfter s.dictionary.length ≤ limits.maxDictionaryEntries := by
  induction h with
  | nil =>
    intro hs front behind heq
    cases front with
    | nil => exact hs
    | cons draft front => cases draft <;> cases heq
  | cons head _ ih =>
    intro hs front behind heq
    cases front with
    | nil => exact hs
    | cons draft front =>
      obtain ⟨_, _, hcons, -, hrest, -, hsize⟩ := head.first_of_drafts heq
      obtain ⟨rfl, rfl⟩ := List.cons.inj hcons
      have htail := ih (head.length_le hs) hrest
      rw [List.foldl_cons, ← hsize]
      exact htail

end Grammar

/-! ## 2. What leaves room -/

/-- Values that are not too deep are all accepted. -/
theorem Call.allAccepted_puts : ∀ {values : List Json} {e : Encoder},
    (∀ v ∈ values, v.depth ≤ e.options.maxNestingDepth) → AllAccepted e (values.map .put)
  | [], _, _ => trivial
  | v :: values, e, h => by
    obtain ⟨hhead, hrest⟩ := List.forall_mem_cons.mp h
    obtain ⟨hok, hoptions⟩ := Encoder.put_of_le hhead
    exact ⟨hok, allAccepted_puts (hoptions ▸ hrest)⟩

/-- Calls that are all carried out are so in two parts. -/
theorem Output.allAccepted_append {calls more : List Call} : ∀ {out : Output},
    Call.AllAccepted out.encoder (calls ++ more) →
      Call.AllAccepted out.encoder calls ∧ Call.AllAccepted (out.run calls).encoder more := by
  induction calls with
  | nil => exact fun h => ⟨trivial, h⟩
  | cons call calls ih =>
    intro out h
    obtain ⟨hfirst, hsecond⟩ := @ih (out.step call) h.2
    exact ⟨⟨h.1, hfirst⟩, hsecond⟩

/-- The sizes of the items of a list have a common bound. -/
theorem exists_bound {α : Type} (size : α → Nat) (items : List α) :
    ∃ most, ∀ item ∈ items, size item ≤ most := by
  induction items with
  | nil => exact ⟨0, nofun⟩
  | cons item items ih =>
    obtain ⟨most, hmost⟩ := ih
    refine ⟨max (size item) most, List.forall_mem_cons.mpr ⟨Nat.le_max_left .., fun other h => ?_⟩⟩
    exact Nat.le_trans (hmost other h) (Nat.le_max_right ..)

section Encoded

variable {limits : Limits} {options : EncodeOptions} {values : List Json} {bytes : List UInt8}

/-- What is encoded is what an encoder emits that is asked for one value after the other. -/
theorem bytes_of_encoded (h : encodeValues values options = .ok bytes) :
    bytes = ((Output.start options).run (values.map .put)).bytes := by
  obtain ⟨hdepth, rfl⟩ := encodeValues_eq_ok.mp h
  rw [@Output.run_puts values (Output.start options) (Encoder.puts_ok_iff.mpr hdepth)]
  rfl

/-- The bytes at the start of a stream are records that were written. -/
theorem bytes_start (options : EncodeOptions) :
    (Output.start options).bytes = [Wire.Draft.header, .clear].flatMap Wire.Draft.bytes := rfl

/-- Where an encoded stream is decoded, the limits leave room for its payloads. -/
theorem payload_le_of_decoded (hencoded : encodeValues values options = .ok bytes)
    (hdecoded : decodeValues bytes limits = .ok values) :
    ∀ payload ∈ Call.allPayloads (Output.start options).encoder (values.map .put),
      payload.length ≤ limits.maxPayloadLength := by
  obtain ⟨entries, s, hstream, -⟩ := Decoder.stream_of_decodeValues hdecoded
  obtain ⟨drafts, hdrafts, -, hpayloads⟩ :=
    Output.shapes_run (values.map .put) (Output.sound_start options)
  rw [← bytes_of_encoded hencoded, bytes_start, ← List.flatMap_append] at hdrafts
  rw [← hpayloads]
  exact fun payload hmem => hstream.records.payload_le hdrafts payload hmem

/-- Where an encoded stream is decoded, the limits leave room for the dictionary behind each value.
The encoder announces all its strings in front of the value, so its dictionary is the one that the
reader has there. -/
theorem size_le_of_decoded (hencoded : encodeValues values options = .ok bytes)
    (hdecoded : decodeValues bytes limits = .ok values) {front : List Json}
    (hfront : front <+: values) :
    ((Output.start options).run (front.map .put)).encoder.lexicon.size ≤
      limits.maxDictionaryEntries := by
  obtain ⟨behind, rfl⟩ := hfront
  obtain ⟨entries, s, hstream, -⟩ := Decoder.stream_of_decodeValues hdecoded
  -- The stream is split behind the value in question, and the drafts in front of it are what the
  -- reader has found there.
  have haccepted := @Call.allAccepted_puts (front ++ behind) (Output.start options).encoder
    (encodeValues_eq_ok.mp hencoded).1
  have hbytes := bytes_of_encoded hencoded
  rw [List.map_append] at haccepted hbytes
  obtain ⟨hfirst, hsecond⟩ := Output.allAccepted_append haccepted
  obtain ⟨drafts, hdrafts, hthreads⟩ := Output.threaded_run _ (Output.settled_start options) hfirst
  obtain ⟨more, hmore, -⟩ := Output.threaded_run _ hthreads.settled hsecond
  have hall : bytes = ([Wire.Draft.header, .clear] ++ drafts ++ more).flatMap Wire.Draft.bytes := by
    rw [List.flatMap_append, List.flatMap_append, ← bytes_start options, ← hdrafts, ← hmore, hbytes,
      Output.run, List.foldl_append]
    rfl
  have hsize := hstream.records.size_le (Nat.zero_le _) hall
  rw [List.foldl_append] at hsize
  exact Nat.le_trans (Nat.le_of_eq hthreads.size) hsize

/-- There are limits that leave room for some values and for what is written for them, since there
are only finitely many sizes to be allowed. -/
theorem exists_roomy (limits : Limits) (out : Output) (hdistinct : ∀ v ∈ values, v.Distinct) :
    ∃ wider : Limits, limits.Within wider ∧ (∀ v ∈ values, Built wider v) ∧
      Roomy wider out values := by
  -- Each limit is the largest of finitely many sizes, joined with what was allowed before.
  obtain ⟨strings, hstrings⟩ :=
    exists_bound (fun s => (Utf8.encode s).length) (values.flatMap Json.texts)
  obtain ⟨payloads, hpayloads⟩ :=
    exists_bound List.length (Call.allPayloads out.encoder (values.map .put))
  obtain ⟨nesting, hnesting⟩ := exists_bound Json.depth values
  obtain ⟨entries, hentries⟩ := exists_bound
    (fun n => (out.run ((values.take n).map .put)).encoder.lexicon.size)
    (List.range (values.length + 1))
  let wider := limits.join ⟨strings, payloads, nesting, entries⟩
  have hwide := limits.within_join_right ⟨strings, payloads, nesting, entries⟩
  refine ⟨wider, limits.within_join_left _, fun v hv => ⟨hdistinct v hv, ?_, fun s hs => ?_⟩, ?_, ?_⟩
  · exact Nat.le_trans (hnesting v hv) hwide.nesting
  · exact Nat.le_trans (hstrings s (List.mem_flatMap_of_mem hv hs)) hwide.strings
  · exact fun payload hmem => Nat.le_trans (hpayloads payload hmem) hwide.payloads
  · intro front hfront
    have hmem : front.length ∈ List.range (values.length + 1) :=
      List.mem_range.mpr (Nat.lt_succ_of_le hfront.length_le)
    have hsize := hentries front.length hmem
    rw [← List.prefix_iff_eq_take.mp hfront] at hsize
    exact Nat.le_trans hsize hwide.dictionaries

/-! ## 3. Streams that are refused -/

/-- An encoded stream is decoded to the values that were encoded, or a limit is exceeded. -/
theorem decodeValues_of_encoded (limits : Limits) (hdistinct : ∀ v ∈ values, v.Distinct)
    (hencoded : encodeValues values options = .ok bytes) (hlength : bytes.length < UInt64.size) :
    decodeValues bytes limits = .ok values ∨
      ∃ excess, decodeValues bytes limits = .error (.limit excess) := by
  obtain ⟨wider, hwithin, hbuilt, hroomy⟩ := exists_roomy limits (Output.start options) hdistinct
  rw [← decodeValues_of_roomy hencoded hbuilt hroomy hlength]
  exact decodeValues_of_within hwithin bytes

/-- **The limits of an encoded stream.**  A reader that nests as deep as the writing side decodes an
encoded stream, the length of which 64 bits hold, to the values that were encoded, or it fails with
a limit that is exceeded.  It decodes it exactly if it allows for every string in the values, for
every payload that was written, and for the dictionary that the encoder has behind each value. -/
theorem decodeValues_iff_roomy (options : EncodeOptions) (limits : Limits) (values : List Json)
    (bytes : List UInt8) (hnesting : options.maxNestingDepth ≤ limits.maxNestingDepth)
    (hdistinct : ∀ v ∈ values, v.Distinct) (hencoded : encodeValues values options = .ok bytes)
    (hlength : bytes.length < UInt64.size) :
    (decodeValues bytes limits = .ok values ↔
      (∀ v ∈ values, Short limits v.texts) ∧ Roomy limits (Output.start options) values) ∧
    (decodeValues bytes limits = .ok values ∨
      ∃ excess, decodeValues bytes limits = .error (.limit excess)) := by
  refine ⟨⟨fun h => ⟨fun v hv => (built_of_decodeValues h v hv).texts, payload_le_of_decoded hencoded h,
    fun _ => size_le_of_decoded hencoded h⟩, fun ⟨hshort, hroomy⟩ => ?_⟩,
      decodeValues_of_encoded limits hdistinct hencoded hlength⟩
  refine decodeValues_of_roomy hencoded (fun v hv => ⟨hdistinct v hv, ?_, hshort v hv⟩) hroomy hlength
  exact Nat.le_trans ((encodeValues_eq_ok.mp hencoded).1 v hv) hnesting

/-- Under the defaults a key is read back.  A reader whose dictionary has no room refuses it. -/
theorem decodeValues_iff_roomy_key :
    let values := [Json.object [("k", .null)]]
    let bytes := stream {} values
    ({} : EncodeOptions).maxNestingDepth ≤ ({} : Limits).maxNestingDepth ∧
      (∀ v ∈ values, v.Distinct) ∧ encodeValues values {} = .ok bytes ∧
      bytes.length < UInt64.size ∧ decodeValues bytes {} = .ok values ∧
      ∃ excess, decodeValues bytes { maxDictionaryEntries := 0 } = .error (.limit excess) := by
  intro values bytes
  have hdistinct : ∀ v ∈ values, v.Distinct := by
    simp [values, Json.Distinct, Json.DistinctMembers]
  have hencoded : encodeValues values {} = .ok bytes := encodeValues_eq_ok.mpr ⟨by decide, rfl⟩
  have hlength : bytes.length < UInt64.size := by decide +kernel
  have hshort : ∀ v ∈ values, Short {} v.texts :=
    List.forall_mem_singleton.mpr (List.forall_mem_singleton.mpr (by decide +kernel))
  have hroomy : Roomy {} (Output.start {}) values := by
    refine ⟨by decide +kernel, fun front hfront => ?_⟩
    rcases List.prefix_cons_iff.mp hfront with rfl | ⟨rest, rfl, hrest⟩
    · decide
    · rw [List.prefix_nil.mp hrest]
      decide +kernel
  have hfull : ¬ Roomy { maxDictionaryEntries := 0 } (Output.start {}) values := fun h =>
    absurd (h.dictionaries values List.prefix_rfl) (by decide +kernel)
  obtain ⟨hiff, -⟩ := decodeValues_iff_roomy {} {} values bytes (by decide) hdistinct hencoded hlength
  obtain ⟨hrefused, hor⟩ := decodeValues_iff_roomy {} { maxDictionaryEntries := 0 } values bytes
    (by decide) hdistinct hencoded hlength
  exact ⟨by decide, hdistinct, hencoded, hlength, hiff.mpr ⟨hshort, hroomy⟩,
    hor.resolve_left fun h => hfull (hrefused.mp h).2⟩

end Encoded

/-! ## 4. A string that is too long -/

/-- The stream of a single string takes at most 42 bytes besides those of the string. -/
theorem length_encoded_string {s : String} {bytes : List UInt8}
    (hencoded : encodeValues [.string s] {} = .ok bytes) (hlength : (Utf8.encode s).length < 1 <<< 60) :
    bytes.length ≤ 42 + (Utf8.encode s).length := by
  let e := (Encoder.new {}).start.state
  have hput : (e.put (.string s)).bytes = Wire.value e.backlink (Wire.stringLiteral s) := rfl
  have hbytes : bytes = (Output.start {}).bytes ++ (e.put (.string s)).bytes :=
    bytes_of_encoded hencoded
  have hstart : (Output.start {}).bytes.length = 8 := by decide +kernel
  have hlink : (Varint.encode e.backlink).length ≤ 10 :=
    Varint.length_encode_le (by decide) (show e.backlink < 1 <<< 70 by decide +kernel)
  have hdigits : (Varint.encode (Utf8.encode s).length).length ≤ 10 :=
    Varint.length_encode_le (by decide) (show _ < 1 <<< 70 by omega)
  have hliteral : (Wire.stringLiteral s).length =
      1 + (Varint.encode (Utf8.encode s).length).length + (Utf8.encode s).length := by
    simp only [Wire.stringLiteral, List.length_append, List.length_cons]
    omega
  have hdeclared : (Varint.encode (Wire.stringLiteral s).length).length ≤ 10 :=
    Varint.length_encode_le (by decide) (show _ < 1 <<< 70 by omega)
  rw [hbytes, List.length_append, hstart, hput]
  simp only [Wire.value, Format.terminator, List.length_append, List.length_cons, List.length_nil]
  omega

/-- The encoding of a string of many letters that are one byte each. -/
theorem length_encode_replicate (n : Nat) :
    (Utf8.encode (String.ofList (List.replicate n 'a'))).length = n := by
  rw [Utf8.encode_eq_flatMap, String.toList_ofList]
  induction n with
  | zero => rfl
  | succ n ih =>
    rw [List.replicate_succ, List.flatMap_cons, List.length_append, ih, Nat.add_comm]
    rfl

/-- Under the defaults a string one byte longer than a reader's limit is encoded, and what is written
for it is refused. -/
theorem refused_by_default :
    let s := String.ofList (List.replicate 16777217 'a')
    ∃ bytes, encodeValues [.string s] {} = .ok bytes ∧ decodeValues bytes {} ≠ .ok [.string s] ∧
      ∃ excess, decodeValues bytes {} = .error (.limit excess) := by
  intro s
  have hlong : (Utf8.encode s).length = 16777217 := length_encode_replicate _
  have hencoded : encodeValues [.string s] {} = .ok (stream {} [.string s]) :=
    encodeValues_eq_ok.mpr ⟨List.forall_mem_singleton.mpr (Nat.zero_le _), rfl⟩
  have hlength := length_encoded_string hencoded (by omega)
  have hrefused : decodeValues (stream {} [.string s]) {} ≠ .ok [.string s] := by
    intro h
    have hshort := (built_of_decodeValues h _ (List.mem_singleton_self _)).texts s
      (List.mem_singleton_self _)
    rw [hlong] at hshort
    exact absurd hshort (by decide)
  have hdistinct : ∀ v ∈ [Json.string s], v.Distinct :=
    List.forall_mem_singleton.mpr (show (Json.string s).Distinct from trivial)
  rw [hlong] at hlength
  have hor := decodeValues_of_encoded {} hdistinct hencoded
    (Nat.lt_of_le_of_lt hlength (by decide))
  exact ⟨_, hencoded, hrefused, hor.resolve_left hrefused⟩

end DictLog
