/-
# Whatever was decoded can be encoded again

The values that a reader builds, from whatever bytes, are of a kind (`Built`): their objects repeat no
key, and they are within its limits for nesting and for strings.  A writing side that nests as deep
accepts all of them (`put_ok_iff`), and a reader whose limits for nesting and for strings are no
smaller reads them back, if the new stream leaves it room (`Roomy`): for every payload in it, and for
the dictionary behind every value.
-/
import DictLog.Proofs.Accounts
import DictLog.Proofs.Sizes

namespace DictLog

open Encoder (Short)

/-! ## 1. What a reader builds -/

/-- A value as it may come from a reader with these limits. -/
structure Built (limits : Limits) (v : Json) : Prop where
  distinct : v.Distinct
  depth : v.depth ≤ limits.maxNestingDepth
  texts : Short limits v.texts

namespace Grammar

variable {limits : Limits} {dictionary after strings : List String} {s t : Scope}
  {bs : List UInt8} {entry : Entry} {entries : List Entry}

mutual

/-- No object of a value repeats a key, whatever its payload repeats.  The grammar puts the members
one after the other, as a reader does. -/
theorem Value.distinct : ∀ {room : Nat} {bs : List UInt8} {v : Json},
    Value limits dictionary room bs v → v.Distinct
  | _, _, _, .null => trivial
  | _, _, _, .boolTrue => trivial
  | _, _, _, .boolFalse => trivial
  | _, _, _, .natural _ => trivial
  | _, _, _, .negative _ _ => trivial
  | _, _, _, .double _ _ => trivial
  | _, _, _, .text _ => trivial
  | _, _, _, .array h => Items.distinct h
  | _, _, _, .object h =>
    ⟨Members.nodup_keys_ofList _, Json.distinctMembers_ofList (MemberList.distinct h)⟩

theorem Items.distinct : ∀ {room : Nat} {bs : List UInt8} {items : List Json},
    Items limits dictionary room bs items → Json.DistinctItems items
  | _, _, _, .nil => trivial
  | _, _, _, .cons head tail => ⟨Value.distinct head, Items.distinct tail⟩

theorem MemberList.distinct : ∀ {room : Nat} {bs : List UInt8} {members : List (String × Json)},
    MemberList limits dictionary room bs members → Json.DistinctMembers members
  | _, _, _, .nil => trivial
  | _, _, _, .cons _ value tail => ⟨Value.distinct value, MemberList.distinct tail⟩

end

/-- The strings of an `add` record are within the limit. -/
theorem Sequence.short (h : Sequence (StringLiteral limits) bs strings) : Short limits strings := by
  induction h with
  | nil => exact nofun
  | cons head _ ih =>
    have hdictionary : Short limits [] := nofun
    exact List.forall_mem_cons.mpr ⟨Text.short hdictionary (.literal head), ih⟩

/-- The strings of the dictionary are within the limit behind any record, if they were in front of
it. -/
theorem Record.short (h : Record limits s bs entry after) (hs : Short limits s.dictionary) :
    Short limits after := by
  cases h with
  | header _ => exact hs
  | clear => exact nofun
  | add _ _ literals _ => exact List.forall_mem_append.mpr ⟨hs, literals.short⟩
  | value _ _ _ _ _ => exact hs

/-- The value of a record, if it has one, is of the kind that a reader builds. -/
theorem Record.built (h : Record limits s bs entry after) (hs : Short limits s.dictionary) :
    ∀ v ∈ entry.value?, Built limits v := by
  cases h with
  | value _ _ _ _ denotes =>
    rintro _ ⟨⟩
    have hsized := denotes.sized hs
    exact ⟨denotes.distinct, hsized.depth, hsized.texts⟩
  | _ => exact nofun

/-- All values of a stream are of the kind that a reader builds: no key is repeated, and strings and
nesting are within its limits. -/
theorem Records.built (h : Records limits s bs entries t) : Short limits s.dictionary →
    ∀ v ∈ Entry.values entries, Built limits v := by
  induction h with
  | nil => exact fun _ => nofun
  | @cons s t bs cs entry entries after head _ ih =>
    intro hs v hv
    have htail := ih (head.short hs)
    rw [Entry.values, List.filterMap_cons] at hv
    cases hvalue : entry.value? with
    | none =>
      rw [hvalue] at hv
      exact htail v hv
    | some w =>
      rw [hvalue] at hv
      rcases List.mem_cons.mp hv with rfl | hv
      · exact head.built hs v hvalue
      · exact htail v hv

end Grammar

/-- Whatever is decoded is of the kind that a reader builds. -/
theorem built_of_decodeValues {bytes : List UInt8} {limits : Limits} {values : List Json}
    (h : decodeValues bytes limits = .ok values) : ∀ v ∈ values, Built limits v := by
  obtain ⟨entries, s, hstream, rfl⟩ := Decoder.stream_of_decodeValues h
  exact hstream.records.built nofun

/-! ## 2. What the writing side accepts -/

namespace Encoder

variable {e : Encoder} {v : Json}

/-- In its epoch, a value is accepted exactly if it is not too deep. -/
theorem putValue_ok_iff : (putValue v e).outcome = .ok () ↔ v.depth ≤ e.options.maxNestingDepth := by
  have hpayload : (e.payload v).outcome = .ok () ↔ _ := Payload.outcome_write _ v e.lexicon
  rw [← hpayload, putValue_eq]
  cases hok : (e.payload v).outcome with
  | ok u => exact iff_of_true (Emission.outcome_andThen.mpr ⟨outcome_announce _, rfl⟩) rfl
  | error fault => rfl

/-- A value is accepted exactly if it is not too deep. -/
theorem put_ok_iff : (e.put v).outcome = .ok () ↔ v.depth ≤ e.options.maxNestingDepth := by
  obtain ⟨hstart, hoptions⟩ := start_ok e
  rw [put, Emission.andThen_assoc, Emission.andThen_of_ok hstart,
    Emission.andThen_of_ok (outcome_renew _)]
  show (putValue v e.start.state.renew.state).outcome = .ok () ↔ _
  rw [putValue_ok_iff, options_renew, hoptions]

/-- Some values are all accepted exactly if none of them is too deep.  No other thing can make a
value be refused, and options do not change on the way. -/
theorem puts_ok_iff {values : List Json} : ∀ {e : Encoder},
    (Emission.forEach put values e).outcome = .ok () ↔
      ∀ v ∈ values, v.depth ≤ e.options.maxNestingDepth := by
  induction values with
  | nil =>
    intro e
    exact iff_of_true rfl nofun
  | cons v values ih =>
    intro e
    rw [Emission.forEach_cons, Emission.outcome_andThen, ih, List.forall_mem_cons, put_ok_iff]
    refine and_congr_right fun hv => ?_
    rw [(put_of_le hv).2]

end Encoder

/-- So some values are encoded exactly if none of them is. -/
theorem encodeValues_eq_ok {values : List Json} {options : EncodeOptions} {bytes : List UInt8} :
    encodeValues values options = .ok bytes ↔
      (∀ v ∈ values, v.depth ≤ options.maxNestingDepth) ∧ bytes = stream options values := by
  have hoptions : (Encoder.new options).start.state.options = options := rfl
  have hputs := @Encoder.puts_ok_iff values (Encoder.new options).start.state
  rw [hoptions] at hputs
  rw [← hputs, encodeValues, Emission.andThen_of_ok (Encoder.start_ok _).1]
  cases (Emission.forEach Encoder.put values (Encoder.new options).start.state).outcome with
  | ok u => simp [stream, eq_comm]
  | error fault => simp

/-! ## 3. Room for what is written -/

/-- The limits of a reader leave room for what an encoder writes for some values: for each payload,
and for the dictionary that it has behind each of the values. -/
structure Roomy (limits : Limits) (out : Output) (values : List Json) : Prop where
  payloads : ∀ payload ∈ Call.allPayloads out.encoder (values.map .put),
    payload.length ≤ limits.maxPayloadLength
  dictionaries : ∀ front, front <+: values →
    (out.run (front.map .put)).encoder.lexicon.size ≤ limits.maxDictionaryEntries

namespace Roomy

variable {limits : Limits} {out : Output} {v : Json} {values : List Json}

theorem tail (h : Roomy limits out (v :: values)) : Roomy limits (out.step (.put v)) values where
  payloads payload hmem := h.payloads payload (List.mem_append_right _ hmem)
  dictionaries front hfront := h.dictionaries (v :: front) (List.cons_prefix_cons.mpr ⟨rfl, hfront⟩)

/-- Where there is room for them, values that are neither too deep nor too long are admitted. -/
theorem allAdmitted : ∀ {values : List Json} {out : Output},
    (∀ v ∈ values, v.depth ≤ limits.maxNestingDepth ∧ Short limits v.texts) →
      Roomy limits out values → Call.AllAdmitted limits out.encoder (values.map .put)
  | [], _, _, _ => trivial
  | v :: values, out, hvalues, h => by
    obtain ⟨⟨hdepth, htexts⟩, hrest⟩ := List.forall_mem_cons.mp hvalues
    refine ⟨⟨htexts, fun hok => ⟨hdepth, ?_, ?_⟩⟩, allAdmitted hrest h.tail⟩
    · refine h.payloads _ (List.mem_append_left _ ?_)
      rw [Call.payloads, hok]
      exact List.mem_singleton.mpr rfl
    · exact h.dictionaries [v] (List.cons_prefix_cons.mpr ⟨rfl, List.nil_prefix⟩)

end Roomy

/-- What was encoded is decoded where the limits leave room for it, and are no smaller than the values
for nesting and for strings. -/
theorem decodeValues_of_roomy {limits : Limits} {options : EncodeOptions} {values : List Json}
    {bytes : List UInt8} (hencoded : encodeValues values options = .ok bytes)
    (hbuilt : ∀ v ∈ values, Built limits v) (hroomy : Roomy limits (Output.start options) values)
    (hlength : bytes.length < UInt64.size) : decodeValues bytes limits = .ok values := by
  obtain ⟨hdepth, rfl⟩ := encodeValues_eq_ok.mp hencoded
  have hok := (@Encoder.puts_ok_iff values (Encoder.new options).start.state).mpr hdepth
  have hadmitted := hroomy.allAdmitted fun v hv => ⟨(hbuilt v hv).depth, (hbuilt v hv).texts⟩
  exact (carries_of_ok (fun v hv => (hbuilt v hv).distinct) hok).decoded limits hadmitted hlength

/-! ## 4. Encoding again -/

/-- **Whatever was decoded can be encoded again.**  Whatever bytes a reader has decoded, a writing
side that nests as deep as the reader does encodes the values, whatever else it was told.  From the
new stream, the length of which 64 bits hold, the same values are decoded by any reader whose limits
for nesting and for strings are no smaller, and whose limits for payloads and for the dictionary
leave room for it. -/
theorem encodeValues_of_decoded (bytes : List UInt8) (limits : Limits) (values : List Json)
    (hdecoded : decodeValues bytes limits = .ok values) (options : EncodeOptions)
    (hdepth : limits.maxNestingDepth ≤ options.maxNestingDepth) :
    ∃ again, encodeValues values options = .ok again ∧
      ∀ larger : Limits, limits.maxNestingDepth ≤ larger.maxNestingDepth →
        limits.maxStringLength ≤ larger.maxStringLength →
        Roomy larger (Output.start options) values → again.length < UInt64.size →
          decodeValues again larger = .ok values := by
  have hbuilt := built_of_decodeValues hdecoded
  have hencoded : encodeValues values options = .ok (stream options values) :=
    encodeValues_eq_ok.mpr ⟨fun v hv => Nat.le_trans (hbuilt v hv).depth hdepth, rfl⟩
  refine ⟨_, hencoded, fun larger hdeeper hlonger hroomy hlength => ?_⟩
  refine decodeValues_of_roomy hencoded (fun v hv => ?_) hroomy hlength
  obtain ⟨hdistinct, hdepth, htexts⟩ := hbuilt v hv
  exact ⟨hdistinct, Nat.le_trans hdepth hdeeper, fun s hs => Nat.le_trans (htexts s hs) hlonger⟩

/-- A version in two bytes, two `add` records one behind the other of which the first is empty, no
`clear` record, a repeated key, and a zero with a sign. -/
theorem encodeValues_of_decoded_zero :
    let bytes := [0x48, 0x49, 0x81, 0x00, 0x45, 0x0A, 0x41, 0x06, 0x45, 0x0A,
      0x41, 0x04, 0x53, 0x01, 0x61, 0x45, 0x0A,
      0x56, 0x07, 0x0C, 0x5B, 0x7B, 0x58, 0x00, 0x4E, 0x58, 0x00, 0x54, 0x7D, 0x4A, 0x00, 0x5D,
      0x45, 0x0A]
    let limits : Limits :=
      { maxStringLength := 1, maxPayloadLength := 12, maxNestingDepth := 2, maxDictionaryEntries := 1 }
    let values := [Json.array [.object [("a", .bool true)], .number (.integer (.ofWord 0))]]
    let options : EncodeOptions := { maxNestingDepth := 2 }
    decodeValues bytes limits = .ok values ∧ limits.maxNestingDepth ≤ options.maxNestingDepth ∧
      ∃ again, encodeValues values options = .ok again ∧
        Roomy limits (Output.start options) values ∧ again.length < UInt64.size ∧ again ≠ bytes ∧
        decodeValues again limits = .ok values := by
  intro bytes limits values options
  have hdecoded : decodeValues bytes limits = .ok values := by decide +kernel
  have hroomy : Roomy limits (Output.start options) values := by
    refine ⟨by decide +kernel, fun front hfront => ?_⟩
    rcases List.prefix_cons_iff.mp hfront with rfl | ⟨rest, rfl, hrest⟩
    · decide
    · rw [List.prefix_nil.mp hrest]
      decide +kernel
  obtain ⟨again, hencoded, hagain⟩ :=
    encodeValues_of_decoded bytes limits values hdecoded options (by decide)
  have hstream : encodeValues values options = .ok (stream options values) :=
    encodeValues_eq_ok.mpr ⟨by decide, rfl⟩
  obtain rfl : again = stream options values := Except.ok.inj (hencoded.symm.trans hstream)
  have hlength : (stream options values).length < UInt64.size := by decide +kernel
  exact ⟨hdecoded, by decide, _, hencoded, hroomy, hlength, by decide +kernel,
    hagain limits (Nat.le_refl _) (Nat.le_refl _) hroomy hlength⟩

end DictLog
