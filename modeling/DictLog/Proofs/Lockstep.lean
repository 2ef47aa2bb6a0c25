/-
# Writing side and reading side in lockstep

Whatever is asked of an encoder, what it has emitted is a stream of the grammar (`framed_run`), and
a decoder that has read all of it stands where the encoder stands (`InStep`): it has the strings
that have been announced, it measures backlinks from the same record, and it has counted the same.
-/
import DictLog.Proofs.Framing

namespace DictLog

open OnTape

namespace Output

variable {limits : Limits} {options : EncodeOptions} {out : Output} {entries : List Entry}
  {values : List Json}

/-! ## 1. Outputs are streams -/

/-- An output is these records from the start of the stream, with these values. -/
def Framed (limits : Limits) (options : EncodeOptions) (out : Output) (entries : List Entry)
    (values : List Json) : Prop :=
  Encoder.Frames limits (.new options) (.write out.bytes out.encoder) entries values

/-- The output begins with a header, and there is no value yet. -/
theorem framed_start (limits : Limits) (options : EncodeOptions) :
    ∃ entry rest, entry.record.kind = .header ∧
      Framed limits options (start options) (entry :: rest) [] :=
  Encoder.frames_start limits options

/-- The encoder knows how much was emitted, which is where its next record begins. -/
theorem Framed.position (h : Framed limits options out entries values) :
    out.encoder.position = out.bytes.length :=
  (Encoder.Frames.position h).trans (Nat.zero_add _)

/-- What an encoder emits when asked goes on where the output stands. -/
theorem Framed.step (h : Framed limits options out entries values) {call : Call}
    {more : List Entry} {others : List Json}
    (k : Encoder.Frames limits out.encoder (call.emit out.encoder) more others) :
    Framed limits options (out.step call) (entries ++ more) (values ++ others) := by
  have hboth : Encoder.Frames limits (.new options)
      ((Emission.write out.bytes out.encoder).andThen fun e => call.emit e) _ _ :=
    Encoder.Frames.andThen h rfl k
  exact ⟨hboth.records, hboth.values, hboth.valueRecords, hboth.addRecords, hboth.clearRecords,
    hboth.stringsInterned⟩

/-- As long as 64 bits hold the position, an output stays framed whatever is asked.  By induction on
the calls; that the last position fits says that all earlier ones do. -/
theorem framed_run (calls : List Call) :
    ∀ {out : Output} {entries : List Entry} {values : List Json},
      Encoder.Live limits out.encoder → Framed limits options out entries values →
      Call.AllAdmitted limits out.encoder calls → (out.run calls).bytes.length < UInt64.size →
      ∃ more others,
        Framed limits options (out.run calls) (entries ++ more) (values ++ others) := by
  induction calls with
  | nil =>
    intro out entries values _ h _ _
    exact ⟨[], [], by rwa [List.append_nil, List.append_nil]⟩
  | cons call rest ih =>
    intro out entries values hlive h hadmitted hlength
    obtain ⟨hcall, hrest⟩ := hadmitted
    have hstep := (bytes_run rest (out.step call)).length_le
    have hbytes : (out.step call).bytes.length =
        out.bytes.length + (call.emit out.encoder).bytes.length := List.length_append
    have hposition := h.position
    change ((out.step call).run rest).bytes.length < _ at hlength
    -- One call emits some records, which may be none, and the others go on behind it.
    obtain ⟨new, hframes⟩ := Call.frames_emit hlive hcall fun _ => by omega
    obtain ⟨more, others, hrun⟩ :=
      ih (Call.live_emit hlive hcall) (h.step hframes) hrest hlength
    rw [List.append_assoc, List.append_assoc] at hrun
    exact ⟨_, _, hrun⟩

/-! ## 2. A decoder that has read all of it -/

/-- A decoder that has returned these records stands where the encoder stands. -/
structure InStep (out : Output) (entries : List Entry) (d : Decoder Tape) : Prop where
  dictionary : d.dictionary.toList ++ out.encoder.lexicon.pending = out.encoder.lexicon.entries
  lastDictionary : d.tokens.lastDictionary = out.encoder.lastDictionary
  offset : d.tokens.offset = out.encoder.position
  bytesRead : d.stats.bytesRead = out.encoder.position
  emitted : out.bytes.length = out.encoder.position
  framed : out.encoder.stats.bytesFramed = out.encoder.position
  valueRecords : d.stats.valueRecords = out.encoder.stats.valueRecords
  addRecords : d.stats.addRecords = out.encoder.stats.addRecords
  clearRecords : d.stats.clearRecords = out.encoder.stats.clearRecords
  interned : Entry.addedIn entries = out.encoder.stats.stringsInterned

/-- A decoder comes to the clean end of a framed output, in step with the encoder.  Its side of each
equation is read off the grammar, and the encoder's side off the records that it framed. -/
theorem inStep_of_framed (hconsistent : out.encoder.Consistent)
    (h : Framed limits options out entries values) (hheaded : Grammar.Headed entries) :
    ∃ final, Run.Ends (Decoder.nextRecord .decoded)
      (Decoder.ofFeed (Tape.ofBytes out.bytes) limits) entries final ∧
        InStep out entries final := by
  obtain ⟨final, hends, hscope, hstats⟩ :=
    Decoder.ends_of_stream (Grammar.Stream.mk h.records hheaded)
  have hdictionary : final.dictionary.toList =
      out.encoder.lexicon.entries.take out.encoder.lexicon.announced :=
    congrArg Grammar.Scope.dictionary hscope
  refine ⟨final, hends, ?_, congrArg Grammar.Scope.lastDictionary hscope,
    congrArg Grammar.Scope.offset hscope, ?_, h.position.symm, hconsistent.framed, ?_, ?_, ?_, ?_⟩
  · rw [hdictionary, Lexicon.take_append_pending]
  · rw [hstats, h.position]
    rfl
  · rw [hstats]
    exact (h.valueRecords.trans (Nat.zero_add _)).symm
  · rw [hstats]
    exact (h.addRecords.trans (Nat.zero_add _)).symm
  · rw [hstats]
    exact (h.clearRecords.trans (Nat.zero_add _)).symm
  · exact (h.stringsInterned.trans (Nat.zero_add _)).symm

/-- **Lockstep.**  Whatever is asked of an encoder that has started, the last record that changed
the dictionary does not lie behind the position.  As long as a reader's limits admit what is asked
and 64 bits hold the position, a decoder that reads everything emitted so far comes to a clean end,
and stands where the encoder stands.  Calls that were refused are among those that were asked. -/
theorem inStep_run (options : EncodeOptions) (limits : Limits) (calls : List Call) :
    ((start options).run calls).encoder.lastDictionary ≤
        ((start options).run calls).encoder.position ∧
      (Call.AllAdmitted limits (start options).encoder calls →
        ((start options).run calls).bytes.length < UInt64.size →
        ∃ entries final, Run.Ends (Decoder.nextRecord .decoded)
          (Decoder.ofFeed (Tape.ofBytes ((start options).run calls).bytes) limits) entries final ∧
            InStep ((start options).run calls) entries final) := by
  have hconsistent := consistent_run calls (consistent_start options)
  refine ⟨hconsistent.last, ?_⟩
  intro hadmitted hlength
  obtain ⟨entry, rest, hheader, hstart⟩ := framed_start limits options
  obtain ⟨more, others, hrun⟩ :=
    framed_run calls (Encoder.live_start limits options) hstart hadmitted hlength
  obtain ⟨final, hends, hstep⟩ :=
    inStep_of_framed hconsistent hrun (Grammar.headed_cons.mpr hheader)
  exact ⟨_, final, hends, hstep⟩

/-- A key that enters the dictionary, and a new epoch behind it. -/
theorem inStep_run_key :
    let calls := [Call.put (.object [("k", .null)]), Call.clear]
    Call.AllAdmitted {} (start {}).encoder calls ∧
      ((start {}).run calls).bytes.length < UInt64.size ∧
      ∃ entries final, Run.Ends (Decoder.nextRecord .decoded)
        (Decoder.ofFeed (Tape.ofBytes ((start {}).run calls).bytes) {}) entries final ∧
          InStep ((start {}).run calls) entries final := by
  intro calls
  have hshort : Encoder.Short {} (Json.object [("k", .null)]).texts := by
    intro s hs
    obtain rfl : s = "k" := List.mem_singleton.mp hs
    decide
  have hadmitted : Call.AllAdmitted {} (start {}).encoder calls :=
    ⟨⟨hshort, fun _ => ⟨by decide, by decide +kernel, by decide +kernel⟩⟩, trivial, trivial⟩
  have hlength : ((start {}).run calls).bytes.length < UInt64.size := by decide +kernel
  exact ⟨hadmitted, hlength, (inStep_run {} {} calls).2 hadmitted hlength⟩

end Output

end DictLog
