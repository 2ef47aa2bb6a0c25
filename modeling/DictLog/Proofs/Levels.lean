/-
# One limit of nesting on both sides

The writing side counts the levels of a value by recursion on the value, the reading side those of a
payload token by token.  Both draw the line at the same depth: a value is written exactly if its depth
is within the limit, and is refused for nothing else (`fault_write`); and a reader that has room for the
record of a value otherwise reads it back exactly if the depth is within its own limit, and fails with a
limit that is exceeded if not (`nesting_shared`).

For the reader, a value that is deep enough to be read says nothing about one that is not.  What it does
there is seen from a reader with as much room as the value takes: it does the same, unless it is refused
(`View.wider`), and it cannot do the same, since what it returns is never deeper than its limit.
-/
import DictLog.Proofs.Lines
import DictLog.Proofs.Record
import DictLog.Proofs.Stricter

namespace DictLog

/-! ## 1. The writing side -/

namespace Emission

variable {σ : Type} {e : Emission σ} {next : σ → Emission σ} {fault : Fault}

/-- Two steps fail one after the other if the first fails, or if the second does. -/
theorem error_of_andThen (h : (e.andThen next).outcome = .error fault) :
    e.outcome = .error fault ∨ (next e.state).outcome = .error fault := by
  cases he : e.outcome with
  | ok u =>
    rw [andThen_of_ok he] at h
    exact .inr h
  | error other =>
    rw [andThen_of_error he, he] at h
    exact .inl h

end Emission

namespace Payload

variable {limit : Nat} {fault : Fault}

mutual

/-- A value is refused for its nesting, and for nothing else.  So a writer that has room for it
writes it. -/
theorem fault_write : ∀ (room : Nat) (v : Json) (l : Lexicon),
    (write limit room v l).outcome = .error fault → fault = .limit (.writtenNesting limit)
  | _, .null, _, h => nomatch h
  | _, .bool _, _, h => nomatch h
  | _, .number _, _, h => nomatch h
  | _, .string s, l, h => by
    unfold write string at h
    split at h <;> cases h
  | 0, .array _, _, h => (Except.error.inj h).symm
  | room + 1, .array items, l, h => by
    rcases Emission.error_of_andThen h with h | h
    · cases h
    · rcases Emission.error_of_andThen h with h | h
      · exact fault_writeItems room items l h
      · cases h
  | 0, .object _, _, h => (Except.error.inj h).symm
  | room + 1, .object members, l, h => by
    rcases Emission.error_of_andThen h with h | h
    · cases h
    · rcases Emission.error_of_andThen h with h | h
      · exact fault_writeMembers room members l h
      · cases h

/-- Among items, the first one that is refused has the fault. -/
theorem fault_writeItems : ∀ (room : Nat) (items : List Json) (l : Lexicon),
    (writeItems limit room items l).outcome = .error fault → fault = .limit (.writtenNesting limit)
  | _, [], _, h => nomatch h
  | room, v :: rest, l, h => by
    rcases Emission.error_of_andThen h with h | h
    · exact fault_write room v l h
    · exact fault_writeItems room rest _ h

/-- Among members, whose keys are never refused, the first value that is refused has it. -/
theorem fault_writeMembers : ∀ (room : Nat) (members : List (String × Json)) (l : Lexicon),
    (writeMembers limit room members l).outcome = .error fault →
      fault = .limit (.writtenNesting limit)
  | _, [], _, h => nomatch h
  | room, (k, v) :: rest, l, h => by
    rcases Emission.error_of_andThen h with h | h
    · unfold string at h
      split at h <;> cases h
    · rcases Emission.error_of_andThen h with h | h
      · exact fault_write room v _ h
      · exact fault_writeMembers room rest _ h

end

end Payload

/-! ## 2. The reading side -/

namespace Grammar

variable {limits : Limits} {dictionary : List String}

mutual

/-- What is read nests no deeper than there is room, one level for each container that is opened. -/
theorem Value.depth_le : ∀ {room : Nat} {bs : List UInt8} {v : Json},
    Value limits dictionary room bs v → v.depth ≤ room
  | _, _, _, .null => Nat.zero_le _
  | _, _, _, .boolTrue => Nat.zero_le _
  | _, _, _, .boolFalse => Nat.zero_le _
  | _, _, _, .natural _ => Nat.zero_le _
  | _, _, _, .negative _ _ => Nat.zero_le _
  | _, _, _, .double _ _ => Nat.zero_le _
  | _, _, _, .text _ => Nat.zero_le _
  | _, _, _, .array h => by
    have hitems := h.depth_le
    simp only [Json.depth]
    omega
  | _, _, _, @Value.object _ _ _ _ members h => by
    have hmembers := h.depth_le
    have hmerged := Json.depthMembers_ofList members
    simp only [Json.depth]
    omega

theorem Items.depth_le : ∀ {room : Nat} {bs : List UInt8} {items : List Json},
    Items limits dictionary room bs items → Json.depthItems items ≤ room
  | _, _, _, .nil => Nat.zero_le _
  | _, _, _, .cons head tail => Nat.max_le.mpr ⟨head.depth_le, tail.depth_le⟩

theorem MemberList.depth_le : ∀ {room : Nat} {bs : List UInt8} {members : List (String × Json)},
    MemberList limits dictionary room bs members → Json.depthMembers members ≤ room
  | _, _, _, .nil => Nat.zero_le _
  | _, _, _, .cons _ value tail => Nat.max_le.mpr ⟨value.depth_le, tail.depth_le⟩

end

end Grammar

/-! ## 3. Readers in front of the record of a value -/

namespace Decoder

open OnTape
open Encoder (Short)

/-- A reader between records, in front of the record around a payload that was written for a value.  All
strings that the payload may refer to are in its dictionary, and there is room for everything but,
perhaps, the nesting: each string, the payload and the dictionary are within the reader's limits, and
what is written as a word fits one. -/
structure Faces (d : Decoder Tape) (v : Json) (written : Emission Lexicon) (backlink : Nat)
    (more : List UInt8) : Prop where
  started : d.started = true
  lookahead : d.lookahead = none
  bytes : d.tokens.feed.rest = Wire.value backlink written.bytes ++ more
  linked : d.tokens.lastDictionary + backlink = d.tokens.offset
  announced : written.state.entries <+: d.dictionary.toList
  strings : Short d.limits v.texts
  payload : written.bytes.length ≤ d.limits.maxPayloadLength
  dictionary : d.dictionary.size ≤ d.limits.maxDictionaryEntries
  offset_word : d.tokens.offset < UInt64.size
  payload_word : written.bytes.length < UInt64.size
  index_word : d.dictionary.size ≤ UInt64.size

variable {d : Decoder Tape} {v : Json} {limit backlink : Nat} {l : Lexicon} {more : List UInt8}

/-- What is reported about the record of a value. -/
def entryOf (d : Decoder Tape) (v : Json) (written : Emission Lexicon) (backlink : Nat) : Entry :=
  ⟨d.tokens.offset, some backlink, .value written.bytes.length (some v)⟩

/-- With room for its nesting too, the value is read back.  This is the one thing that facing a
payload leaves open. -/
theorem Faces.read (h : Faces d v (Payload.ofJson limit v l) backlink more) (hv : v.Distinct)
    (hlimit : v.depth ≤ limit) (hdepth : v.depth ≤ d.limits.maxNestingDepth) :
    ∃ d', nextRecord .decoded d = .ok (some (d.entryOf v (Payload.ofJson limit v l) backlink)) d' ∧
      d'.tokens.feed.rest = more := by
  have hindex : d.scope.dictionary.length ≤ UInt64.size := by
    rw [scope, Dictionary.length_toList]
    exact h.index_word
  have hvalue : Grammar.Value d.limits d.scope.dictionary d.limits.maxNestingDepth
      (Payload.ofJson limit v l).bytes v :=
    Payload.value_ofJson hv hlimit hdepth h.strings h.payload_word h.announced hindex
  have hrecord := Wire.record_value hvalue h.linked h.offset_word h.payload_word h.payload
  obtain ⟨t, hreads, hrest⟩ := Reads.exists_of_rest (s := d) h.bytes
  refine ⟨_, (nextRecord_eq_some h.lookahead h.dictionary).mpr
    ⟨.inl h.started, _, _, t, hrecord, hreads, rfl⟩, hrest⟩

/-- More room for the nesting does not take away anything of what a reader in front of a payload
needs. -/
theorem Faces.wider (h : Faces d v (Payload.ofJson limit v l) backlink more) (wider : Limits) :
    Faces ((View.wider wider).decoder d) v (Payload.ofJson limit v l) backlink more where
  started := h.started
  lookahead := h.lookahead
  bytes := h.bytes
  linked := h.linked
  announced := h.announced
  strings s hs := Nat.le_trans (h.strings s hs) (d.limits.within_join_left wider).strings
  payload := Nat.le_trans h.payload (d.limits.within_join_left wider).payloads
  dictionary := Nat.le_trans h.dictionary (d.limits.within_join_left wider).dictionaries
  offset_word := h.offset_word
  payload_word := h.payload_word
  index_word := h.index_word

/-- What is returned is never deeper than the limit. -/
theorem depth_le_of_nextRecord {d' : Decoder Tape} {offset length : Nat} {backlink : Option Nat}
    (hd : d.lookahead = none) (hsize : d.dictionary.size ≤ d.limits.maxDictionaryEntries)
    (h : nextRecord .decoded d = .ok (some ⟨offset, backlink, .value length (some v)⟩) d') :
    v.depth ≤ d.limits.maxNestingDepth := by
  obtain ⟨-, bs, after, t, hrecord, -⟩ := (nextRecord_eq_some hd hsize).mp h
  cases hrecord with
  | value _ _ _ _ denotes => exact denotes.depth_le

/-- Without room for its nesting, the value is refused.  Every other limit is kept; that it is
refused is found by comparing with a reader that has the room. -/
theorem Faces.refuse (h : Faces d v (Payload.ofJson limit v l) backlink more) (hv : v.Distinct)
    (hlimit : v.depth ≤ limit) (hdepth : d.limits.maxNestingDepth < v.depth) :
    ∃ excess d', nextRecord .decoded d = .error (.limit excess) d' := by
  let wider : Limits := { d.limits with maxNestingDepth := v.depth }
  obtain ⟨t, hread, -⟩ := (h.wider wider).read hv hlimit (Nat.le_max_right ..)
  -- The wider reader reads the value.  This one does the same or is refused, and the same would be
  -- deeper than its limit.
  rcases shows_nextRecord (View.wider wider) .decoded d with hsame | ⟨fault, t, herror, excess, rfl⟩
  · rw [hread] at hsame
    cases hnext : nextRecord .decoded d with
    | ok entry d' =>
      rw [hnext] at hsame
      cases hsame
      have hle := depth_le_of_nextRecord h.lookahead h.dictionary hnext
      omega
    | error fault d' =>
      rw [hnext] at hsame
      cases hsame
  · exact ⟨excess, t, herror⟩

/-- **One limit of nesting on both sides.**  Whatever a lexicon has seen, a value is written exactly
if its depth is within the limit, and what is not written is refused for its nesting.  And a reader
in front of the record of a value, whatever limit it was written with, reads the value exactly if
its depth is within the reader's limit, and fails with a limit that is exceeded if not. -/
theorem nesting_shared (v : Json) (l : Lexicon) (limit : Nat) :
    ((Payload.ofJson limit v l).outcome = .ok () ↔ v.depth ≤ limit) ∧
    (∀ fault, (Payload.ofJson limit v l).outcome = .error fault →
      fault = .limit (.writtenNesting limit)) ∧
    (v.Distinct → v.depth ≤ limit → ∀ (d : Decoder Tape) (backlink : Nat) (more : List UInt8),
      Faces d v (Payload.ofJson limit v l) backlink more →
        (v.depth ≤ d.limits.maxNestingDepth → ∃ d', nextRecord .decoded d =
          .ok (some (d.entryOf v (Payload.ofJson limit v l) backlink)) d' ∧
            d'.tokens.feed.rest = more) ∧
        (d.limits.maxNestingDepth < v.depth → ∃ excess d',
          nextRecord .decoded d = .error (.limit excess) d')) :=
  ⟨Payload.outcome_write limit v l, fun _ => Payload.fault_write limit v l,
    fun hv hlimit _ _ _ h => ⟨h.read hv hlimit, h.refuse hv hlimit⟩⟩

/-- Three levels, the last of them empty, where three may be read and where two may be read. -/
theorem nesting_shared_three :
    let v : Json := .array [.null, .object [("k", .array [])]]
    let written := Payload.ofJson 3 v (.new 10 10)
    let reader (depth : Nat) : Decoder Tape :=
      { tokens := .ofFeed { rest := Wire.value 5 written.bytes ++ [0x43], offset := 5 }
          { maxNestingDepth := depth }
        dictionary := .ofList ["k"]
        started := true }
    (∃ d', nextRecord .decoded (reader 3) = .ok (some ((reader 3).entryOf v written 5)) d' ∧
      d'.tokens.feed.rest = [0x43]) ∧
    ∃ excess d', nextRecord .decoded (reader 2) = .error (.limit excess) d' := by
  intro v written reader
  have hv : v.Distinct := by simp [v, Json.Distinct, Json.DistinctItems, Json.DistinctMembers]
  have hdepth : v.depth = 3 := rfl
  have hlength : written.bytes.length = 9 := by decide +kernel
  have hstrings : Short {} v.texts := by
    intro s hs
    obtain rfl : s = "k" := List.mem_singleton.mp hs
    decide +kernel
  have hfaces : ∀ depth, Faces (reader depth) v written 5 [0x43] := by
    intro depth
    refine ⟨rfl, rfl, rfl, rfl, List.prefix_rfl, hstrings, ?_, ?_, ?_, ?_, ?_⟩
    · exact hlength ▸ (by decide : 9 ≤ 67108864)
    · exact (by decide : 1 ≤ 16777216)
    · exact (by decide : 5 < UInt64.size)
    · exact hlength ▸ (by decide : 9 < UInt64.size)
    · exact (by decide : 1 ≤ UInt64.size)
  have hshared := fun depth =>
    (nesting_shared v (.new 10 10) 3).2.2 hv (Nat.le_of_eq hdepth) (reader depth) 5 [0x43]
      (hfaces depth)
  exact ⟨(hshared 3).1 (Nat.le_refl 3), (hshared 2).2 (Nat.lt_succ_self 2)⟩

end Decoder

end DictLog
