/-
# A payload ends by itself

The bytes of a payload need no length in front of them and no mark behind them: whatever follows, a
reader of the value stops at the payload's last byte, and holds no token back (`payload_delimited`).

The writing side's dictionary grows while a payload is written, and a reference is written at once
to what has just entered it.  So the bytes are no value in the dictionary that there was before; they
are one in every dictionary that begins with the strings that there are afterwards
(`Payload.value_write`), since later strings move no index.  That the reader takes these bytes and no
more is `takes_value`.  It is about tapes, and other feeds give what their tapes give
(`shows_value`).
-/
import DictLog.Proofs.Chunks
import DictLog.Proofs.Lines

namespace DictLog.Decoder

open OnTape
open Encoder (Short)

variable {σ : Type} [Feed σ] [LawfulFeed σ] {v : Json} {limit length : Nat} {l : Lexicon}
  {rest : List UInt8}

/-- The bytes that a decoder has not read. -/
def unreadBytes (d : Decoder σ) : List UInt8 :=
  (LawfulFeed.tape d.tokens.feed).rest

/-- A decoder that holds no token back, in front of a payload that was written for a value.  Its
dictionary begins with the strings that there were when the payload was written, its limits admit the
value, and what is written as a word fits one. -/
structure AtPayload (d : Decoder σ) (v : Json) (written : Emission Lexicon) (rest : List UInt8) :
    Prop where
  lookahead : d.lookahead = none
  unread : d.unreadBytes = written.bytes ++ rest
  announced : written.state.entries <+: d.dictionary.toList
  nesting : v.depth ≤ d.limits.maxNestingDepth
  strings : Short d.limits v.texts
  payload_word : written.bytes.length < UInt64.size
  index_word : d.dictionary.size ≤ UInt64.size

/-- The second decoder is the first, so many bytes further on: it holds no token back, just these bytes
are left, and all that it knows is what it knew. -/
structure PastPayload (d d' : Decoder σ) (length : Nat) (rest : List UInt8) : Prop where
  lookahead : d'.lookahead = none
  unread : d'.unreadBytes = rest
  offset : d'.tokens.offset = d.tokens.offset + length
  dictionary : d'.dictionary = d.dictionary
  limits : d'.limits = d.limits
  linked : d'.tokens.lastDictionary = d.tokens.lastDictionary
  started : d'.started = d.started
  stats : d'.stats = d.stats

/-! ## 1. Tapes -/

/-- A decoder that has read some bytes, and holds no token back, is past them. -/
theorem pastPayload_of_reads {d d' : Decoder Tape} {bytes : List UInt8} (hd : d.lookahead = none)
    (h : Reads d bytes d') : PastPayload d d' bytes.length d'.tokens.feed.rest := by
  have hoffset := h.offset
  have hframe := h.frame
  rw [hframe]
  exact ⟨hd, rfl, hoffset, rfl, rfl, rfl, rfl, rfl⟩

/-- On a tape, the reader takes just the payload.  The grammar has one value that begins with these
bytes, and it ends where they do, whatever follows. -/
theorem AtPayload.read_tape {d : Decoder Tape} (h : AtPayload d v (Payload.ofJson limit v l) rest)
    (hv : v.Distinct) (hlimit : v.depth ≤ limit) :
    ∃ d', value d = .ok v d' ∧ PastPayload d d' (Payload.ofJson limit v l).bytes.length rest := by
  have hindex : d.dictionary.toList.length ≤ UInt64.size := by
    rw [Dictionary.length_toList]
    exact h.index_word
  have hvalue := Payload.value_ofJson hv hlimit h.nesting h.strings h.payload_word h.announced hindex
  obtain ⟨d', hreads, hrest⟩ := Reads.exists_of_rest (s := d) h.unread
  have htakes := takes_value (d := d) ⟨h.lookahead, rfl, rfl, Nat.lt_succ_self _⟩
  refine ⟨d', (htakes.ok_iff v d').mpr ⟨_, hvalue, hreads⟩, ?_⟩
  have hpast := pastPayload_of_reads h.lookahead hreads
  rwa [show d'.tokens.feed.rest = rest from hrest] at hpast

/-! ## 2. All feeds -/

theorem AtPayload.onTape {d : Decoder σ} {written : Emission Lexicon} (h : AtPayload d v written rest) :
    AtPayload (View.onTape.decoder d) v written rest :=
  ⟨h.lookahead, h.unread, h.announced, h.nesting, h.strings, h.payload_word, h.index_word⟩

/-- A decoder that is past a payload on its tape is past it, because everything that the tape does
not show is the same in both. -/
theorem pastPayload_of_onTape {d d' : Decoder σ}
    (h : PastPayload (View.onTape.decoder d) (View.onTape.decoder d') length rest) :
    PastPayload d d' length rest where
  lookahead := h.lookahead
  unread := h.unread
  offset := by
    have hoffset := h.offset
    rwa [View.offset_decoder, View.offset_decoder] at hoffset
  dictionary := h.dictionary
  limits := h.limits
  linked := h.linked
  started := h.started
  stats := h.stats

/-- Whatever feed the bytes come from, the reader takes just the payload, since it is seen to do
what it does on a tape. -/
theorem AtPayload.read {d : Decoder σ} (h : AtPayload d v (Payload.ofJson limit v l) rest)
    (hv : v.Distinct) (hlimit : v.depth ≤ limit) :
    ∃ d', value d = .ok v d' ∧ PastPayload d d' (Payload.ofJson limit v l).bytes.length rest := by
  obtain ⟨t, hread, hpast⟩ := h.onTape.read_tape hv hlimit
  have hseen := (shows_value View.onTape).shows d
  rw [hread] at hseen
  cases hvalue : value d with
  | error fault d' =>
    rw [hvalue] at hseen
    cases hseen
  | ok w d' =>
    rw [hvalue] at hseen
    cases hseen
    exact ⟨d', rfl, pastPayload_of_onTape hpast⟩

/-- **A payload ends by itself, and is read in every later dictionary.**  Take a value, a lexicon in
any state and a limit that the value's depth is within: the value is written, and the lexicon's
strings stay in front of those that enter it.  Whatever bytes follow the payload, and whatever feed
they come from, a decoder whose dictionary begins with the lexicon's strings afterwards, and whose
limits admit the value, reads the value, is behind the last byte of the payload, and holds no token
back. -/
theorem payload_delimited (v : Json) (hv : v.Distinct) (l : Lexicon) (limit : Nat)
    (hlimit : v.depth ≤ limit) :
    let written := Payload.ofJson limit v l
    written.outcome = .ok () ∧ l.entries <+: written.state.entries ∧
      ∀ {σ : Type} [Feed σ] [LawfulFeed σ] (d : Decoder σ) (rest : List UInt8),
        AtPayload d v written rest →
          ∃ d', value d = .ok v d' ∧ PastPayload d d' written.bytes.length rest :=
  ⟨(Payload.outcome_write limit v l).mpr hlimit, Payload.entries_write limit limit v l,
    fun _ _ h => h.read hv hlimit⟩

/-- A key that enters the dictionary and is referred to twice before it is announced; the reader knows
one more string, and another payload follows. -/
theorem payload_delimited_shared :
    let v : Json := .array [.object [("k", .string "k")], .string "k"]
    let written := Payload.ofJson 2 v (.new 10 10)
    let d : Decoder Tape :=
      { tokens := .ofFeed { rest := written.bytes ++ [0x10, 0x47], offset := 9 } {}
        dictionary := .ofList ["k", "later"] }
    ∃ d', value d = .ok v d' ∧ PastPayload d d' 10 [0x10, 0x47] := by
  intro v written d
  have hv : v.Distinct := by simp [v, Json.Distinct, Json.DistinctItems, Json.DistinctMembers]
  have hlength : written.bytes.length = 10 := by decide +kernel
  have hstrings : Short {} v.texts := by
    intro s hs
    obtain rfl : s = "k" := by simpa [v, Json.texts, Json.textsItems, Json.textsMembers] using hs
    decide +kernel
  have hat : AtPayload d v written [0x10, 0x47] := by
    refine ⟨rfl, rfl, ⟨["later"], by decide +kernel⟩, by decide, hstrings, ?_, ?_⟩
    · exact hlength ▸ (by decide : 10 < UInt64.size)
    · exact (by decide : 2 ≤ UInt64.size)
  have hread := (payload_delimited v hv (.new 10 10) 2 (Nat.le_refl 2)).2.2 d _ hat
  rwa [show (Payload.ofJson 2 v (.new 10 10)).bytes.length = 10 from hlength] at hread

end DictLog.Decoder
