/-
# Limits hold, whatever the bytes

Whatever a decoder is fed, and however often it is asked on after a failure, no value is returned
that its limits forbid, none is larger than its payload, and every count and offset stays below the
number of bytes that there are (`limits_hold`).

Values are measured against the grammar (`Grammar.Value.sized`), which a decoder follows on any
lawful feed as it does on a tape.
-/
import DictLog.Proofs.Chunks
import DictLog.Proofs.Sizes

namespace DictLog

open Step

section AnyFeed

variable {σ : Type} [Feed σ] [LawfulFeed σ] {limits : Limits} {floor length : Nat}

namespace Decoder

open Encoder (Short)

variable {d d' : Decoder σ} {payloads : Payloads} {entry : Entry}

/-! ## 1. What is returned -/

/-- What a reader with these limits may be told in a payload of so many bytes. -/
structure Admissible (limits : Limits) (length : Nat) (v : Json) : Prop where
  payload : length ≤ limits.maxPayloadLength
  depth : v.depth ≤ limits.maxNestingDepth
  texts : Short limits v.texts
  nodes : v.nodes ≤ length
  doubles : ∀ x ∈ v.doubles, x.bits.toNat % Binary64.signBit < Binary64.infinity

/-- What a reader with these limits may be told by a record. -/
def AdmissibleRecord (limits : Limits) : Record → Prop
  | .header version => version = Format.version
  | .clear => True
  | .add entries => entries ≤ limits.maxDictionaryEntries
  | .value length v => length ≤ limits.maxPayloadLength ∧ ∀ w ∈ v, Admissible limits length w

/-- What the grammar admits is admissible, where the strings of the dictionary are within the limit.
A value may refer to those, and all else in it is in its payload. -/
theorem admissible_of_grammar {s : Grammar.Scope} {bs : List UInt8} {after : List String}
    (h : Grammar.Record limits s bs entry after) (hshort : Short limits s.dictionary) :
    AdmissibleRecord limits entry.record := by
  cases h with
  | header _ => rfl
  | clear => trivial
  | add _ _ _ limit => exact Nat.le_trans (Nat.le_add_left _ _) limit
  | value _ _ _ limit denotes =>
    refine ⟨limit, fun w hw => ?_⟩
    cases hw
    obtain ⟨hdepth, hnodes, htexts⟩ := denotes.sized hshort
    exact ⟨limit, hdepth, htexts, hnodes, fun x _ => x.finite⟩

/-- So a record whose payload is decoded is.  The decoder is followed on the tape of its feed, where
it is known to keep to the grammar. -/
theorem admissible_of_decoded (hd : Safe limits floor length d)
    (h : nextRecord .decoded d = .ok (some entry) d') : AdmissibleRecord limits entry.record := by
  have hlimits : d.onTape.limits = limits := hd.inside.limits_eq
  have hnext := agree_nextRecord .decoded (beside_onTape hd.inside.lookahead)
  rw [h] at hnext
  obtain ⟨e, he, -⟩ := hnext.of_item
  have hbetween : Between d.onTape := by
    refine ⟨hd.inside.lookahead, ?_⟩
    rw [hlimits]
    exact hd.inside.size
  obtain ⟨-, bs, after, hrecord, -, -⟩ := nextRecord_sound hbetween he
  rw [hlimits] at hrecord
  exact admissible_of_grammar hrecord hd.inside.short

/-- A record that is returned is admissible, whether its payload was decoded or left out. -/
theorem admissible_of_nextRecord (hd : Safe limits floor length d)
    (h : nextRecord payloads d = .ok (some entry) d') : AdmissibleRecord limits entry.record := by
  cases payloads with
  | decoded => exact admissible_of_decoded hd h
  | skipped =>
    rw [nextRecord_eq] at h
    obtain ⟨_ | p, t, hp, h⟩ := bind_eq_ok.mp h
    · cases h
    by_cases htoken : p.token.tag = .value
    · -- A payload that is left out is not looked at.  What is known of the record is in its token.
      obtain ⟨-, bs, hbody⟩ := token_of_advance hd.inside.lookahead hp
      obtain ⟨backlink, declared, hvalue⟩ := Token.openedBy_of_tag htoken
      obtain ⟨found, u, hfound, h⟩ := bind_eq_ok.mp h
      cases h
      obtain ⟨_, v, -, hrest⟩ := bind_eq_ok.mp hfound
      obtain ⟨found, w, hopened, hmark⟩ := bind_eq_ok.mp hrest
      cases hmark
      rw [hvalue] at hbody hopened
      obtain ⟨record, x, hrecord, h⟩ := bind_eq_ok.mp hopened
      cases h
      obtain ⟨payload, y, hpayload, hrecord⟩ := bind_eq_ok.mp hrecord
      obtain ⟨_, z, -, hrecord⟩ := bind_eq_ok.mp hrecord
      obtain ⟨_, q, -, hrecord⟩ := bind_eq_ok.mp hrecord
      cases hrecord
      obtain ⟨_, _, -, hpayload⟩ := bind_eq_ok.mp hpayload
      cases hpayload
      obtain ⟨_, _, -, ⟨-, hlimit⟩, -⟩ := hbody
      rw [hd.inside.limits_eq] at hlimit
      exact ⟨hlimit, nofun⟩
    · -- only a `value` record cares whether payloads are decoded
      have hdecoded : nextRecord .decoded d = .ok (some entry) d' := by
        rw [nextRecord_eq, bind_of_ok hp]
        obtain ⟨offset, token⟩ := p
        cases token with
        | value _ _ => exact absurd rfl htoken
        | _ => exact h
      exact admissible_of_decoded hd hdecoded

/-- A value is that of the first record which has one.  It is searched for record by record, so each
record in between was within the limits as well. -/
theorem admissible_of_nextValueWithin {v : Json} (times : Nat) :
    ∀ {d : Decoder σ}, Safe limits floor length d →
      nextValueWithin times d = .ok (some v) d' → ∃ n, Admissible limits n v := by
  induction times with
  | zero => exact fun _ h => nomatch h
  | succ times ih =>
    intro d hd h
    obtain ⟨entry, t, ht, h⟩ := bind_eq_ok.mp h
    cases entry with
    | none => cases h
    | some entry =>
      have hnext := (leaves_nextRecord .decoded hd).of_ok ht
      have hrecord := admissible_of_decoded hd ht
      obtain ⟨offset, backlink, record⟩ := entry
      cases record with
      | value n w =>
        cases h
        exact ⟨n, hrecord.2 v rfl⟩
      | _ => exact ih hnext h

/-! ## 2. Asking on and on -/

/-- The decoder behind some requests, whatever became of them. -/
def behind (d : Decoder σ) (requests : List ItemRequest) : Decoder σ :=
  requests.foldl (fun d request => left (request.ask d)) d

theorem leaves_ask (request : ItemRequest) (hd : Safe limits floor length d) :
    Leaves (Safe limits floor length) (request.ask d) := by
  cases request with
  | record payloads => exact (leaves_nextRecord payloads hd).bind (fun _ h => h) fun _ _ _ h => h
  | value => exact (leaves_nextValue hd).bind (fun _ h => h) fun _ _ _ h => h
  | valueUnlessFailed =>
    exact (leaves_nextUnlessFailed hd).bind (fun _ h => h) fun _ _ _ h => h

/-- However often it is asked, and whatever failed before, a decoder stays within its limits. -/
theorem Safe.behind (requests : List ItemRequest) : ∀ {d : Decoder σ}, Safe limits floor length d →
    Safe limits floor length (d.behind requests) := by
  induction requests with
  | nil => exact fun hd => hd
  | cons request requests ih => exact fun hd => ih (leaves_ask request hd)

/-- A decoder that has not been asked anything is within its limits: nothing has been read, and the
dictionary is empty. -/
theorem safe_ofFeed {feed : σ} {bytes : List UInt8} {ending : Ending}
    (h : LawfulFeed.Gives feed bytes ending) (limits : Limits) :
    Safe limits 0 bytes.length (ofFeed feed limits) := by
  have hoffset : Feed.offset feed = 0 := by
    rw [LawfulFeed.offset_eq, h]
    rfl
  have hunread : Feed.unread feed = bytes.length := by
    rw [LawfulFeed.unread_eq, h]
    rfl
  refine ⟨⟨rfl, ⟨rfl, ⟨Nat.zero_le _, ?_⟩, Nat.zero_le _⟩, Nat.zero_le _, nofun, rfl⟩,
    Nat.zero_le _, Nat.zero_le _⟩
  show Feed.offset feed + Feed.unread feed = bytes.length
  rw [hoffset, hunread, Nat.zero_add]

/-- **Limits hold, whatever the bytes.**  Whatever bytes a feed gives, however it ends, and whatever
has been asked of the decoder before, also after failures: the dictionary is within its limits, and
so is every record and every value that is returned next.  Offsets and counts do not exceed the
number of bytes, requests only move forward, and a payload ends no earlier than it began, so that
its length can be taken. -/
theorem limits_hold (feed : σ) (bytes : List UInt8) (ending : Ending) (limits : Limits)
    (requests : List ItemRequest) (h : LawfulFeed.Gives feed bytes ending) :
    let d := (ofFeed feed limits).behind requests
    (d.dictionary.size ≤ limits.maxDictionaryEntries ∧ Short limits d.dictionary.toList) ∧
    (∀ payloads entry d', nextRecord payloads d = .ok (some entry) d' →
      AdmissibleRecord limits entry.record) ∧
    (∀ v d', nextValue d = .ok (some v) d' → ∃ n, Admissible limits n v) ∧
    (d.tokens.offset + Feed.unread d.tokens.feed = bytes.length ∧
      d.tokens.lastDictionary ≤ d.tokens.offset ∧ d.stats.records ≤ d.tokens.offset ∧
      d.stats.bytesRead ≤ d.tokens.offset) ∧
    (∀ request : ItemRequest, d.tokens.offset ≤ (left (request.ask d)).tokens.offset) ∧
    ∀ p t v t', advance d = .ok (some p) t → value t = .ok v t' →
      t.tokens.offset ≤ t'.tokens.offset := by
  intro d
  have hd : Safe limits 0 bytes.length d := Safe.behind requests (safe_ofFeed h limits)
  refine ⟨⟨hd.inside.size, hd.inside.short⟩, fun payloads entry d' => admissible_of_nextRecord hd,
    fun v d' => admissible_of_nextValueWithin _ hd, ⟨hd.inside.tokens.feed.total,
      hd.inside.tokens.last, hd.records, hd.bytesRead⟩, fun request => ?_, ?_⟩
  · exact (leaves_ask request hd.raise).inside.tokens.feed.floor
  · -- The floor is raised to where the payload begins, and a value leaves it below where it ends.
    intro p t v t' hp hv
    have ht := (keeps_advance d hd.inside).of_ok hp
    have hraised : Inside limits t.tokens.offset bytes.length d.stats t :=
      ⟨ht.lookahead, ht.tokens.raise, ht.size, ht.short, ht.stats⟩
    exact ((keeps_value t hraised).of_ok hv).tokens.feed.floor

/-- An `add` record that holds one string too many breaks off half applied.  Asked on, the decoder
finds a value that refers to the string that was applied. -/
theorem limits_hold_half_applied :
    let bytes := [0x48, 0x49, 0x01, 0x45, 0x0A, 0x41, 0x05, 0x53, 0x01, 0x61, 0x53, 0x01, 0x62,
      0x56, 0x08, 0x02, 0x58, 0x00, 0x45, 0x0A]
    let feed := Buffered.ofArrivals [.chunk 0x48 [0x49, 0x01, 0x45, 0x0A, 0x41, 0x05, 0x53, 0x01,
      0x61, 0x53], .interrupted, .chunk 0x01 [0x62, 0x56, 0x08, 0x02, 0x58, 0x00, 0x45, 0x0A]]
      (.failing .notUtf8)
    let limits : Limits := { maxDictionaryEntries := 1 }
    let d := (ofFeed feed limits).behind [.record .skipped, .value]
    LawfulFeed.Gives feed bytes (.failing .notUtf8) ∧ d.dictionary.toList = ["a"] ∧
      d.dictionary.size ≤ 1 ∧ Short limits d.dictionary.toList ∧
      ∃ v d' n, nextValue d = .ok (some v) d' ∧ v.texts = ["a"] ∧ Admissible limits n v := by
  intro bytes feed limits d
  have hgives : LawfulFeed.Gives feed bytes (.failing .notUtf8) := rfl
  have hd : d.dictionary.toList = ["a"] := by decide +kernel
  have htexts : (answer? (nextValue d)).join.map Json.texts = some ["a"] := by decide +kernel
  obtain ⟨⟨hsize, hshort⟩, -, hvalues, -⟩ := limits_hold feed bytes (.failing .notUtf8) limits
    [.record .skipped, .value] hgives
  obtain ⟨v, hanswer, hv⟩ := Option.map_eq_some_iff.mp htexts
  obtain ⟨d', hnext⟩ := answer?_eq_some.mp (Option.join_eq_some_iff.mp hanswer)
  obtain ⟨n, hn⟩ := hvalues v d' hnext
  exact ⟨hgives, hd, hsize, hshort, v, d', n, hnext, hv, hn⟩

end Decoder

end AnyFeed

end DictLog
