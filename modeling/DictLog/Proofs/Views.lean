/-
# Readers seen as others

A reader looks at its feed through the offset, the number of bytes that are left and the steps that
take bytes, and at its limits only to refuse what exceeds them.  So a `View` of feeds as others, and of
limits as others that are no stricter, is a view of whole token streams and decoders: each step is seen
to do what the same step does on the other side, unless it fails with a fault that the view excuses
(`ShowsUnless`).  Where limits are seen as wider ones, these are the faults of limits; where they are
seen as they are, there need be none.
-/
import DictLog.Proofs.Feeds
import DictLog.Proofs.Lookahead

namespace DictLog

open Step

/-! ## 1. Views -/

/-- No limit is wider than the other one for the same thing. -/
structure Limits.Within (limits wider : Limits) : Prop where
  strings : limits.maxStringLength ≤ wider.maxStringLength
  payloads : limits.maxPayloadLength ≤ wider.maxPayloadLength
  nesting : limits.maxNestingDepth ≤ wider.maxNestingDepth
  dictionaries : limits.maxDictionaryEntries ≤ wider.maxDictionaryEntries

theorem Limits.Within.refl (limits : Limits) : limits.Within limits :=
  ⟨Nat.le_refl _, Nat.le_refl _, Nat.le_refl _, Nat.le_refl _⟩

/-- Feeds that are seen as others, and limits that are seen as others.  Where limits are seen as wider
ones, what exceeds them is excused. -/
structure View (σ τ : Type) [Feed σ] [Feed τ] where
  feed : σ → τ
  limits : Limits → Limits
  Excused : Fault → Prop
  offset_eq : ∀ s, Feed.offset s = Feed.offset (feed s)
  unread_eq : ∀ s, Feed.unread s = Feed.unread (feed s)
  nextByte : Shows feed (Feed.nextByte : EStateM Fault σ _) Feed.nextByte
  take : ∀ n, Shows feed (Feed.take n : EStateM Fault σ _) (Feed.take n)
  skip : ∀ n, Shows feed (Feed.skip n : EStateM Fault σ _) (Feed.skip n)
  within : ∀ l : Limits, l.Within (limits l)
  excused : ∀ l : Limits, limits l = l ∨ ∀ excess, Excused (.limit excess)

variable {σ τ α β : Type} [Feed σ] [Feed τ]

namespace View

variable (v : View σ τ)

/-- The token stream that one is seen as. -/
def tokens (t : TokenStream σ) : TokenStream τ where
  feed := v.feed t.feed
  limits := v.limits t.limits
  lastDictionary := t.lastDictionary
  failed := t.failed

/-- The decoder that one is seen as. -/
def decoder (d : Decoder σ) : Decoder τ where
  tokens := v.tokens d.tokens
  lookahead := d.lookahead
  dictionary := d.dictionary
  started := d.started
  failed := d.failed
  stats := d.stats

theorem offset_tokens (t : TokenStream σ) : (v.tokens t).offset = t.offset :=
  (v.offset_eq t.feed).symm

theorem offset_decoder (d : Decoder σ) : (v.decoder d).tokens.offset = d.tokens.offset :=
  v.offset_tokens d.tokens

/-- As many bytes are left in both, and so the bounds on repetitions are the same. -/
theorem bound_decoder (d : Decoder σ) : (v.decoder d).bound = d.bound :=
  congrArg (· + 1) (v.unread_eq d.tokens.feed).symm

/-- A step that is refused where a limit is exceeded: seen with a wider one, it may only be refused
where it was before. -/
theorem limited {ρ ρ' : Type} {view : ρ → ρ'} {m : EStateM Fault ρ α} {m' : EStateM Fault ρ' α}
    (l : Limits) {field : Limits → Nat} (hfield : ∀ {l m : Limits}, l.Within m → field l ≤ field m)
    {exceeded : Nat → Prop} [DecidablePred exceeded]
    (hexceeded : ∀ {n m : Nat}, n ≤ m → exceeded m → exceeded n) (excess : Nat → Excess)
    (h : ShowsUnless v.Excused view m m') :
    ShowsUnless v.Excused view (if exceeded (field l) then throw (.limit (excess (field l))) else m)
      (if exceeded (field (v.limits l)) then throw (.limit (excess (field (v.limits l)))) else m') := by
  rcases v.excused l with hsame | hexcused
  · rw [hsame]
    exact .ite (.throw _) h
  · by_cases hnarrow : exceeded (field l)
    · rw [if_pos hnarrow]
      exact .excuse (hexcused _)
    · rw [if_neg hnarrow, if_neg (mt (hexceeded (hfield (v.within l))) hnarrow)]
      exact h

/-- Steps of token streams that are seen as each other. -/
abbrev OnTokens (m : EStateM Fault (TokenStream σ) α) (m' : EStateM Fault (TokenStream τ) α) : Prop :=
  ShowsUnless v.Excused v.tokens m m'

/-- Steps of decoders that are seen as each other. -/
abbrev OnDecoder (m : EStateM Fault (Decoder σ) α) (m' : EStateM Fault (Decoder τ) α) : Prop :=
  ShowsUnless v.Excused v.decoder m m'

end View

/-! ## 2. Token streams -/

namespace TokenStream

variable (v : View σ τ)

/-- What is seen of a feed is seen of a stream on it. -/
theorem shows_onFeed {m : EStateM Fault σ α} {m' : EStateM Fault τ α}
    (h : ShowsUnless v.Excused v.feed m m') : v.OnTokens (onFeed m) (onFeed m') :=
  h.ofPart (fun _ => rfl) (fun _ _ => rfl)

theorem shows_varint : v.OnTokens varint varint :=
  shows_onFeed v (Feed.shows_varintFrom v.nextByte _ _)

/-- A backlink leads to the same place on both sides, as marks are seen as they are. -/
theorem shows_backlink (offset : Nat) : v.OnTokens (backlink offset) (backlink offset) :=
  (shows_varint v).bind fun _ => .get fun _ => .ite (.pure _) (.throw _)

theorem shows_markDictionary (offset : Nat) :
    v.OnTokens (markDictionary offset) (markDictionary offset) :=
  .modified fun _ => rfl

theorem shows_textOfLength (length : Nat) :
    v.OnTokens (textOfLength length) (textOfLength length) := by
  refine (shows_onFeed v (.of_shows (v.take length))).bind fun bytes => ?_
  split
  · exact .pure _
  · exact .throw _

/-- A string in full: one of the three places where a limit is held against a number that was read. -/
theorem shows_text (offset : Nat) : v.OnTokens (text offset) (text offset) :=
  (shows_varint v).bind fun length => .get fun t =>
    v.limited t.limits (·.strings) Nat.lt_of_le_of_lt (.string length.toNat offset)
      (shows_textOfLength v _)

/-- The beginning of a `value` record: another of these places. -/
theorem shows_valueHead (offset : Nat) : v.OnTokens (valueHead offset) (valueHead offset) :=
  (shows_backlink v offset).bind fun _ => (shows_varint v).bind fun length => .get fun t =>
    v.limited t.limits (·.payloads) Nat.lt_of_le_of_lt (.payload length.toNat offset) (.pure _)

theorem shows_terminatorEnd : v.OnTokens terminatorEnd terminatorEnd := by
  refine .get fun t => ?_
  rw [v.offset_tokens]
  exact (shows_onFeed v (Feed.shows_requireByte v.nextByte)).bind fun _ => .ite (.pure _) (.throw _)

/-- What follows the tag of a token, for every tag.  Two of the places where a limit is held against
a number are among them. -/
theorem shows_body (offset : Nat) (tag : Tag) : v.OnTokens (body offset tag) (body offset tag) := by
  cases tag with
  | clear => exact (shows_markDictionary v offset).map _
  | add =>
    exact (shows_backlink v offset).bind fun _ => (shows_markDictionary v offset).map _
  | value => exact shows_valueHead v offset
  | terminator => exact shows_terminatorEnd v
  | natural => exact (shows_varint v).map _
  | negative => exact (shows_varint v).map _
  | reference => exact (shows_varint v).map _
  | double => exact (shows_onFeed v (Feed.shows_array v.nextByte 8)).map _
  | string => exact (shows_text v offset).map _
  | _ => exact .pure _

/-- A byte opens the same token on both sides, or none. -/
theorem shows_opened (offset : Nat) (byte : UInt8) :
    v.OnTokens (opened offset byte) (opened offset byte) := by
  unfold opened
  split
  · exact (shows_body v offset _).map _
  · exact .throw _

theorem shows_scan : v.OnTokens scan scan := by
  refine .get fun t => ?_
  rw [v.offset_tokens]
  refine (shows_onFeed v (.of_shows v.nextByte)).bind fun byte => ?_
  cases byte with
  | some byte => exact (shows_opened v _ byte).map _
  | none => exact .pure _

/-- **Tokens are seen.**  The next token of a stream is that of the stream that it is seen as,
unless a limit is exceeded that the other does not have. -/
theorem shows_next : v.OnTokens next next := by
  intro t
  unfold next
  -- A stream notes that it has failed, and so does the one it is seen as.
  rcases shows_scan v t with hsame | ⟨fault, u, herror, hexcused⟩
  · left
    rw [← hsame]
    cases scan t <;> rfl
  · right
    rw [herror]
    exact ⟨fault, _, rfl, hexcused⟩

/-- A stream that has failed gives nothing more, and the note of it is seen as it is. -/
theorem shows_nextUnlessFailed : v.OnTokens nextUnlessFailed nextUnlessFailed :=
  .get fun _ => .ite (.pure _) (shows_next v)

theorem shows_skip (length : Nat) : v.OnTokens (skip length) (skip length) :=
  shows_onFeed v (.of_shows (v.skip length))

end TokenStream

/-! ## 3. Decoders -/

namespace Decoder

open TokenStream (shows_next)

variable (v : View σ τ)

theorem shows_onTokens {m : EStateM Fault (TokenStream σ) α} {m' : EStateM Fault (TokenStream τ) α}
    (h : v.OnTokens m m') : v.OnDecoder (onTokens m) (onTokens m') :=
  h.ofPart (fun _ => rfl) (fun _ _ => rfl)

/-- A token that was held back is the same on both sides; else the next one is scanned. -/
theorem shows_advance : v.OnDecoder advance advance := by
  intro d
  cases hheld : d.lookahead with
  | none =>
    have hheld' : (v.decoder d).lookahead = none := hheld
    rw [advance_of_none hheld, advance_of_none hheld']
    exact shows_onTokens v (shows_next v) d
  | some token =>
    have hheld' : (v.decoder d).lookahead = some token := hheld
    simp only [advance, hheld, hheld']
    exact .inl rfl

theorem shows_require : v.OnDecoder require require := by
  refine (shows_advance v).bind fun p => ?_
  cases p with
  | none => exact .throw _
  | some p => exact .pure p

theorem shows_peek : v.OnDecoder peek peek :=
  (shows_require v).bind fun p => .bind (.modified fun _ => rfl) fun _ => .pure p

theorem shows_expectTerminator : v.OnDecoder expectTerminator expectTerminator := by
  refine (shows_require v).bind fun p => ?_
  obtain ⟨offset, token⟩ := p
  cases token with
  | terminator => exact .pure ()
  | _ => exact .throw _

theorem shows_lookup (index : UInt64) : v.OnDecoder (lookup index) (lookup index) := by
  refine .get fun d => ?_
  have hsame : (v.decoder d).dictionary = d.dictionary := rfl
  simp only [hsame]
  cases d.dictionary.get? index.toNat with
  | some s => exact .pure s
  | none => exact .throw _

/-- Scalars have no limit, except that their strings have one, which was checked with the token. -/
theorem shows_scalar (offset : Nat) (token : Token) :
    v.OnDecoder (scalar offset token) (scalar offset token) := by
  cases token with
  | negative magnitude =>
    rw [scalar, scalar, negated, negated]
    split
    · exact .pure _
    · exact .throw _
  | double bits =>
    rw [scalar, scalar, finite, finite]
    split
    · exact .pure _
    · exact .throw _
  | reference index => exact (shows_lookup v index).bind fun s => .pure _
  | null => exact .pure _
  | bool b => exact .pure _
  | natural n => exact .pure _
  | string s => exact .pure _
  | _ => exact .throw _

theorem shows_key : v.OnDecoder key key := by
  refine (shows_require v).bind fun p => ?_
  obtain ⟨offset, token⟩ := p
  cases token with
  | string s => exact .pure s
  | reference index => exact shows_lookup v index
  | _ => exact .throw _

/-- Parts up to a closing token.  Both sides may go on equally often, since they have the same
bound. -/
theorem shows_partsUntil {close : Tag} {part : EStateM Fault (Decoder σ) α}
    {part' : EStateM Fault (Decoder τ) α} (hpart : v.OnDecoder part part') (times : Nat) :
    ∀ parts, v.OnDecoder (partsUntil close part times parts) (partsUntil close part' times parts) := by
  induction times with
  | zero => exact fun _ => .throw _
  | succ times ih =>
    refine fun parts => (shows_peek v).bind fun next => .ite ?_ ?_
    · exact ((shows_advance v).bind fun _ => .pure ()).bind fun _ => .pure _
    · exact hpart.bind fun item => ih (item :: parts)

/-- The fault of nesting too deep is the same where the limit is seen as it is, and excused where it
is not. -/
theorem shows_tooDeep (offset : Nat) :
    v.OnDecoder (tooDeep offset : EStateM Fault (Decoder σ) α) (tooDeep offset) := by
  refine .get fun d => ?_
  have hlimits : (v.decoder d).limits = v.limits d.limits := rfl
  rw [hlimits]
  rcases v.excused d.limits with hsame | hexcused
  · rw [hsame]
    exact .throw _
  · exact .excuse (hexcused _)

/-- Where more room is seen, it excuses what is too deep without it.  As long as there is room on
both sides, they do the same, one level after the other. -/
theorem shows_valueWithin (times : Nat) : ∀ {room room' : Nat}, room ≤ room' →
    (room' = room ∨ ∀ excess, v.Excused (.limit excess)) →
      v.OnDecoder (valueWithin times room) (valueWithin times room') := by
  intro room
  induction room with
  | zero =>
    intro room' _ hroom
    cases room' with
    | zero =>
      refine (shows_require v).bind fun p => ?_
      obtain ⟨offset, token⟩ := p
      cases token with
      | arrayStart => exact shows_tooDeep v offset
      | objectStart => exact shows_tooDeep v offset
      | _ => exact shows_scalar v offset _
    | succ room' =>
      -- No level is left here, but one is on the other side: a container is refused here only,
      -- and that is excused.
      have hexcused := hroom.resolve_left (Nat.succ_ne_zero room')
      refine (shows_require v).bind fun p => ?_
      obtain ⟨offset, token⟩ := p
      cases token with
      | arrayStart => exact fun d => .inr ⟨_, d, rfl, hexcused _⟩
      | objectStart => exact fun d => .inr ⟨_, d, rfl, hexcused _⟩
      | _ => exact shows_scalar v offset _
  | succ room ih =>
    intro room' hle hroom
    obtain ⟨room', rfl⟩ := Nat.exists_eq_add_one_of_ne_zero (Nat.ne_zero_of_lt hle)
    have hpart := ih (Nat.le_of_succ_le_succ hle) (hroom.imp_left Nat.succ.inj)
    refine (shows_require v).bind fun p => ?_
    obtain ⟨offset, token⟩ := p
    cases token with
    | arrayStart => exact (shows_partsUntil v hpart times []).map _
    | objectStart =>
      have hmember := (shows_key v).bind fun k => hpart.map (Prod.mk k)
      exact (shows_partsUntil v hmember times []).map _
    | _ => exact shows_scalar v offset _

/-- A value, with as many levels as the limit says.  The limit that is seen may be wider, so the
other side may have more. -/
theorem shows_value : v.OnDecoder value value := by
  refine .get fun d => ?_
  rw [v.bound_decoder]
  exact shows_valueWithin v _ (v.within d.limits).nesting
    ((v.excused d.limits).imp_left (congrArg Limits.maxNestingDepth))

theorem shows_version : v.OnDecoder version version := by
  refine (shows_require v).bind fun p => ?_
  obtain ⟨offset, token⟩ := p
  cases token with
  | natural n => exact .ite (.pure _) (.throw _)
  | _ => exact .throw _

/-- A string that is added: the third place where a limit is held against a number. -/
theorem shows_addString (s : String) : v.OnDecoder (addString s) (addString s) :=
  .get fun d => v.limited d.limits (·.dictionaries) Nat.le_trans .dictionary fun _ => .inl rfl

/-- The strings of an `add` record, one after the other. -/
theorem shows_additions (times : Nat) : ∀ added,
    v.OnDecoder (additions times added) (additions times added) := by
  induction times with
  | zero => exact fun _ => .throw _
  | succ times ih =>
    refine fun added => (shows_require v).bind fun p => ?_
    obtain ⟨offset, token⟩ := p
    cases token with
    | terminator => exact .pure added
    | string s => exact (shows_addString v s).bind fun _ => ih (added + 1)
    | _ => exact .throw _

/-- A payload is decoded on both sides, or skipped on both.  Its length is compared with the offsets,
which are seen as they are. -/
theorem shows_payloadIf (payloads : Payloads) (offset length : Nat) :
    v.OnDecoder (payloadIf payloads offset length) (payloadIf payloads offset length) := by
  cases payloads with
  | decoded =>
    refine ShowsUnless.map (.get fun d => ?_) some
    rw [v.offset_decoder]
    refine (shows_value v).bind fun w => .get fun d' => ?_
    rw [v.offset_decoder]
    exact .ite (.pure w) (.throw _)
  | skipped => exact (shows_onTokens v (TokenStream.shows_skip v length)).bind fun _ => .pure none

/-- What follows the first token of a record, for every token that opens one.  A record is looked at
part by part; the parts have been shown to be seen. -/
theorem shows_opened (payloads : Payloads) (offset : Nat) (token : Token) :
    v.OnDecoder (opened payloads offset token) (opened payloads offset token) := by
  cases token with
  | header =>
    have hrecord : v.OnDecoder headerRecord headerRecord :=
      (shows_version v).bind fun _ => (shows_expectTerminator v).bind fun _ =>
        .bind (.modified fun _ => rfl) fun _ => .pure _
    exact hrecord.map _
  | clear =>
    have hrecord : v.OnDecoder clearRecord clearRecord :=
      (shows_expectTerminator v).bind fun _ => .bind (.modified fun _ => rfl) fun _ => .pure _
    exact hrecord.map _
  | add backlink =>
    have hrecord : v.OnDecoder addRecord addRecord := by
      refine .get fun d => ?_
      rw [v.bound_decoder]
      exact (shows_additions v _ 0).bind fun _ => .bind (.modified fun _ => rfl) fun _ => .pure _
    exact hrecord.map _
  | value backlink length =>
    have hrecord : v.OnDecoder (valueRecord payloads offset length)
        (valueRecord payloads offset length) :=
      (shows_payloadIf v payloads offset length).bind fun _ => (shows_expectTerminator v).bind
        fun _ => .bind (.modified fun _ => rfl) fun _ => .pure _
    exact hrecord.map _
  | _ => exact .throw _

theorem shows_checkStarted (token : Token) : v.OnDecoder (checkStarted token) (checkStarted token) :=
  .get fun _ => .ite (.pure ()) (.throw _)

theorem shows_markRead : v.OnDecoder markRead markRead := by
  refine .modified fun d => ?_
  rw [v.offset_decoder]
  rfl

/-- **Records are seen.**  The next record of a decoder is that of the decoder that it is seen as. -/
theorem shows_nextRecord (payloads : Payloads) :
    v.OnDecoder (nextRecord payloads) (nextRecord payloads) := by
  refine (shows_advance v).bind fun p => ?_
  cases p with
  | none => exact (shows_markRead v).bind fun _ => .pure none
  | some p =>
    exact (shows_checkStarted v p.token).bind fun _ =>
      (shows_opened v payloads p.offset p.token).bind fun entry =>
        (shows_markRead v).bind fun _ => .pure (some entry)

/-- Looking for a value passes over the same records on both sides, because they are the same
records. -/
theorem shows_nextValueWithin (times : Nat) :
    v.OnDecoder (nextValueWithin times) (nextValueWithin times) := by
  induction times with
  | zero => exact .pure none
  | succ times ih =>
    refine (shows_nextRecord v .decoded).bind fun entry => ?_
    cases entry with
    | none => exact .pure none
    | some entry =>
      obtain ⟨offset, backlink, record⟩ := entry
      cases record with
      | value n w => exact .pure w
      | _ => exact ih

theorem shows_nextValue : v.OnDecoder nextValue nextValue := by
  refine .get fun d => ?_
  rw [v.bound_decoder]
  exact shows_nextValueWithin v _

/-- A decoder that has failed gives no more values, and that is seen, too. -/
theorem shows_nextUnlessFailed : v.OnDecoder nextUnlessFailed nextUnlessFailed := by
  intro d
  have hfailed : (v.decoder d).failed = d.failed := rfl
  unfold nextUnlessFailed
  rw [hfailed]
  by_cases h : d.failed
  · rw [if_pos h, if_pos h]
    exact .inl rfl
  · rw [if_neg h, if_neg h]
    rcases shows_nextValue v d with hsame | ⟨fault, e, herror, hexcused⟩
    · left
      rw [← hsame]
      cases nextValue d <;> rfl
    · right
      rw [herror]
      exact ⟨fault, _, rfl, hexcused⟩

end Decoder

end DictLog
