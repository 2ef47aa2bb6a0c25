/-
# Decoders side by side

Decoders on coupled feeds that hold no token back and stand at corresponding places go the same
way: token by token, value by value, record by record (`agree_nextRecord`).  So they return the
same records until the first of them finds its input over, or both fail with the same fault.

A decoder also stands beside itself, and that alone says that each record takes a byte or more
(`nextRecord_shortens`): its records come to an end or to a fault.

What has to be the same in both dictionaries is left open where no string is looked up, since a
`clear` record comes out alike whatever came before it.

A bound on repetitions may differ on both sides, as long as each is above what is still to come.
-/
import DictLog.Proofs.Feeds
import DictLog.Proofs.Lookahead

namespace DictLog

open Step

/-- Both readers have fewer bytes to come than their bounds. -/
structure Bond.Within {σ τ : Type} (b : Bond σ τ) (most most' : Nat) (s : σ) (t : τ) : Prop where
  beside : b.Beside s t
  left : b.left s < most
  right : b.right t < most'

/-- Who goes on has fewer bytes to come, and so stays within the bounds. -/
theorem Bond.Within.behind {σ τ : Type} {b : Bond σ τ} {most most' n : Nat} {s s' : σ} {t t' : τ}
    (h : b.Within most most' s t) (hst : b.Behind n s t s' t') : b.Within most most' s' t' where
  beside := hst.beside
  left := by
    have hlt := h.left
    have hle := hst.left
    omega
  right := by
    have hlt := h.right
    have hle := hst.right
    omega

/-- A byte taken makes up for a repetition, on both sides, whatever the bounds were that they
started with. -/
theorem Bond.Within.step {σ τ : Type} {b : Bond σ τ} {times times' : Nat} {s s' : σ} {t t' : τ}
    (h : b.Within (times + 1) (times' + 1) s t) (hst : b.Behind 1 s t s' t') :
    b.Within times times' s' t' where
  beside := hst.beside
  left := by
    have hlt := h.left
    have hle := hst.left
    omega
  right := by
    have hlt := h.right
    have hle := hst.right
    omega

variable {σ τ : Type} [Feed σ] [Feed τ]

/-! ## 1. Tokens -/

/-- Decoders on coupled feeds, at corresponding places and with no token held back.  Their
dictionaries are related by `D`. -/
structure Decoder.Beside (c : Coupling σ τ) (D : Dictionary → Dictionary → Prop) (d : Decoder σ)
    (e : Decoder τ) : Prop where
  tokens : TokenStream.Beside c d.tokens e.tokens
  lookahead : d.lookahead = none
  lookahead' : e.lookahead = none
  dictionary : D d.dictionary e.dictionary
  started : e.started = d.started

/-- The bond of the decoders on two feeds. -/
def Coupling.decoders (c : Coupling σ τ) (D : Dictionary → Dictionary → Prop) :
    Bond (Decoder σ) (Decoder τ) where
  shift := c.shift
  leeway := c.leeway
  Beside := Decoder.Beside c D
  left d := Feed.unread d.tokens.feed
  right e := Feed.unread e.tokens.feed

namespace Decoder

variable {α β : Type} {g : α → β} {n : Nat} {c : Coupling σ τ}
  {D : Dictionary → Dictionary → Prop} {d : Decoder σ} {e : Decoder τ}

theorem Beside.limits (h : Beside c D d e) : e.limits = d.limits :=
  h.tokens.limits

theorem Beside.onTokens (h : Beside c D d e) {t : TokenStream σ} {u : TokenStream τ}
    (htu : c.streams.Behind n d.tokens e.tokens t u) :
    (c.decoders D).Behind n d e { d with tokens := t } { e with tokens := u } :=
  ⟨⟨htu.beside, h.lookahead, h.lookahead', h.dictionary, h.started⟩, htu.left, htu.right⟩

theorem Beside.changed (h : Beside c D d e) {dictionary dictionary' : Dictionary}
    {started started' : Bool} {stats stats' : DecodeStats} (hD : D dictionary dictionary')
    (hstarted : started' = started) :
    (c.decoders D).Behind 0 d e { d with dictionary, started, stats }
      { e with dictionary := dictionary', started := started', stats := stats' } :=
  ⟨⟨h.tokens, h.lookahead, h.lookahead', hD, hstarted⟩, Nat.le_refl _, Nat.le_refl _⟩

/-- What token streams agree on, decoders agree on. -/
theorem parallel_onTokens {m : EStateM Fault (TokenStream σ) α}
    {m' : EStateM Fault (TokenStream τ) β} (hm : c.streams.Parallel g m m') :
    (c.decoders D).Parallel g (onTokens m) (onTokens m') :=
  fun d e h => (hm d.tokens e.tokens h.tokens).onPart (fun _ _ _ htu => h.onTokens htu) rfl rfl

/-- Where no token is held back, the next is that of the token streams, and takes a byte. -/
theorem agree_advance (h : Beside c D d e) :
    AgreeNext (c.decoders D) 1 (Placed.shift c.shift) d e (advance d) (advance e) := by
  rw [advance_of_none h.lookahead, advance_of_none h.lookahead']
  exact (TokenStream.agree_next c h.tokens).onPart (fun _ _ _ htu => h.onTokens htu) rfl rfl

/-- A token that has to be there takes a byte as well. -/
theorem agree_require (h : Beside c D d e) :
    Agree (c.decoders D) 1 (Placed.shift c.shift) d e (require d) (require e) :=
  (agree_advance h).bind (fun p _ _ hde => .pure hde.beside p) rfl rfl

theorem parallel_require :
    (c.decoders D).Parallel (Placed.shift c.shift) require require :=
  fun _ _ h => (agree_require h).mono (Nat.zero_le 1)

/-- A terminator, or the same complaint about another token. -/
theorem parallel_expectTerminator :
    (c.decoders D).Parallel id expectTerminator expectTerminator := by
  intro d e h
  refine (parallel_require d e h).bind fun p d' e' hde => ?_
  obtain ⟨offset, token⟩ := p
  cases token with
  | terminator => exact .pure hde.beside ()
  | _ => exact .throw hde.beside (.unexpectedToken _ _ offset) nofun

/-! ## 2. Values -/

section Values

/-- With the same dictionary, an index leads to the same string or to none. -/
theorem parallel_lookup (index : UInt64) :
    (c.decoders Eq).Parallel id (lookup index) (lookup index) := by
  intro d e h
  unfold lookup
  rw [get_bind_apply, get_bind_apply, ← h.dictionary]
  cases d.dictionary.get? index.toNat with
  | some s => exact .pure h s
  | none => exact .throw h (.indexOutOfRange _ _) nofun

/-- A token that is a value by itself is the same value on both sides, or the same fault.  A
reference is looked up in dictionaries that are the same. -/
theorem parallel_scalar (offset : Nat) (token : Token) :
    (c.decoders Eq).Parallel id (scalar offset token) (scalar (offset + c.shift) token) := by
  intro d e h
  cases token with
  | null => exact .pure h _
  | bool b => exact .pure h _
  | natural n => exact .pure h _
  | string s => exact .pure h _
  | reference index =>
    exact (parallel_lookup index d e h).bind fun s _ _ hde => .pure hde.beside (Json.string s)
  | negative magnitude =>
    simp only [scalar, negated]
    cases Integer.negate? magnitude.toNat with
    | some n => exact .pure h _
    | none => exact .throw h .integerOverflow nofun
  | double bits =>
    simp only [scalar, finite]
    cases Double.ofBits? bits with
    | some x => exact .pure h _
    | none => exact .throw h (.notFinite bits offset) nofun
  | _ => exact .throw h (.unexpectedToken _ _ offset) nofun

/-- Both begin with a token, and go on alike from there. -/
def BeginAlike (c : Coupling σ τ) (most most' : Nat) (m : EStateM Fault (Decoder σ) α)
    (m' : EStateM Fault (Decoder τ) α) : Prop :=
  ∃ f f', m = require >>= f ∧ m' = require >>= f' ∧
    ∀ p d e, (c.decoders Eq).Within most most' d e →
      Agree (c.decoders Eq) 0 id d e (f p d) (f' (p.shift c.shift) e)

variable {most most' : Nat}

/-- Who begins alike agrees. -/
theorem BeginAlike.agree {m : EStateM Fault (Decoder σ) α} {m' : EStateM Fault (Decoder τ) α}
    (hm : BeginAlike c most most' m m') (h : (c.decoders Eq).Within most most' d e) :
    Agree (c.decoders Eq) 0 id d e (m d) (m' e) := by
  obtain ⟨f, f', rfl, rfl, hf⟩ := hm
  exact (parallel_require d e h.beside).bind fun p d' e' hde => hf p d' e' (h.behind hde)

/-- What begins alike and goes on alike begins alike.  A member of an object is of this form: a key,
and then a value. -/
theorem BeginAlike.bind {m : EStateM Fault (Decoder σ) α} {m' : EStateM Fault (Decoder τ) α}
    {k : α → EStateM Fault (Decoder σ) β} {k' : α → EStateM Fault (Decoder τ) β}
    (hm : BeginAlike c most most' m m')
    (hk : ∀ a d e, (c.decoders Eq).Within most most' d e →
      Agree (c.decoders Eq) 0 id d e (k a d) (k' a e)) :
    BeginAlike c most most' (m >>= k) (m' >>= k') := by
  obtain ⟨f, f', rfl, rfl, hf⟩ := hm
  refine ⟨_, _, bind_assoc _ _ _, bind_assoc _ _ _, fun p d e h => ?_⟩
  exact (hf p d e h).bind fun a d' e' hde => hk a d' e' (h.behind hde)

theorem beginAlike_key : BeginAlike c most most' key key := by
  refine ⟨_, _, rfl, rfl, fun p d e h => ?_⟩
  obtain ⟨offset, token⟩ := p
  cases token with
  | string s => exact .pure h.beside s
  | reference index => exact parallel_lookup index d e h.beside
  | _ => exact .throw h.beside (.unexpectedToken _ _ offset) nofun

/-- Parts that begin alike are alike up to the closing token, whatever the two bounds are.  The
bounds are higher than what is left to read, so neither is ever met. -/
theorem agree_partsUntil {close : Tag} {part : EStateM Fault (Decoder σ) α}
    {part' : EStateM Fault (Decoder τ) α} (hpart : BeginAlike c most most' part part')
    (times : Nat) :
    ∀ {times' : Nat} {d : Decoder σ} {e : Decoder τ} (parts : List α),
      (c.decoders Eq).Within most most' d e → (c.decoders Eq).Within times times' d e →
      Agree (c.decoders Eq) 0 id d e (partsUntil close part times parts d)
        (partsUntil close part' times' parts e) := by
  induction times with
  | zero =>
    intro times' d e parts _ htimes
    exact absurd htimes.left (Nat.not_lt_zero _)
  | succ times ih =>
    intro times' d e parts h htimes
    cases times' with
    | zero => exact absurd htimes.right (Nat.not_lt_zero _)
    | succ times' =>
      obtain ⟨f, f', rfl, rfl, hf⟩ := hpart
      have hde := h.beside
      rw [partsUntil_succ hde.lookahead, partsUntil_succ hde.lookahead']
      -- the token takes a byte, which makes up for the repetition
      refine ((agree_require hde).bind fun p d' e' hp => ?_).mono (Nat.zero_le 1)
      have htimes' := htimes.step hp
      by_cases hclose : p.token.tag = close
      · rw [if_pos hclose, if_pos (show (p.shift c.shift).token.tag = close from hclose)]
        exact .pure hp.beside _
      · rw [if_neg hclose, if_neg (show ¬ (p.shift c.shift).token.tag = close from hclose)]
        refine (hf p d' e' (h.behind hp)).bind fun item d'' e'' hitem => ?_
        exact ih (item :: parts) ((h.behind hp).behind hitem) (htimes'.behind hitem)

/-- Nesting that is too deep is the same fault, at corresponding offsets. -/
theorem parallel_tooDeep (offset : Nat) :
    (c.decoders Eq).Parallel (id : α → α) (tooDeep offset) (tooDeep (offset + c.shift)) := by
  intro d e h
  unfold tooDeep
  rw [get_bind_apply, get_bind_apply, h.limits]
  exact .throw h (.limit (.nesting _ offset)) nofun

/-- Values begin alike, by induction on the room that is left.  The bounds for the loops inside are
the same on all levels, so that the hypothesis can be used for parts that stand further on. -/
theorem beginAlike_valueWithin (room : Nat) :
    BeginAlike c most most' (valueWithin most room) (valueWithin most' room) := by
  induction room with
  | zero =>
    -- There is no room, so that containers are refused on both sides.
    refine ⟨_, _, rfl, rfl, fun p d e h => ?_⟩
    obtain ⟨offset, token⟩ := p
    cases token with
    | arrayStart => exact parallel_tooDeep offset d e h.beside
    | objectStart => exact parallel_tooDeep offset d e h.beside
    | _ => exact parallel_scalar offset _ d e h.beside
  | succ room ih =>
    refine ⟨_, _, rfl, rfl, fun p d e h => ?_⟩
    obtain ⟨offset, token⟩ := p
    cases token with
    | arrayStart =>
      exact (agree_partsUntil ih most [] h h).bind fun items _ _ hde =>
        .pure hde.beside (Json.array items)
    | objectStart =>
      refine (agree_partsUntil (beginAlike_key.bind fun k d e h => ?_) most [] h h).bind
        fun members _ _ hde => .pure hde.beside (Json.object (Members.ofList members))
      exact (ih.agree h).bind fun v _ _ hde => .pure hde.beside (k, v)
    | _ => exact parallel_scalar offset _ d e h.beside

end Values

/-- A value, as deep as the limit allows. -/
theorem parallel_value : (c.decoders Eq).Parallel id value value := by
  intro d e h
  unfold value
  rw [get_bind_apply, get_bind_apply, h.limits]
  exact (beginAlike_valueWithin _).agree ⟨h, Nat.lt_succ_self _, Nat.lt_succ_self _⟩

/-! ## 3. Records -/

/-- A version, or the same complaint about it.  It says where the version stood, so the offset in it
is shifted. -/
theorem parallel_version : (c.decoders Eq).Parallel id version version := by
  intro d e h
  refine (parallel_require d e h).bind fun p d' e' hde => ?_
  obtain ⟨offset, token⟩ := p
  cases token with
  | natural n =>
    by_cases hversion : n.toNat = Format.version
    · simp only [Placed.shift, if_pos hversion]
      exact .pure hde.beside _
    · simp only [Placed.shift, if_neg hversion]
      exact .throw hde.beside (.versionMismatch _ _) nofun
  | _ => exact .throw hde.beside (.unexpectedToken _ _ offset) nofun

/-- A string that is added, if there is room; the dictionaries are the same before and after. -/
theorem parallel_addString (s : String) :
    (c.decoders Eq).Parallel id (addString s) (addString s) := by
  intro d e h
  unfold addString
  rw [get_bind_apply, get_bind_apply, h.limits, ← h.dictionary]
  by_cases hlimit : d.limits.maxDictionaryEntries ≤ d.dictionary.size
  · simp only [if_pos hlimit]
    exact .throw h (.limit (.dictionary _)) nofun
  · simp only [if_neg hlimit]
    exact .ok (h.changed rfl h.started)

/-- The strings of an `add` record, up to its terminator.  Each takes a byte, which makes up for the
repetition, so that the bounds of the two sides need not be the same. -/
theorem agree_additions (times : Nat) :
    ∀ {times' : Nat} {d : Decoder σ} {e : Decoder τ} (added : Nat),
      (c.decoders Eq).Within times times' d e →
      Agree (c.decoders Eq) 0 id d e (additions times added d) (additions times' added e) := by
  induction times with
  | zero =>
    intro times' d e added h
    exact absurd h.left (Nat.not_lt_zero _)
  | succ times ih =>
    intro times' d e added h
    cases times' with
    | zero => exact absurd h.right (Nat.not_lt_zero _)
    | succ times' =>
      refine ((agree_require h.beside).bind fun p d' e' hp => ?_).mono (Nat.zero_le 1)
      have h' : (c.decoders Eq).Within times times' d' e' := h.step hp
      obtain ⟨offset, token⟩ := p
      cases token with
      | terminator => exact .pure hp.beside added
      | string s =>
        refine (parallel_addString s d' e' hp.beside).bind fun _ d'' e'' hs => ?_
        exact ih (added + 1) (h'.behind hs)
      | _ => exact .throw hp.beside (.unexpectedToken _ _ offset) nofun

theorem parallel_headerRecord : (c.decoders Eq).Parallel id headerRecord headerRecord := by
  intro d e h
  refine (parallel_version d e h).bind fun version d' e' hde => ?_
  refine (parallel_expectTerminator d' e' hde.beside).bind fun _ d'' e'' hde' => ?_
  exact .ok (hde'.beside.changed hde'.beside.dictionary rfl)

/-- A `clear` record makes both dictionaries empty, whatever they were.  It is the one record for
which nothing needs to be known of them. -/
theorem parallel_clearRecord (hD : D .empty .empty) :
    (c.decoders D).Parallel id clearRecord clearRecord := by
  intro d e h
  refine (parallel_expectTerminator d e h).bind fun _ d' e' hde => ?_
  exact .ok (hde.beside.changed hD hde.beside.started)

theorem parallel_addRecord : (c.decoders Eq).Parallel id addRecord addRecord := by
  intro d e h
  unfold addRecord
  rw [get_bind_apply, get_bind_apply]
  refine (agree_additions _ 0 ⟨h, Nat.lt_succ_self _, Nat.lt_succ_self _⟩).bind
    fun entries d' e' hde => ?_
  exact .ok (hde.beside.changed hde.beside.dictionary hde.beside.started)

/-- A payload is as long on both sides, since offsets differ by the same number before and behind
it. -/
theorem parallel_payload (offset length : Nat) :
    (c.decoders Eq).Parallel id (payload offset length) (payload (offset + c.shift) length) := by
  intro d e h
  unfold payload
  rw [get_bind_apply, get_bind_apply, h.tokens.offset_eq]
  refine (parallel_value d e h).bind fun v d' e' hde => ?_
  rw [get_bind_apply, get_bind_apply, hde.beside.tokens.offset_eq, Nat.add_sub_add_right]
  by_cases hlength : d'.tokens.offset - d.tokens.offset = length
  · simp only [if_pos hlength]
    exact .pure hde.beside v
  · simp only [if_neg hlength]
    exact .throw hde.beside (.payloadLength offset length _) nofun

theorem parallel_payloadIf (payloads : Payloads) (offset length : Nat) :
    (c.decoders Eq).Parallel id (payloadIf payloads offset length)
      (payloadIf payloads (offset + c.shift) length) := by
  intro d e h
  cases payloads with
  | decoded =>
    exact (parallel_payload offset length d e h).bind fun v _ _ hde => .pure hde.beside (some v)
  | skipped =>
    exact (parallel_onTokens (TokenStream.parallel_skip c length) d e h).bind fun _ _ _ hde =>
      .pure hde.beside none

/-- A `value` record, with its payload decoded or skipped on both sides. -/
theorem parallel_valueRecord (payloads : Payloads) (offset length : Nat) :
    (c.decoders Eq).Parallel id (valueRecord payloads offset length)
      (valueRecord payloads (offset + c.shift) length) := by
  intro d e h
  refine (parallel_payloadIf payloads offset length d e h).bind fun v d' e' hde => ?_
  refine (parallel_expectTerminator d' e' hde.beside).bind fun _ d'' e'' hde' => ?_
  exact .ok (hde'.beside.changed hde'.beside.dictionary hde'.beside.started)

theorem parallel_openedClear (hD : D .empty .empty) (payloads : Payloads) (offset : Nat) :
    (c.decoders D).Parallel (Entry.shift c.shift) (opened payloads offset .clear)
      (opened payloads (offset + c.shift) .clear) :=
  fun d e h => (parallel_clearRecord hD d e h).bind fun record _ _ hde =>
    .pure hde.beside (Entry.mk offset none record)

/-- What follows the first token of a record, for every token that opens one.  A `clear` record has a
lemma of its own, as it may stand behind dictionaries that differ. -/
theorem parallel_opened (payloads : Payloads) (offset : Nat) (token : Token) :
    (c.decoders Eq).Parallel (Entry.shift c.shift) (opened payloads offset token)
      (opened payloads (offset + c.shift) token) := by
  intro d e h
  cases token with
  | header =>
    exact (parallel_headerRecord d e h).bind fun record _ _ hde =>
      .pure hde.beside (Entry.mk offset none record)
  | clear => exact parallel_openedClear rfl payloads offset d e h
  | add backlink =>
    exact (parallel_addRecord d e h).bind fun record _ _ hde =>
      .pure hde.beside (Entry.mk offset (some backlink) record)
  | value backlink length =>
    exact (parallel_valueRecord payloads offset length d e h).bind fun record _ _ hde =>
      .pure hde.beside (Entry.mk offset (some backlink) record)
  | _ => exact .throw h (.invalidRecordStart _ offset) nofun

/-- Whether a record may come depends on the header, which both have read or neither. -/
theorem parallel_checkStarted (token : Token) :
    (c.decoders D).Parallel id (checkStarted token) (checkStarted token) := by
  intro d e h
  unfold checkStarted
  rw [get_bind_apply, get_bind_apply, h.started]
  by_cases hmay : d.started ∨ token = .header
  · rw [if_pos hmay, if_pos hmay]
    exact .pure h ()
  · rw [if_neg hmay, if_neg hmay]
    exact .throw h .missingHeader nofun

/-- The record that begins with a token. -/
def recordAt (payloads : Payloads) (p : Placed) : EStateM Fault (Decoder σ) Entry := do
  checkStarted p.token
  let entry ← opened payloads p.offset p.token
  markRead
  return entry

/-- The next record is a token and the record that begins with it, or the end. -/
theorem nextRecord_eq (payloads : Payloads) :
    (nextRecord payloads : EStateM Fault (Decoder σ) (Option Entry)) = advance >>= fun
      | none => markRead >>= fun _ => pure none
      | some p => recordAt payloads p >>= fun entry => pure (some entry) := by
  rw [nextRecord]
  congr
  funext p
  cases p with
  | none => rfl
  | some p => simp only [recordAt, bind_assoc, pure_bind]

/-- A record that begins with a token, if what follows the token is agreed on. -/
theorem agree_recordAt {payloads : Payloads} {p : Placed} (h : Beside c D d e)
    (hopened : (c.decoders D).Parallel (Entry.shift c.shift) (opened payloads p.offset p.token)
      (opened payloads (p.offset + c.shift) p.token)) :
    Agree (c.decoders D) 0 (Entry.shift c.shift) d e (recordAt payloads p d)
      (recordAt payloads (p.shift c.shift) e) := by
  refine (parallel_checkStarted p.token d e h).bind fun _ d' e' hde => ?_
  refine (hopened d' e' hde.beside).bind fun entry d'' e'' hde' => ?_
  have hst := hde'.beside
  exact .ok (hst.changed hst.dictionary hst.started)

/-- **Records agree.**  Decoders side by side agree on the next record: it is the same but for its
offset, or it is the same fault, or the first has come to the end of its input. -/
theorem agree_nextRecord (payloads : Payloads) (h : Beside c Eq d e) :
    AgreeNext (c.decoders Eq) 1 (Entry.shift c.shift) d e (nextRecord payloads d)
      (nextRecord payloads e) := by
  rw [nextRecord_eq, nextRecord_eq]
  refine (agree_advance h).bindNext _ _ (fun p d' e' hde => ?_) (fun _ => rfl) (fun _ => rfl)
    (fun d' e' hde => ?_)
  · exact (agree_recordAt hde.beside (parallel_opened payloads p.offset p.token)).next
  · have hst := hde.beside
    exact hde.trans (hst.changed hst.dictionary hst.started)

/-! ## 4. Runs to the end -/

section Lawful

variable [LawfulFeed σ] [LawfulFeed τ] {payloads : Payloads} {entries : List Entry}
  {final : Decoder σ}

theorem Beside.self (hd : d.lookahead = none) :
    Beside (Coupling.lawful σ σ .nothing 0) Eq d d where
  tokens := ⟨⟨rfl, [], (List.append_nil _).symm, rfl, rfl⟩, rfl, rfl⟩
  lookahead := hd
  lookahead' := hd
  dictionary := rfl
  started := rfl

/-- Each record leaves fewer bytes to come, whether its payload is decoded or not. -/
theorem nextRecord_shortens (payloads : Payloads) :
    Run.Shrinks (nextRecord payloads) (fun d : Decoder σ => d.lookahead = none)
      (fun d => Feed.unread d.tokens.feed) := by
  intro d entry d' hd hnext
  have hself := agree_nextRecord payloads (Beside.self hd)
  rw [hnext] at hself
  obtain ⟨e, he, hbehind⟩ := hself.of_item
  exact ⟨hbehind.beside.lookahead, hbehind.left⟩

/-- All records of a decoder that comes to the end.  It asks more often than there may be records, so
that the end is found. -/
theorem records_of_ends (hd : d.lookahead = none)
    (h : Run.Ends (nextRecord payloads) d entries final) :
    records payloads d = ⟨entries, none, final⟩ :=
  h.ask_eq (nextRecord_shortens payloads) hd (Nat.lt_succ_self _)

theorem records_of_fails (hd : d.lookahead = none) {fault : Fault}
    (h : Run.Fails (nextRecord payloads) d entries fault final) :
    records payloads d = ⟨entries, some fault, final⟩ :=
  h.ask_eq (nextRecord_shortens payloads) hd (Nat.lt_succ_self _)

theorem ends_or_fails_records (payloads : Payloads) (hd : d.lookahead = none) :
    (∃ entries final, Run.Ends (nextRecord payloads) d entries final) ∨
      ∃ entries fault final, Run.Fails (nextRecord payloads) d entries fault final :=
  Run.ends_or_fails (nextRecord_shortens payloads) _ d (Nat.lt_succ_self _) hd

/-- Records that come first are the first of all records. -/
theorem prefix_of_yields (hd : d.lookahead = none) {d' : Decoder σ}
    (h : Run.Yields (nextRecord payloads) d entries d') :
    entries <+: (records payloads d).items :=
  Run.prefix_of_yields h
    (Nat.le_of_lt (h.length_lt (nextRecord_shortens payloads) hd (Nat.lt_succ_self _)))

end Lawful

end Decoder

end DictLog
