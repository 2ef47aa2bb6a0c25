/-
# Loops that nothing bounds

The loops of a decoder have bounds, and a fault of their own where a bound runs out.  Here they have
none.  What may be come to is a relation (`Outcome`), a loop is gone through turn after turn until one of
them ends it (`Outcome.Loops`), and nothing says beforehand that one ever does.

`Unbounded.value levels depth` reads a value with such loops.  It counts how deep it is, holds that
against the limit, and calls itself only as long as there are `levels` left: without any, nothing is come
to.  `Unbounded.nextRecord` reads a record.

* `agrees_value`: inside a record, one level more than containers may nest is enough, and what is come
  to is what `value` comes to, and nothing else;
* `agrees_nextRecord`: the same for a record, the strings of an `add` record included.

A loop whose turns leave less and less to read agrees with a bounded one as soon as the bound exceeds
what is left (`agrees_loops`).  Each turn of a loop over parts looks at a token first, to see whether it
closes the container, and puts it back; but a part begins with a token, and taking the one that was put
back is the same as taking it afresh (`require_of_peek`).
-/
import DictLog.Proofs.Safety

namespace DictLog

open Step

/-! ## 1. What steps may come to -/

/-- What may be come to from each state. -/
def Outcome (ε σ α : Type) : Type :=
  σ → EStateM.Result ε σ α → Prop

namespace Outcome

variable {ε σ α β γ : Type}

/-- What a step comes to. -/
def of (m : EStateM ε σ α) : Outcome ε σ α :=
  fun s r => r = m s

/-- Nothing is come to. -/
def never : Outcome ε σ α :=
  fun _ _ => False

/-- What is come to first and, unless that is a failure, then. -/
def andThen (o : Outcome ε σ α) (f : α → Outcome ε σ β) : Outcome ε σ β := fun s r =>
  ∃ first, o s first ∧
    match first with
    | .ok a t => f a t r
    | .error e t => r = .error e t

/-- Outcomes in sequence, so that loops can be written like the bounded ones. -/
instance : Monad (Outcome ε σ) where
  pure a := of (pure a)
  bind := andThen

/-- What is come to in turn after turn, until one of them ends the loop. -/
inductive Loops (turn : β → Outcome ε σ (β ⊕ γ)) : β → σ → EStateM.Result ε σ γ → Prop
  | failed {b : β} {s t : σ} {e : ε} (first : turn b s (.error e t)) : Loops turn b s (.error e t)
  | ended {b : β} {s t : σ} {c : γ} (first : turn b s (.ok (.inr c) t)) : Loops turn b s (.ok c t)
  | again {b b' : β} {s t : σ} {r : EStateM.Result ε σ γ} (first : turn b s (.ok (.inl b') t))
      (rest : Loops turn b' t r) : Loops turn b s r

/-- From this state, what the step comes to is come to, and nothing else. -/
def Agrees (o : Outcome ε σ α) (m : EStateM ε σ α) (s : σ) : Prop :=
  ∀ r, o s r ↔ r = m s

variable {o : Outcome ε σ α} {m : EStateM ε σ α} {s : σ}

theorem agrees_of (m : EStateM ε σ α) (s : σ) : Agrees (of m) m s :=
  fun _ => Iff.rfl

/-- One after the other, where what follows agrees wherever the first step may lead.  The steps are
not compared where the first cannot lead, so invariants can be used. -/
theorem Agrees.bind {f : α → Outcome ε σ β} {g : α → EStateM ε σ β} (h : Agrees o m s)
    (hf : ∀ a t, m s = .ok a t → Agrees (f a) (g a) t) : Agrees (o >>= f) (m >>= g) s := by
  intro r
  have hfirst : (o >>= f) s r ↔ match m s with
      | .ok a t => f a t r
      | .error e t => r = .error e t := by
    constructor
    · rintro ⟨first, hfirst, hr⟩
      rwa [(h first).mp hfirst] at hr
    · intro hr
      exact ⟨m s, (h _).mpr rfl, hr⟩
  rw [hfirst]
  cases hm : m s with
  | ok a t =>
    rw [bind_of_ok hm]
    exact hf a t hm r
  | error e t => rw [bind_of_error hm]

/-- The first turn of a loop, and the rest unless it ends there.  Only the turns that are taken
count, so a loop that does not end has no outcome. -/
theorem loops_eq (turn : β → Outcome ε σ (β ⊕ γ)) (b : β) :
    (Loops turn b : Outcome ε σ γ) = turn b >>= Sum.elim (Loops turn) pure := by
  funext s r
  refine propext ⟨fun h => ?_, fun h => ?_⟩
  · cases h with
    | failed first => exact ⟨_, first, rfl⟩
    | ended first => exact ⟨_, first, rfl⟩
    | again first rest => exact ⟨_, first, rest⟩
  · obtain ⟨⟨b' | c, t⟩ | ⟨e, t⟩, first, hr⟩ := h
    · exact .again first hr
    · obtain rfl : r = .ok c t := hr
      exact .ended first
    · obtain rfl : r = .error e t := hr
      exact .failed first

theorem agrees_get {f : σ → EStateM ε σ α} (h : Agrees o (f s) s) :
    Agrees o (MonadState.get >>= f) s :=
  h

/-- A loop whose turns go down agrees with a bounded one, if the bound is high enough.  The bytes
that are left are what goes down, in every loop of a decoder. -/
theorem agrees_loops {I : σ → Prop} (size : σ → Nat) {turn : β → Outcome ε σ (β ⊕ γ)}
    (step : β → EStateM ε σ (β ⊕ γ)) {bounded : Nat → β → EStateM ε σ γ}
    (hturn : ∀ b s, I s → Agrees (turn b) (step b) s)
    (hstep : ∀ n b, bounded (n + 1) b = step b >>= Sum.elim (bounded n) pure)
    (hdown : ∀ b s b' t, I s → step b s = .ok (.inl b') t → I t ∧ size t < size s) (n : Nat) :
    ∀ b s, I s → size s < n → Agrees (Loops turn b) (bounded n b) s := by
  induction n with
  | zero => exact fun _ _ _ hsize => absurd hsize (Nat.not_lt_zero _)
  | succ n ih =>
    intro b s hs hsize
    rw [loops_eq, hstep]
    refine (hturn b s hs).bind fun x t hx => ?_
    cases x with
    | inl b' =>
      -- Each turn leaves less, so the bound is still above what is left.
      obtain ⟨ht, hless⟩ := hdown b s b' t hs hx
      exact ih b' t ht (by omega)
    | inr c => exact agrees_of _ _

end Outcome

/-! ## 2. Values and strings without a bound -/

namespace Decoder

section AnyFeed

variable {σ α : Type} [Feed σ]

/-- Containers nest no deeper than the limit. -/
def checkDepth (depth offset : Nat) : EStateM Fault (Decoder σ) Unit := do
  let limit := (← get).limits.maxNestingDepth
  if limit ≤ depth then throw (.limit (.nesting limit offset)) else return ()

omit [Feed σ] in
/-- The check fails or does nothing. -/
theorem checkDepth_eq (depth offset : Nat) (d : Decoder σ) :
    checkDepth depth offset d =
      if d.limits.maxNestingDepth ≤ depth then
        .error (.limit (.nesting d.limits.maxNestingDepth offset)) d
      else .ok () d := by
  rw [checkDepth, get_bind_apply]
  split <;> rfl

/-- The next string of an `add` record, or its end, so many having been added. -/
def addition (added : Nat) : EStateM Fault (Decoder σ) (Nat ⊕ Nat) := do
  let ⟨offset, token⟩ ← require
  match token with
  | .terminator => return .inr added
  | .string s =>
    addString s
    return .inl (added + 1)
  | other => throw (.unexpectedToken .dictionaryString other.tag offset)

namespace Unbounded

/-- The strings of an `add` record up to its end. -/
def additions : Outcome Fault (Decoder σ) Nat :=
  Outcome.Loops (fun added => .of (addition added)) 0

/-- The next part, unless the closing token comes. -/
def partOrClose (close : Tag) (part : Outcome Fault (Decoder σ) α) (parts : List α) :
    Outcome Fault (Decoder σ) (List α ⊕ List α) := do
  let next ← .of peek
  if next.token.tag = close then
    .of (discard advance)
    return .inr parts.reverse
  else
    let item ← part
    return .inl (item :: parts)

/-- Parts up to a closing token. -/
def partsUntil (close : Tag) (part : Outcome Fault (Decoder σ) α) :
    Outcome Fault (Decoder σ) (List α) :=
  Outcome.Loops (partOrClose close part) []

/-- A value at this depth, so many levels deep at most. -/
def value : Nat → Nat → Outcome Fault (Decoder σ) Json
  | 0, _ => .never
  | levels + 1, depth => do
    let ⟨offset, token⟩ ← .of require
    match token with
    | .arrayStart =>
      .of (checkDepth depth offset)
      let items ← partsUntil .arrayEnd (value levels (depth + 1))
      return .array items
    | .objectStart =>
      .of (checkDepth depth offset)
      let members ← partsUntil .objectEnd do
        let k ← .of key
        let v ← value levels (depth + 1)
        return (k, v)
      return .object (Members.ofList members)
    | other => .of (scalar offset other)

/-- The value of a payload of so many bytes, in the record at `offset`. -/
def payload (levels offset length : Nat) : Outcome Fault (Decoder σ) Json := do
  let before ← .of get
  let v ← value levels 0
  let behind ← .of get
  let actual := behind.tokens.offset - before.tokens.offset
  if actual = length then return v else .of (throw (.payloadLength offset length actual))

/-- The payload of so many bytes in the record at `offset`, if payloads are decoded. -/
def payloadIf (levels : Nat) (payloads : Payloads) (offset length : Nat) :
    Outcome Fault (Decoder σ) (Option Json) :=
  match payloads with
  | .decoded => do return some (← payload levels offset length)
  | .skipped => .of (Decoder.payloadIf .skipped offset length)

/-- The rest of a `value` record at `offset`. -/
def valueRecord (levels : Nat) (payloads : Payloads) (offset length : Nat) :
    Outcome Fault (Decoder σ) Record := do
  let v ← payloadIf levels payloads offset length
  .of expectTerminator
  .of (modify fun d => { d with stats := { d.stats with valueRecords := d.stats.valueRecords + 1 } })
  return .value length v

/-- The rest of an `add` record. -/
def addRecord : Outcome Fault (Decoder σ) Record := do
  let entries ← additions
  .of (modify fun d => { d with stats := { d.stats with addRecords := d.stats.addRecords + 1 } })
  return .add entries

/-- The record that a token at `offset` opens. -/
def opened (levels : Nat) (payloads : Payloads) (offset : Nat) :
    Token → Outcome Fault (Decoder σ) Entry
  | .add backlink => do return ⟨offset, some backlink, ← addRecord⟩
  | .value backlink length => do
    return ⟨offset, some backlink, ← valueRecord levels payloads offset length⟩
  | other => .of (Decoder.opened payloads offset other)

/-- The next record, none at a clean end, its values so many levels deep at most. -/
def nextRecord (levels : Nat) (payloads : Payloads) :
    Outcome Fault (Decoder σ) (Option Entry) := do
  match ← .of advance with
  | none =>
    .of markRead
    return none
  | some ⟨offset, token⟩ =>
    .of (checkStarted token)
    let entry ← opened levels payloads offset token
    .of markRead
    return some entry

end Unbounded

/-! ## 3. A token held back -/

/-- Nothing tells a token that is held back from one that is still to come. -/
theorem require_of_peek {d t : Decoder σ} {p : Placed} (hd : d.lookahead = none)
    (h : peek d = .ok p t) : require t = require d := by
  obtain ⟨q, u, hq, h⟩ := bind_eq_ok.mp h
  cases h
  have hback : { u with lookahead := none } = u := by
    rw [← lookahead_of_require hd hq]
  rw [hq]
  exact congrArg (EStateM.Result.ok p) hback

/-- What is come to depends on the token that comes first, and not on where it comes from. -/
def FromToken (o : Outcome Fault (Decoder σ) α) : Prop :=
  ∀ d e, require d = require e → o d = o e

/-- A step that begins with a token depends on that. -/
theorem fromToken_of {m : EStateM Fault (Decoder σ) α} (h : BeginsWithToken m) :
    FromToken (.of m) := by
  obtain ⟨f, rfl⟩ := h
  intro d e heq
  funext r
  exact congrArg (r = ·) (bind_congr heq f)

/-- What comes after it makes no difference. -/
theorem FromToken.bind {β : Type} {o : Outcome Fault (Decoder σ) α} (h : FromToken o)
    (f : α → Outcome Fault (Decoder σ) β) : FromToken (o >>= f) := by
  intro d e heq
  show o.andThen f d = o.andThen f e
  unfold Outcome.andThen
  rw [h d e heq]

/-- A value begins with a token. -/
theorem fromToken_value (levels depth : Nat) :
    FromToken (Unbounded.value (levels + 1) depth : Outcome Fault (Decoder σ) Json) :=
  (fromToken_of ⟨pure, (bind_pure _).symm⟩).bind _

/-- The next part or the closing token, as a step. -/
def closeOrPart (close : Tag) (part : EStateM Fault (Decoder σ) α) (parts : List α) :
    EStateM Fault (Decoder σ) (List α ⊕ List α) := do
  let next ← peek
  if next.token.tag = close then
    discard advance
    return .inr parts.reverse
  else
    let item ← part
    return .inl (item :: parts)

/-- A bounded loop over parts goes through the same turns. -/
theorem partsUntil_eq (close : Tag) (part : EStateM Fault (Decoder σ) α) (times : Nat)
    (parts : List α) :
    partsUntil close part (times + 1) parts =
      closeOrPart close part parts >>= Sum.elim (partsUntil close part times) pure := by
  rw [partsUntil, closeOrPart, bind_assoc]
  refine congrArg _ (funext fun next => ?_)
  split
  · simp only [bind_assoc, pure_bind, Sum.elim_inr]
  · simp only [bind_assoc, pure_bind, Sum.elim_inl]

/-- A bounded loop over the strings of an `add` record goes through the same turns. -/
theorem additions_eq (times added : Nat) :
    (additions (times + 1) added : EStateM Fault (Decoder σ) Nat) =
      addition added >>= Sum.elim (additions times) pure := by
  rw [additions, addition, bind_assoc]
  refine congrArg _ (funext fun p => ?_)
  obtain ⟨offset, token⟩ := p
  cases token with
  | string s => simp only [bind_assoc, pure_bind, Sum.elim_inl]
  | _ => rfl

/-! ## 4. They come to what the bounded ones come to -/

end AnyFeed

section Lawful

open Outcome

variable {σ α : Type} [Feed σ] [LawfulFeed σ] {limits : Limits} {floor length times : Nat}
  {stats : DecodeStats} {d d' : Decoder σ}

omit [LawfulFeed σ] in
/-- Going forward is having less to read. -/
theorem Inside.unread_lt {floor' : Nat} {stats' : DecodeStats}
    (hd : Inside limits floor length stats d) (hd' : Inside limits floor' length stats' d')
    (h : d.tokens.offset < d'.tokens.offset) :
    Feed.unread d'.tokens.feed < Feed.unread d.tokens.feed := by
  have htotal : d.tokens.offset + Feed.unread d.tokens.feed = length := hd.tokens.feed.total
  have htotal' : d'.tokens.offset + Feed.unread d'.tokens.feed = length := hd'.tokens.feed.total
  omega

omit [LawfulFeed σ] in
/-- What is left to read is below a bound that was high enough before. -/
theorem Inside.unread_lt_of_bound (hd : Inside limits floor length stats d)
    (hbound : length < floor + times) : Feed.unread d.tokens.feed < times := by
  have htotal : d.tokens.offset + Feed.unread d.tokens.feed = length := hd.tokens.feed.total
  have hfloor : floor ≤ d.tokens.offset := hd.tokens.feed.floor
  omega

/-- Parts are read without any bound, where a part agrees with its step and begins with a token. -/
theorem agrees_partsUntil {close : Tag} {part : EStateM Fault (Decoder σ) α}
    {part' : Outcome Fault (Decoder σ) α} (htoken : TakesToken limits length stats part)
    (hfrom : FromToken part')
    (hpart : ∀ {d}, Inside limits floor length stats d → Agrees part' part d)
    (hd : Inside limits floor length stats d) (hbound : Feed.unread d.tokens.feed < times) :
    Agrees (Unbounded.partsUntil close part') (partsUntil close part times []) d := by
  -- the part that begins with the token looked at is the part that comes next
  have hheld : ∀ {d t : Decoder σ} {p : Placed}, Inside limits floor length stats d →
      peek d = .ok p t → part t = part d ∧ part' t = part' d := by
    intro d t p hd hp
    have hsame := require_of_peek hd.lookahead hp
    obtain ⟨f, rfl⟩ := htoken.begins
    exact ⟨bind_congr hsame f, hfrom t d hsame⟩
  refine agrees_loops (I := Inside limits floor length stats) (fun d => Feed.unread d.tokens.feed)
    (closeOrPart close part) (fun parts d hd => ?_) (partsUntil_eq close part)
    (fun parts d parts' t hd ht => ?_) times [] d hd hbound
  · refine (agrees_of peek d).bind fun next t hnext => ?_
    split
    · exact (agrees_of _ t).bind fun _ u _ => agrees_of _ u
    · obtain ⟨hpart_eq, hpart'_eq⟩ := hheld hd hnext
      have hitem : Agrees part' part t := by
        intro r
        rw [hpart'_eq, hpart_eq]
        exact hpart hd r
      exact hitem.bind fun _ u _ => agrees_of _ u
  · obtain ⟨next, u, hnext, ht⟩ := bind_eq_ok.mp ht
    split at ht
    · obtain ⟨_, _, -, ht⟩ := bind_eq_ok.mp ht
      cases ht
    · obtain ⟨item, v, hitem, ht⟩ := bind_eq_ok.mp ht
      cases ht
      rw [(hheld hd hnext).1] at hitem
      have hv : Inside limits floor length stats t := (htoken.keeps d hd).of_ok hitem
      exact ⟨hv, hd.unread_lt hv (htoken.offset_lt hd hitem)⟩

omit [Feed σ] [LawfulFeed σ] in
/-- Within the limit, the check of the depth does nothing, so what follows it is all that counts. -/
theorem agrees_checked {o : Outcome Fault (Decoder σ) α} {m : EStateM Fault (Decoder σ) α}
    {depth offset : Nat} (hdepth : depth < d.limits.maxNestingDepth) (h : Agrees o m d) :
    Agrees (.of (checkDepth depth offset) >>= fun _ => o) m d := by
  have hcheck : checkDepth depth offset d = .ok () d := by
    rw [checkDepth_eq, if_neg (Nat.not_le.mpr hdepth)]
  have hbind : Agrees (.of (checkDepth depth offset) >>= fun _ => o)
      (checkDepth depth offset >>= fun _ => m) d := by
    refine (agrees_of _ d).bind fun a t ht => ?_
    rw [hcheck] at ht
    cases ht
    exact h
  intro r
  rw [hbind r, bind_of_ok hcheck]

omit [Feed σ] [LawfulFeed σ] in
/-- At the limit, a container is too deep whatever is in it.  The bounded reader has no step for what
is in it, and the unbounded one does not get to it. -/
theorem agrees_tooDeep {o : Outcome Fault (Decoder σ) α} {depth offset : Nat}
    (hdepth : d.limits.maxNestingDepth ≤ depth) :
    Agrees (.of (checkDepth depth offset) >>= fun _ => o) (tooDeep offset) d := by
  have hcheck : checkDepth depth offset d =
      .error (.limit (.nesting d.limits.maxNestingDepth offset)) d := by
    rw [checkDepth_eq, if_pos hdepth]
  have hbind : Agrees (.of (checkDepth depth offset) >>= fun _ => o)
      (checkDepth depth offset >>= fun _ => tooDeep offset) d := by
    refine (agrees_of _ d).bind fun a t ht => ?_
    rw [hcheck] at ht
    cases ht
  intro r
  rw [hbind r, bind_of_error hcheck]
  rfl

/-- At each depth, one level more than may still nest is enough.  The last level is needed for
scalars and for finding that a container is too deep. -/
theorem agrees_valueWithin (hbound : length < floor + times) (room : Nat) :
    ∀ {depth : Nat} {d : Decoder σ}, depth + room = limits.maxNestingDepth →
      Inside limits floor length stats d →
        Agrees (Unbounded.value (room + 1) depth) (valueWithin times room) d := by
  induction room with
  | zero =>
    intro depth d hdepth hd
    refine (agrees_of require d).bind fun p t hp => ?_
    have ht : Inside limits floor length stats t := (keeps_require d hd).of_ok hp
    have hlimit : t.limits.maxNestingDepth ≤ depth := by
      rw [ht.limits_eq]
      omega
    obtain ⟨offset, token⟩ := p
    cases token with
    | arrayStart => exact agrees_tooDeep hlimit
    | objectStart => exact agrees_tooDeep hlimit
    | _ => exact agrees_of _ t
  | succ room ih =>
    intro depth d hdepth hd
    refine (agrees_of require d).bind fun p t hp => ?_
    have ht : Inside limits floor length stats t := (keeps_require d hd).of_ok hp
    have hlimit : depth < t.limits.maxNestingDepth := by
      rw [ht.limits_eq]
      omega
    have hunread := ht.unread_lt_of_bound hbound
    have hinner : ∀ {d : Decoder σ}, Inside limits floor length stats d →
        Agrees (Unbounded.value (room + 1) (depth + 1)) (valueWithin times room) d :=
      fun hd => ih (by omega) hd
    obtain ⟨offset, token⟩ := p
    cases token with
    | arrayStart =>
      refine agrees_checked hlimit (Agrees.bind ?_ fun items u _ => agrees_of _ u)
      exact agrees_partsUntil (takesToken_valueWithin times room) (fromToken_value room _) hinner ht
        hunread
    | objectStart =>
      refine agrees_checked hlimit (Agrees.bind ?_ fun members u _ => agrees_of _ u)
      refine agrees_partsUntil (takesToken_key.bind fun _ k => ?_)
        ((fromToken_of beginsWithToken_key).bind _) (fun {d} hd => ?_) ht hunread
      · exact (keeps_valueWithin times room).bind fun v => .pure (k, v)
      · refine (agrees_of key d).bind fun k u hk => ?_
        exact (hinner ((keeps_key d hd).of_ok hk)).bind fun v w _ => agrees_of _ w
    | _ => exact agrees_of _ t

/-- Values are read without any bound, and one level more than containers may nest is enough. -/
theorem agrees_value (hd : Inside limits floor length stats d) :
    Agrees (Unbounded.value (limits.maxNestingDepth + 1) 0) value d := by
  have htotal : d.tokens.offset + Feed.unread d.tokens.feed = length := hd.tokens.feed.total
  have hbound : length < d.tokens.offset + d.bound := by
    rw [Decoder.bound]
    omega
  have hvalue := agrees_valueWithin hbound limits.maxNestingDepth (Nat.zero_add _) hd.raise
  intro r
  rw [hvalue r, value, get_bind_apply, hd.limits_eq]

/-- The strings of an `add` record are read without any bound, too, as each of them takes a byte. -/
theorem agrees_additions (hd : Inside limits floor length stats d) :
    Agrees Unbounded.additions (additions d.bound 0) d := by
  refine agrees_loops (I := Inside limits floor length stats) (fun d => Feed.unread d.tokens.feed)
    addition (fun added d _ => agrees_of _ d) additions_eq (fun added d added' t hd ht => ?_) d.bound
    0 d hd (Nat.lt_succ_self _)
  obtain ⟨⟨offset, token⟩, u, hp, ht⟩ := bind_eq_ok.mp ht
  cases token with
  | string s =>
    obtain ⟨_, v, hadd, ht⟩ := bind_eq_ok.mp ht
    cases ht
    have hu := (keeps_require d hd).of_ok hp
    have hadded := (leaves_addition hd hp).of_ok hadd
    have hforward := (token_of_advance hd.lookahead (advance_of_require hp)).1
    have ht := hadded.lower hu.tokens.feed.floor
    exact ⟨ht, hd.unread_lt ht (Nat.lt_of_lt_of_le hforward hadded.tokens.feed.floor)⟩
  | _ => cases ht

/-- The length of a payload is compared behind its value in either case. -/
theorem agrees_payload (offset declared : Nat) (hd : Inside limits floor length stats d) :
    Agrees (Unbounded.payload (limits.maxNestingDepth + 1) offset declared)
      (payload offset declared) d := by
  refine (agrees_of get d).bind fun before t ht => ?_
  cases ht
  refine (agrees_value hd).bind fun v u _ => (agrees_of get u).bind fun behind w _ => ?_
  dsimp only
  split
  · exact agrees_of _ w
  · exact agrees_of _ w

/-- Two kinds of record have a loop in them, and the others none.  What follows the loop is the same
step on both sides. -/
theorem agrees_opened (payloads : Payloads) (offset : Nat) (token : Token)
    (hd : Inside limits floor length stats d) :
    Agrees (Unbounded.opened (limits.maxNestingDepth + 1) payloads offset token)
      (opened payloads offset token) d := by
  cases token with
  | add backlink =>
    refine Agrees.bind ?_ fun record u _ => agrees_of _ u
    refine agrees_get ((agrees_additions hd).bind fun entries u _ => ?_)
    exact (agrees_of _ u).bind fun _ w _ => agrees_of _ w
  | value backlink declared =>
    refine Agrees.bind (Agrees.bind ?_ fun v u _ => ?_) fun record w _ => agrees_of _ w
    · cases payloads with
      | decoded => exact (agrees_payload offset declared hd).bind fun v u _ => agrees_of _ u
      | skipped => exact agrees_of _ d
    · refine (agrees_of _ u).bind fun _ w _ => (agrees_of _ w).bind fun _ x _ => agrees_of _ x
  | _ => exact agrees_of _ d

/-- A record is read without any bound, and one level more than containers may nest is enough. -/
theorem agrees_nextRecord (payloads : Payloads) (hd : Inside limits floor length stats d) :
    Agrees (Unbounded.nextRecord (limits.maxNestingDepth + 1) payloads) (nextRecord payloads) d := by
  refine (agrees_of advance d).bind fun p t hp => ?_
  have ht : Inside limits floor length stats t := (keeps_advance d hd).of_ok hp
  cases p with
  | none => exact (agrees_of markRead t).bind fun _ u _ => agrees_of _ u
  | some p =>
    refine (agrees_of _ t).bind fun _ u hu => ?_
    have hinside := (keeps_checkStarted p.token t ht).of_ok hu
    refine (agrees_opened payloads p.offset p.token hinside).bind fun entry w _ => ?_
    exact (agrees_of markRead w).bind fun _ x _ => agrees_of _ x

end Lawful

end Decoder

end DictLog
