/-
# Every run of a decoder ends

A decoder that is asked for a record takes a byte at least, also where it fails, and so it cannot fail
for ever.  The one exception would be a feed that fails before it gives a byte; where the bytes end
cleanly there is none.

`every_run_ends`: from any state that a decoder can be brought into, a request for a record goes
forward or finds that there is nothing left, holds no token back, and comes to what it comes to without
any bound on its loops; and as many requests as there are bytes, and one more, reach the end.

That the bytes end cleanly is a matter of the feed alone, and no step can change it.  This is not shown
step by step: whatever is seen to be done on any feed is done on one that has no other ending
(`CleanBytes`), and comes to the same there (`keeps_endsCleanly`).  How far a request goes is
`nextRecord_cases`, and the run follows by induction on the bytes that are left (`exists_none`).
-/
import DictLog.Proofs.Chunks
import DictLog.Proofs.Hostile
import DictLog.Proofs.Unbounded

namespace DictLog

open Step

namespace Step

variable {ε σ τ α : Type}

theorem left_seenAs (view : σ → τ) (r : EStateM.Result ε σ α) :
    left (seenAs view r) = view (left r) := by
  cases r <;> rfl

theorem seenAs_eq_ok {view : σ → τ} {r : EStateM.Result ε σ α} {a : α} {t : τ} :
    seenAs view r = .ok a t ↔ ∃ s, r = .ok a s ∧ view s = t := by
  cases r with
  | ok b s => simp [seenAs, and_assoc]
  | error e s => simp [seenAs]

/-- A step on a part leaves the part in its place, also where it fails. -/
theorem left_onPart (part : τ → σ) (put : σ → τ → τ) (m : EStateM ε σ α) (w : τ) :
    left (onPart part put m w) = put (left (m (part w))) w := by
  unfold onPart
  cases m (part w) <;> rfl

end Step

/-! ## 1. Bytes that end cleanly -/

/-- Bytes still to come, behind which there is nothing but the end, and how many came before. -/
structure CleanBytes where
  rest : List UInt8
  offset : Nat := 0

namespace CleanBytes

variable {α : Type}

/-- The tape that holds them. -/
def tape (b : CleanBytes) : Tape :=
  .holding b.rest b.offset .clean

/-- A step of the tape. -/
def onTape (step : EStateM Fault Tape α) : EStateM Fault CleanBytes α :=
  onPart tape (fun t _ => ⟨t.rest, t.offset⟩) step

/-- Every request is the one of the tape, whose ending is forgotten and put back. -/
instance : Feed CleanBytes where
  offset := CleanBytes.offset
  unread b := b.rest.length
  nextByte := onTape Tape.nextByte
  take n := onTape (Tape.take n)
  skip n := onTape (Tape.skip n)

/-- Forgetting the ending loses nothing, as long as the step keeps the tape clean.  It is put back as
it was, since there is only one way to end cleanly. -/
theorem seenAs_onTape {step : EStateM Fault Tape α}
    (hstep : Keeps (fun t : Tape => t.ending = .clean) step) (b : CleanBytes) :
    seenAs tape (onTape step b) = step b.tape := by
  have hends := hstep b.tape rfl
  have htape : ∀ t : Tape, t.ending = .clean → tape ⟨t.rest, t.offset⟩ = t :=
    fun t h => Tape.ext rfl rfl h.symm
  unfold onTape onPart
  cases h : step b.tape with
  | ok a t =>
    rw [h] at hends
    exact congrArg (EStateM.Result.ok a) (htape t hends)
  | error e t =>
    rw [h] at hends
    exact congrArg (EStateM.Result.error e) (htape t hends)

theorem keeps_nextByte : Keeps (fun t : Tape => t.ending = .clean) Tape.nextByte := by
  intro t ht
  unfold Tape.nextByte
  split
  · exact ht
  · split <;> exact ht

theorem keeps_take (n : Nat) : Keeps (fun t : Tape => t.ending = .clean) (Tape.take n) := by
  intro t ht
  unfold Tape.take
  split <;> exact ht

/-- So clean bytes are fed as the tape that holds them. -/
instance : LawfulFeed CleanBytes where
  tape := tape
  offset_eq _ := rfl
  unread_eq _ := rfl
  nextByte_eq := seenAs_onTape keeps_nextByte
  take_eq n := seenAs_onTape (keeps_take n)
  skip_eq n := seenAs_onTape (Keeps.bind (keeps_take n) fun _ => .pure ())

end CleanBytes

namespace Decoder

variable {σ α : Type} [Feed σ] [LawfulFeed σ] {limits : Limits} {floor length : Nat}
  {stats : DecodeStats} {d : Decoder σ}

/-- The decoder is seen as one that is fed bytes that end cleanly.  That decoder is not the same
one, only one that cannot be told from it; it need not even be of the same kind. -/
def EndsCleanly (d : Decoder σ) : Prop :=
  ∃ b : Decoder CleanBytes, View.onTape.decoder d = View.onTape.decoder b

theorem EndsCleanly.ending (h : EndsCleanly d) :
    (LawfulFeed.tape d.tokens.feed).ending = .clean := by
  obtain ⟨b, hb⟩ := h
  have htape : LawfulFeed.tape d.tokens.feed = b.tokens.feed.tape :=
    congrArg (fun d : Decoder Tape => d.tokens.feed) hb
  rw [htape]
  rfl

/-- What is seen to be done on any feed is done on bytes that end cleanly, and so they still do. -/
theorem keeps_endsCleanly {m : EStateM Fault (Decoder σ) α} {m' : EStateM Fault (Decoder CleanBytes) α}
    {n : EStateM Fault (Decoder Tape) α} (h : Shows View.onTape.decoder m n)
    (h' : Shows View.onTape.decoder m' n) : Keeps EndsCleanly m := by
  rintro d ⟨b, hb⟩
  refine ⟨left (m' b), ?_⟩
  have hsame : seenAs View.onTape.decoder (m d) = seenAs View.onTape.decoder (m' b) := by
    rw [h d, h' b, hb]
  have hleft := congrArg left hsame
  rwa [left_seenAs, left_seenAs] at hleft

end Decoder

/-! ## 2. The next token -/

section Forward

variable {σ : Type} [Feed σ] [LawfulFeed σ] {limits : Limits} {floor length : Nat}

/-- The next byte of a feed that ends cleanly is there, or all bytes have been handed out.  A feed
that fails instead could do so again and again without going forward. -/
theorem LawfulFeed.nextByte_cases {s : σ} (hclean : (tape s).ending = .clean) :
    (∃ s', Feed.nextByte s = .ok none s' ∧ Feed.unread s' = 0) ∨
      ∃ b s', Feed.nextByte s = .ok (some b) s' ∧ Feed.offset s' = Feed.offset s + 1 := by
  have hseen := nextByte_eq s
  cases hrest : (tape s).rest with
  | nil =>
    left
    rw [Tape.nextByte_of_clean hrest hclean] at hseen
    obtain ⟨s', hbyte, htape⟩ := seenAs_eq_ok.mp hseen
    refine ⟨s', hbyte, ?_⟩
    rw [unread_eq, htape, Tape.unread_eq, hrest]
    rfl
  | cons b rest =>
    right
    obtain ⟨t, ht⟩ : ∃ t, Reads (tape s) [b] t := Tape.reads_of_rest hrest
    rw [Tape.nextByte_eq_some.mpr ht] at hseen
    obtain ⟨s', hbyte, rfl⟩ := seenAs_eq_ok.mp hseen
    refine ⟨b, s', hbyte, ?_⟩
    rw [offset_eq, offset_eq]
    exact ht.offset

namespace TokenStream

variable {t : TokenStream σ}

omit [LawfulFeed σ] in
/-- Whether `next` fails or answers, it is as far as `scan` came. -/
theorem offset_left_next (t : TokenStream σ) : (left (next t)).offset = (left (scan t)).offset := by
  unfold next
  cases scan t <;> rfl

/-- A byte that has been taken stays taken, whatever becomes of the token.  So a token that is
refused is progress as well. -/
theorem next_cases (ht : Spent limits floor length t)
    (hclean : (LawfulFeed.tape t.feed).ending = .clean) :
    (∃ t', next t = .ok none t' ∧ Feed.unread t'.feed = 0) ∨
      t.offset < (left (next t)).offset := by
  have hbefore : Leaves (Spent limits floor length) (onFeed Feed.nextByte t) :=
    keeps_onFeed (fun _ => LawfulFeed.keeps_nextByte) t ht
  rcases LawfulFeed.nextByte_cases hclean with ⟨s', hbyte, hunread⟩ | ⟨b, s', hbyte, hoffset⟩
  · have hfeed : onFeed Feed.nextByte t = .ok none { t with feed := s' } := onPart_of_ok hbyte
    have hscan : scan t = .ok none { t with feed := s' } := bind_of_ok hfeed _
    refine .inl ⟨{ t with feed := s' }, ?_, hunread⟩
    rw [next, hscan]
  · have hfeed : onFeed Feed.nextByte t = .ok (some b) { t with feed := s' } := onPart_of_ok hbyte
    have hscan : scan t = (opened t.offset b >>= fun p => pure (some p)) { t with feed := s' } :=
      bind_of_ok hfeed _
    -- The byte that was taken raises the floor, below which no offset falls from here on.
    have hraised : Spent limits (t.offset + 1) length { t with feed := s' } :=
      (hbefore.of_ok hfeed).raise.lower (Nat.le_of_eq hoffset.symm)
    have hopened : Leaves (Spent limits (t.offset + 1) length) (scan t) := by
      rw [hscan]
      exact ((keeps_opened (Nat.le_succ _) b).bind fun p => .pure (some p)) _ hraised
    right
    rw [offset_left_next]
    exact hopened.feed.floor

end TokenStream

namespace Decoder

variable {stats : DecodeStats} {d : Decoder σ}

/-- The next token goes forward, or all bytes have been read and there is none. -/
theorem advance_cases (hd : Inside limits floor length stats d) (hclean : EndsCleanly d) :
    (∃ t, advance d = .ok none t ∧ Feed.unread t.tokens.feed = 0) ∨
      d.tokens.offset < (left (advance d)).tokens.offset := by
  rw [advance_of_none hd.lookahead]
  rcases TokenStream.next_cases hd.tokens hclean.ending with ⟨t, hnext, hunread⟩ | hforward
  · exact .inl ⟨{ d with tokens := t }, onPart_of_ok hnext, hunread⟩
  · right
    rw [onTokens, left_onPart]
    exact hforward

/-! ## 3. The next record -/

/-- Asked for a record, a decoder goes forward, whether or not it fails, or all bytes have been read and
there is none. -/
theorem nextRecord_cases (payloads : Payloads) (hd : Safe limits floor length d)
    (hclean : EndsCleanly d) :
    (∃ t, nextRecord payloads d = .ok none t ∧ Feed.unread t.tokens.feed = 0) ∨
      d.tokens.offset < (left (nextRecord payloads d)).tokens.offset := by
  rw [nextRecord_eq]
  rcases advance_cases hd.inside hclean with ⟨t, hnone, hunread⟩ | hforward
  · rw [bind_of_ok hnone]
    exact .inl ⟨_, rfl, hunread⟩
  · right
    -- Once a token was found the record may still fail; it starts behind that token.
    cases hp : advance d with
    | error e t =>
      rw [hp] at hforward
      rw [bind_of_error hp]
      exact hforward
    | ok p t =>
      rw [hp] at hforward
      rw [bind_of_ok hp]
      cases p with
      | none => exact hforward
      | some p =>
        have hrecord : Leaves (Safe limits (d.tokens.offset + 1) length)
            ((recordAt payloads p >>= fun entry => pure (some entry)) t) :=
          (leaves_recordAt payloads hd hp).bind (fun _ h => h) fun _ _ _ h => h
        exact hrecord.inside.tokens.feed.floor

/-! ## 4. Asking on and on -/

/-- Whatever is asked of a decoder, its bytes still end cleanly. -/
theorem EndsCleanly.behind (requests : List ItemRequest) : ∀ {d : Decoder σ}, EndsCleanly d →
    EndsCleanly (d.behind requests) := by
  induction requests with
  | nil => exact fun hclean => hclean
  | cons request requests ih =>
    intro d hclean
    exact ih (keeps_endsCleanly request.shows_ask request.shows_ask d hclean)

/-- A new decoder ends cleanly if its feed does. -/
theorem endsCleanly_ofFeed {feed : σ} {bytes : List UInt8}
    (h : LawfulFeed.Gives feed bytes .clean) (limits : Limits) : EndsCleanly (ofFeed feed limits) :=
  ⟨ofFeed ⟨bytes, 0⟩ limits, congrArg (ofFeed · limits) h⟩

/-- The decoder behind the first so many requests for a record, whatever became of them. -/
def afterCalls (choices : Nat → Payloads) (d : Decoder σ) : Nat → Decoder σ
  | 0 => d
  | k + 1 => left (nextRecord (choices k) (afterCalls choices d k))

omit [LawfulFeed σ] in
/-- The first request may be counted apart, as the later ones are asked of what it leaves. -/
theorem afterCalls_succ (choices : Nat → Payloads) (d : Decoder σ) (k : Nat) :
    afterCalls choices d (k + 1) =
      afterCalls (fun i => choices (i + 1)) (left (nextRecord (choices 0) d)) k := by
  induction k with
  | zero => rfl
  | succ k ih => rw [afterCalls, ih, afterCalls]

/-- A decoder that is asked on and on, whatever fails, finds no record left before it has been asked
more often than there are bytes. -/
theorem exists_none (n : Nat) : ∀ {d : Decoder σ} (choices : Nat → Payloads),
    Safe limits floor length d → EndsCleanly d → Feed.unread d.tokens.feed < n →
      ∃ k < n, ∃ t, nextRecord (choices k) (afterCalls choices d k) = .ok none t := by
  induction n with
  | zero => exact fun _ _ _ hunread => absurd hunread (Nat.not_lt_zero _)
  | succ n ih =>
    intro d choices hd hclean hunread
    -- Each request that finds something leaves fewer bytes, which is what the induction is on.
    rcases nextRecord_cases (choices 0) hd hclean with ⟨t, hnone, -⟩ | hforward
    · exact ⟨0, Nat.succ_pos n, t, hnone⟩
    · have hnext := leaves_nextRecord (choices 0) hd
      have hless := hd.inside.unread_lt hnext.inside hforward
      have hclean' : EndsCleanly (left (nextRecord (choices 0) d)) :=
        keeps_endsCleanly (shows_nextRecord View.onTape (choices 0)).shows
          (shows_nextRecord View.onTape (choices 0)).shows d hclean
      obtain ⟨k, hk, t, hnone⟩ := ih (fun i => choices (i + 1)) hnext hclean' (by omega)
      refine ⟨k + 1, Nat.succ_lt_succ hk, t, ?_⟩
      rw [afterCalls_succ]
      exact hnone

/-- **Every run of a decoder ends.**  Whatever bytes a feed gives that ends cleanly, whatever the limits
and whatever has been asked before, also after failures: asked for a record, its payload decoded or
left out, the decoder goes forward, or all bytes have been read and there is none; no token is held
back; and with loops that nothing bounds it comes to the same.  Behind the token that opens a record, a
value is read with such loops, too, on one level more than containers may nest.  Asked on and on, past
whatever fails, a decoder finds no record left once it has been asked once more than there are bytes. -/
theorem every_run_ends (feed : σ) (bytes : List UInt8) (limits : Limits) (requests : List ItemRequest)
    (h : LawfulFeed.Gives feed bytes .clean) :
    let d := (ofFeed feed limits).behind requests
    (∀ payloads,
      ((∃ t, nextRecord payloads d = .ok none t ∧ t.tokens.offset = bytes.length ∧
          Feed.unread t.tokens.feed = 0) ∨
        d.tokens.offset < (left (nextRecord payloads d)).tokens.offset) ∧
      (left (nextRecord payloads d)).lookahead = none ∧
      ∀ r, Unbounded.nextRecord (limits.maxNestingDepth + 1) payloads d r ↔
        r = nextRecord payloads d) ∧
    (∀ p t, advance d = .ok (some p) t →
      ∀ r, Unbounded.value (limits.maxNestingDepth + 1) 0 t r ↔ r = value t) ∧
    ∀ choices, ∃ k ≤ bytes.length, ∃ t,
      nextRecord (choices k) (afterCalls choices d k) = .ok none t := by
  intro d
  have hd : Safe limits 0 bytes.length d := Safe.behind requests (safe_ofFeed h limits)
  have hclean : EndsCleanly d := (endsCleanly_ofFeed h limits).behind requests
  have htotal : d.tokens.offset + Feed.unread d.tokens.feed = bytes.length :=
    hd.inside.tokens.feed.total
  refine ⟨fun payloads => ⟨?_, ?_, agrees_nextRecord payloads hd.inside⟩, fun p t hp => ?_,
    fun choices => ?_⟩
  · rcases nextRecord_cases payloads hd hclean with ⟨t, hnone, hunread⟩ | hforward
    · have ht : t.tokens.offset + Feed.unread t.tokens.feed = bytes.length :=
        ((leaves_nextRecord payloads hd).of_ok hnone).inside.tokens.feed.total
      exact .inl ⟨t, hnone, by omega, hunread⟩
    · exact .inr hforward
  · exact (leaves_nextRecord payloads hd).inside.lookahead
  · exact agrees_value ((keeps_advance d hd.inside).of_ok hp)
  · have hunread : Feed.unread d.tokens.feed < bytes.length + 1 := by omega
    obtain ⟨k, hk, hnone⟩ := exists_none (bytes.length + 1) choices hd hclean hunread
    exact ⟨k, Nat.le_of_lt_succ hk, hnone⟩

/-- Where containers may not nest at all, an empty array breaks its record off.  What is left of the
record is refused piece by piece, until there is nothing left. -/
theorem every_run_ends_too_deep :
    let bytes := [0x48, 0x49, 0x01, 0x45, 0x0A, 0x56, 0x05, 0x02, 0x5B, 0x5D, 0x45, 0x0A]
    let d := (ofFeed (Tape.ofBytes bytes) { maxNestingDepth := 0 }).behind [.record .skipped]
    (answer? (nextRecord .decoded d)).isNone ∧
      d.tokens.offset < (left (nextRecord .decoded d)).tokens.offset ∧
      (∃ t, advance d = .ok (some ⟨5, .value 5 2⟩) t ∧ Unbounded.value 1 0 t (value t)) ∧
      ∃ k ≤ 12, ∃ t, nextRecord .decoded (afterCalls (fun _ => .decoded) d k) = .ok none t := by
  intro bytes d
  obtain ⟨hrecord, hvalue, hrun⟩ := every_run_ends (Tape.ofBytes bytes) bytes
    { maxNestingDepth := 0 } [.record .skipped] rfl
  have hfails : (answer? (nextRecord .decoded d)).isNone := by decide +kernel
  have htoken : answer? (advance d) = some (some ⟨5, .value 5 2⟩) := by decide +kernel
  obtain ⟨t, ht⟩ := answer?_eq_some.mp htoken
  refine ⟨hfails, ?_, ⟨t, ht, (hvalue _ t ht _).mpr rfl⟩, hrun fun _ => .decoded⟩
  rcases (hrecord .decoded).1 with ⟨u, hnone, -⟩ | hforward
  · rw [hnone] at hfails
    cases hfails
  · exact hforward

end Decoder

end Forward

end DictLog
