/-
# However bytes arrive, a reader gives the same answers

The plainest feed there is holds the bytes still to come and a counter, and reads one byte at a time
(`Single`).  A buffered feed answers whatever it is asked as the plainest feed does that holds the
same bytes, and so do the tokens and the decoder on it, failed requests and what is asked behind them
included (`replies_buffered`).

Both feeds are lawful, that is, they are seen to give what their tapes give, which is a view of them
that excuses nothing (`View.onTape`).  By induction on the requests, the replies on either feed are
those on its tape (`replies_of_shows`), and the tape is the same.
-/
import DictLog.Proofs.Safety
import DictLog.Proofs.Views

namespace DictLog

open Step

/-! ## 1. One byte at a time -/

/-- The bytes still to come, and how many came before. -/
structure Single where
  rest : List UInt8
  offset : Nat := 0
  ending : Ending := .clean

namespace Single

/-- The next byte. -/
def nextByte : EStateM Fault Single (Option UInt8) := fun s =>
  match s.rest with
  | byte :: rest => .ok (some byte) { s with rest, offset := s.offset + 1 }
  | [] =>
    match s.ending with
    | .clean => .ok none s
    | .failing cause => .error (.io cause) s

/-- The next byte, which has to be there. -/
def requireByte : EStateM Fault Single UInt8 := do
  match ← nextByte with
  | some byte => return byte
  | none => throw .truncated

/-- The next `n` bytes, one after the other. -/
def take : Nat → EStateM Fault Single (List UInt8)
  | 0 => return []
  | n + 1 => do
    let byte ← requireByte
    let rest ← take n
    return byte :: rest

/-- Leave out `n` bytes, one after the other. -/
def skip : Nat → EStateM Fault Single Unit
  | 0 => return ()
  | n + 1 => do
    let _ ← requireByte
    skip n

/-- The plainest feed there is. -/
instance : Feed Single where
  offset := Single.offset
  unread s := s.rest.length
  nextByte := Single.nextByte
  take := Single.take
  skip := Single.skip

/-- The tape that holds the same bytes. -/
def tape (s : Single) : Tape :=
  .holding s.rest s.offset s.ending

/-- A byte at a time, the plainest feed does what its tape does. -/
theorem seenAs_nextByte (s : Single) : seenAs tape s.nextByte = Tape.nextByte s.tape := by
  obtain ⟨rest, offset, ending⟩ := s
  cases rest with
  | cons byte rest => exact (Tape.nextByte_holding byte rest offset ending).symm
  | nil =>
    cases ending with
    | clean => exact (Tape.nextByte_of_clean rfl rfl).symm
    | failing cause => exact (Tape.nextByte_of_failing rfl rfl).symm

theorem take_eq_array (n : Nat) : take n = Feed.array n := by
  induction n with
  | zero => rfl
  | succ n ih =>
    rw [take, ih]
    rfl

/-- Leaving out some bytes is taking them and forgetting them.  If they are not all there, as many
are gone. -/
theorem skip_eq_take (n : Nat) : skip n = (take n >>= fun _ => pure ()) := by
  induction n with
  | zero => rfl
  | succ n ih =>
    funext s
    cases hbyte : requireByte s with
    | error fault t =>
      have hskip : skip (n + 1) s = .error fault t := bind_of_error hbyte _
      have htake : take (n + 1) s = .error fault t := bind_of_error hbyte _
      rw [hskip, bind_of_error htake]
    | ok byte t =>
      have hskip : skip (n + 1) s = skip n t := bind_of_ok hbyte _
      have htake : take (n + 1) s = (take n >>= fun rest => pure (byte :: rest)) t :=
        bind_of_ok hbyte _
      rw [hskip, ih, bind_congr htake]
      cases hrest : take n t with
      | error fault u => rw [bind_of_error hrest, bind_of_error (bind_of_error hrest _)]
      | ok rest u =>
        have hmore : (take n >>= fun rest => pure (byte :: rest)) t = .ok (byte :: rest) u :=
          bind_of_ok hrest _
        rw [bind_of_ok hrest, bind_of_ok hmore]

/-- The laws come with reading byte by byte. -/
instance : LawfulFeed Single :=
  .oneByOne tape (fun _ => rfl) (fun _ => rfl) seenAs_nextByte (fun n => take_eq_array n) skip_eq_take

end Single

/-! ## 2. Requests, one after another -/

/-- What a request was answered, and what can be seen behind it. -/
structure Reply (α ω : Type) where
  result : Except Fault α
  seen : ω

section Replies

variable {σ τ α κ ω : Type}

/-- The reply that a step makes. -/
def Reply.of (observe : σ → ω) : EStateM.Result Fault σ α → Reply α ω
  | .ok a s => ⟨.ok a, observe s⟩
  | .error fault s => ⟨.error fault, observe s⟩

/-- The reply to a step that is viewed is the reply to the step, if no less is seen of it. -/
theorem Reply.of_seenAs (view : σ → τ) (r : EStateM.Result Fault σ α) :
    Reply.of id (seenAs view r) = Reply.of view r := by
  cases r <;> rfl

/-- The replies to some requests, each made of what the one before it left, whether or not it
failed. -/
def replies (ask : κ → EStateM Fault σ α) (observe : σ → ω) : List κ → σ → List (Reply α ω)
  | [], _ => []
  | request :: rest, s =>
    .of observe (ask request s) :: replies ask observe rest (left (ask request s))

/-- Where a view is kept by every request, and what is observed can be told from it, the replies are
the same.  The induction is on the requests, and a failed one is gone on from like any other. -/
theorem replies_of_shows {view : σ → τ} {ask : κ → EStateM Fault σ α}
    {ask' : κ → EStateM Fault τ α} {observe : σ → ω} {observe' : τ → ω}
    (hask : ∀ request, Shows view (ask request) (ask' request))
    (hobserve : ∀ s, observe' (view s) = observe s) (requests : List κ) :
    ∀ s, replies ask observe requests s = replies ask' observe' requests (view s) := by
  induction requests with
  | nil => exact fun _ => rfl
  | cons request requests ih =>
    intro s
    rw [replies, replies, ← hask request s]
    cases ask request s with
    | ok a t =>
      show Reply.mk (.ok a) (observe t) :: _ = Reply.mk (.ok a) (observe' (view t)) :: _
      rw [hobserve]
      exact congrArg _ (ih t)
    | error fault t =>
      show Reply.mk (.error fault) (observe t) :: _ = Reply.mk (.error fault) (observe' (view t)) :: _
      rw [hobserve]
      exact congrArg _ (ih t)

end Replies

section AnyFeed

variable {σ : Type} [Feed σ]

/-- A lawful feed seen as its tape. -/
def View.onTape [LawfulFeed σ] : View σ Tape where
  feed := LawfulFeed.tape
  limits := id
  Excused _ := False
  offset_eq := LawfulFeed.offset_eq
  unread_eq := LawfulFeed.unread_eq
  nextByte := LawfulFeed.nextByte_eq
  take := LawfulFeed.take_eq
  skip := LawfulFeed.skip_eq
  within := .refl
  excused _ := .inl rfl

namespace Feed

/-- What a feed may be asked for. -/
inductive ByteRequest where
  | nextByte
  | requireByte
  | varint
  | array (n : Nat)
  | take (n : Nat)
  | skip (n : Nat)

/-- What a feed may give. -/
inductive Given where
  | nothing
  | byte (byte : UInt8)
  | number (value : UInt64)
  | bytes (bytes : List UInt8)

/-- The step that a request asks for. -/
def ByteRequest.ask : ByteRequest → EStateM Fault σ Given
  | nextByte => do return (← Feed.nextByte).elim .nothing .byte
  | requireByte => do return .byte (← Feed.requireByte)
  | varint => do return .number (← Feed.varint)
  | array n => do return .bytes (← Feed.array n)
  | take n => do return .bytes (← Feed.take n)
  | skip n => do
    Feed.skip n
    return .nothing

/-- Every request of a feed keeps the view of it as its tape. -/
theorem ByteRequest.shows_ask [LawfulFeed σ] (request : ByteRequest) :
    Shows LawfulFeed.tape (request.ask : EStateM Fault σ _) request.ask := by
  apply ShowsUnless.shows
  cases request with
  | nextByte => exact (ShowsUnless.of_shows LawfulFeed.nextByte_eq).bind fun _ => .pure _
  | requireByte => exact (shows_requireByte LawfulFeed.nextByte_eq).bind fun _ => .pure _
  | varint => exact (shows_varintFrom LawfulFeed.nextByte_eq _ _).bind fun _ => .pure _
  | array n => exact (shows_array LawfulFeed.nextByte_eq n).bind fun _ => .pure _
  | take n => exact (ShowsUnless.of_shows (LawfulFeed.take_eq n)).bind fun _ => .pure _
  | skip n => exact (ShowsUnless.of_shows (LawfulFeed.skip_eq n)).bind fun _ => .pure _

end Feed

namespace TokenStream

/-- What a token stream may be asked for. -/
inductive TokenRequest where
  | next
  | nextUnlessFailed
  | skip (length : Nat)

/-- The step that a request asks for. -/
def TokenRequest.ask : TokenRequest → EStateM Fault (TokenStream σ) (Option Placed)
  | next => TokenStream.next
  | nextUnlessFailed => TokenStream.nextUnlessFailed
  | skip length => do
    TokenStream.skip length
    return none

/-- What is seen of a token stream between requests. -/
structure Seen where
  offset : Nat
  lastDictionary : Nat
  failed : Bool

/-- What is seen of this token stream. -/
def seen (t : TokenStream σ) : Seen :=
  ⟨t.offset, t.lastDictionary, t.failed⟩

theorem TokenRequest.shows_ask [LawfulFeed σ] (request : TokenRequest) :
    Shows View.onTape.tokens (request.ask : EStateM Fault (TokenStream σ) _) request.ask := by
  apply ShowsUnless.shows
  cases request with
  | next => exact shows_next View.onTape
  | nextUnlessFailed => exact shows_nextUnlessFailed View.onTape
  | skip length => exact (shows_skip View.onTape length).bind fun _ => .pure none

theorem seen_onTape [LawfulFeed σ] (t : TokenStream σ) : (View.onTape.tokens t).seen = t.seen :=
  congrArg (Seen.mk · t.lastDictionary t.failed) (View.onTape.offset_tokens t)

end TokenStream

namespace Decoder

/-- What a decoder may be asked for. -/
inductive ItemRequest where
  | record (payloads : Payloads)
  | value
  | valueUnlessFailed

/-- What a decoder may give. -/
inductive Given where
  | record (entry : Entry)
  | value (v : Json)

/-- The step that a request asks for. -/
def ItemRequest.ask : ItemRequest → EStateM Fault (Decoder σ) (Option Given)
  | record payloads => do return (← nextRecord payloads).map .record
  | value => do return (← nextValue).map .value
  | valueUnlessFailed => do return (← nextUnlessFailed).map .value

/-- What is seen of a decoder between requests. -/
structure Seen where
  tokens : TokenStream.Seen
  lookahead : Option Placed
  dictionary : Dictionary
  started : Bool
  failed : Bool
  stats : DecodeStats

/-- What is seen of this decoder. -/
def seen (d : Decoder σ) : Seen :=
  ⟨d.tokens.seen, d.lookahead, d.dictionary, d.started, d.failed, d.stats⟩

theorem ItemRequest.shows_ask [LawfulFeed σ] (request : ItemRequest) :
    Shows View.onTape.decoder (request.ask : EStateM Fault (Decoder σ) _) request.ask := by
  apply ShowsUnless.shows
  cases request with
  | record payloads => exact (shows_nextRecord View.onTape payloads).map _
  | value => exact (shows_nextValue View.onTape).map _
  | valueUnlessFailed => exact (shows_nextUnlessFailed View.onTape).map _

theorem seen_onTape [LawfulFeed σ] (d : Decoder σ) : (View.onTape.decoder d).seen = d.seen :=
  congrArg (Seen.mk · d.lookahead d.dictionary d.started d.failed d.stats)
    (TokenStream.seen_onTape d.tokens)

end Decoder

end AnyFeed

/-- **However bytes arrive, the answers are the same.**  Whatever arrives, in whatever chunks and
with whatever interruptions, and however it ends: what is asked of a buffered feed, failed requests
and what is asked behind them included, is answered as by the plainest feed that holds the same
bytes, and the offsets behind it are the same.

So many bytes at once, to have or to leave out, are on both of them that many single bytes, and
where they are not there, what is gone is the same.  Token streams and decoders reply the same, too. -/
theorem replies_buffered (arrivals : List Arrival) (ending : Ending) (limits : Limits) :
    let buffered := Buffered.ofArrivals arrivals ending
    let single : Single := { rest := arrivals.flatMap Arrival.bytes, ending }
    (∀ requests, replies Feed.ByteRequest.ask Feed.offset requests buffered =
      replies Feed.ByteRequest.ask Feed.offset requests single) ∧
    (∀ n, (Feed.take n : EStateM Fault Buffered _) = Feed.array n ∧
      (Feed.skip n : EStateM Fault Buffered _) = (Feed.array n >>= fun _ => pure ())) ∧
    (∀ n, (Feed.take n : EStateM Fault Single _) = Feed.array n ∧
      (Feed.skip n : EStateM Fault Single _) = (Feed.array n >>= fun _ => pure ())) ∧
    (∀ requests, replies TokenStream.TokenRequest.ask TokenStream.seen requests (.ofFeed buffered limits) =
      replies TokenStream.TokenRequest.ask TokenStream.seen requests (.ofFeed single limits)) ∧
    ∀ requests, replies Decoder.ItemRequest.ask Decoder.seen requests (.ofFeed buffered limits) =
      replies Decoder.ItemRequest.ask Decoder.seen requests (.ofFeed single limits) := by
  intro buffered single
  have htape : LawfulFeed.tape buffered = LawfulFeed.tape single := rfl
  have htokens : View.onTape.tokens (.ofFeed buffered limits) =
      View.onTape.tokens (.ofFeed single limits) :=
    congrArg (TokenStream.ofFeed · limits) htape
  have hdecoder : View.onTape.decoder (.ofFeed buffered limits) =
      View.onTape.decoder (.ofFeed single limits) :=
    congrArg (Decoder.ofFeed · limits) htape
  -- Each side is moved to its tape, and the tapes are equal.
  refine ⟨fun requests => ?_, fun n => ⟨Buffered.take_eq_array n, ?_⟩,
    fun n => ⟨Single.take_eq_array n, ?_⟩, fun requests => ?_, fun requests => ?_⟩
  · rw [replies_of_shows Feed.ByteRequest.shows_ask fun s => (LawfulFeed.offset_eq s).symm, htape]
    exact (replies_of_shows Feed.ByteRequest.shows_ask (fun s => (LawfulFeed.offset_eq s).symm) _ _).symm
  · exact (Buffered.skip_eq_take n).trans (congrArg (· >>= _) (Buffered.take_eq_array n))
  · exact (Single.skip_eq_take n).trans (congrArg (· >>= _) (Single.take_eq_array n))
  · rw [replies_of_shows TokenStream.TokenRequest.shows_ask TokenStream.seen_onTape, htokens]
    exact (replies_of_shows TokenStream.TokenRequest.shows_ask TokenStream.seen_onTape _ _).symm
  · rw [replies_of_shows Decoder.ItemRequest.shows_ask Decoder.seen_onTape, hdecoder]
    exact (replies_of_shows Decoder.ItemRequest.shows_ask Decoder.seen_onTape _ _).symm

end DictLog
