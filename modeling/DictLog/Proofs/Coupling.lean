/-
# Feeds that hang together, and the tokens on them

A `Coupling` is a bond between two feeds that is kept by taking bytes.  Token streams on coupled
feeds are coupled too: whatever the one reads, the other reads, with offsets that are larger by the
same number everywhere (`agree_next`).
-/
import DictLog.Proofs.Agreement
import DictLog.Proofs.Varint

namespace DictLog

open Step

variable {σ τ : Type} [Feed σ] [Feed τ]

/-! ## 1. Feeds -/

/-- A bond between feeds that is kept by taking bytes. -/
structure Coupling (σ τ : Type) [Feed σ] [Feed τ] where
  shift : Nat
  leeway : Leeway
  Beside : σ → τ → Prop
  offset_eq : ∀ s t, Beside s t → Feed.offset t = Feed.offset s + shift
  nextByte : ∀ s t, Beside s t →
    AgreeNext ⟨shift, leeway, Beside, Feed.unread, Feed.unread⟩ 1 id s t (Feed.nextByte s)
      (Feed.nextByte t)
  take : ∀ n, Bond.Parallel ⟨shift, leeway, Beside, Feed.unread, Feed.unread⟩ id (Feed.take n)
    (Feed.take n)
  skip : ∀ n, Bond.Parallel ⟨shift, leeway, Beside, Feed.unread, Feed.unread⟩ id (Feed.skip n)
    (Feed.skip n)

namespace Coupling

/-- The bond of the feeds themselves. -/
def feeds (c : Coupling σ τ) : Bond σ τ :=
  ⟨c.shift, c.leeway, c.Beside, Feed.unread, Feed.unread⟩

variable (c : Coupling σ τ)

/-- Asking for a byte that has to be there: the end of the input is a fault, and for the second a
matter of its leeway. -/
theorem agree_requireByte {s : σ} {t : τ} (h : c.Beside s t) :
    Agree c.feeds 1 id s t (Feed.requireByte s) (Feed.requireByte t) :=
  AgreeNext.bind (c.nextByte s t h) (fun byte _ _ hst => .pure hst.beside byte) rfl rfl

theorem parallel_requireByte : c.feeds.Parallel id Feed.requireByte Feed.requireByte :=
  fun _ _ h => (c.agree_requireByte h).mono (Nat.zero_le 1)

/-- The groups of a number are read one by one, and whether the number is over depends on them
alone. -/
theorem parallel_varintFrom (groups : Nat) :
    ∀ acc, c.feeds.Parallel id (Feed.varintFrom groups acc) (Feed.varintFrom groups acc) := by
  induction groups with
  | zero =>
    intro acc s t h
    exact Agree.throw h .integerOverflow nofun
  | succ groups ih =>
    intro acc s t h
    refine (c.parallel_requireByte s t h).bind fun byte s' t' hst => ?_
    simp only [id_eq, Varint.push_eq]
    by_cases hover : acc.shift = 63 ∧ 1 < byte.toNat
    · simp only [if_pos hover]
      exact Agree.throw hst.beside .integerOverflow nofun
    by_cases hlast : byte.toNat < 128
    · simp only [if_neg hover, if_pos hlast]
      exact Agree.pure hst.beside _
    · simp only [if_neg hover, if_neg hlast]
      exact ih _ s' t' hst.beside

/-- So many bytes, one by one. -/
theorem parallel_array (n : Nat) : c.feeds.Parallel id (Feed.array n) (Feed.array n) := by
  induction n with
  | zero =>
    intro s t h
    exact Agree.pure h []
  | succ n ih =>
    intro s t h
    refine (c.parallel_requireByte s t h).bind fun byte s' t' hst => ?_
    exact (ih s' t' hst.beside).bind fun rest _ _ hst' => .pure hst'.beside (byte :: rest)

end Coupling

/-! ## 2. Token streams -/

/-- Token streams on coupled feeds, at corresponding places. -/
structure TokenStream.Beside (c : Coupling σ τ) (t : TokenStream σ) (u : TokenStream τ) :
    Prop where
  feed : c.Beside t.feed u.feed
  limits : u.limits = t.limits
  lastDictionary : u.lastDictionary = t.lastDictionary + c.shift

/-- The bond of the token streams on two feeds. -/
def Coupling.streams (c : Coupling σ τ) : Bond (TokenStream σ) (TokenStream τ) where
  shift := c.shift
  leeway := c.leeway
  Beside := TokenStream.Beside c
  left t := Feed.unread t.feed
  right u := Feed.unread u.feed

namespace TokenStream

variable {α β : Type} {g : α → β} {n : Nat} {c : Coupling σ τ} {t : TokenStream σ}
  {u : TokenStream τ}

theorem Beside.offset_eq (h : Beside c t u) : u.offset = t.offset + c.shift :=
  c.offset_eq _ _ h.feed

theorem Beside.onFeed (h : Beside c t u) {s : σ} {s' : τ}
    (hst : c.feeds.Behind n t.feed u.feed s s') :
    c.streams.Behind n t u { t with feed := s } { u with feed := s' } :=
  ⟨⟨hst.beside, h.limits, h.lastDictionary⟩, hst.left, hst.right⟩

/-- What feeds agree on, the streams on them agree on: marks and limits stay. -/
theorem agree_onFeed (h : Beside c t u) {m : EStateM Fault σ α} {m' : EStateM Fault τ β}
    (hm : Agree c.feeds n g t.feed u.feed (m t.feed) (m' u.feed)) :
    Agree c.streams n g t u (onFeed m t) (onFeed m' u) :=
  hm.onPart (fun _ _ _ hst => h.onFeed hst) rfl rfl

theorem parallel_onFeed {m : EStateM Fault σ α} {m' : EStateM Fault τ β}
    (hm : c.feeds.Parallel g m m') : c.streams.Parallel g (onFeed m) (onFeed m') :=
  fun t u h => agree_onFeed h (hm t.feed u.feed h.feed)

variable (c)

theorem parallel_varint : c.streams.Parallel id varint varint :=
  parallel_onFeed (c.parallel_varintFrom _ _)

/-- A backlink is a distance, and so the same number leads back to corresponding marks.  It is only
in the fault that offsets are told. -/
theorem parallel_backlink (offset : Nat) :
    c.streams.Parallel id (backlink offset) (backlink (offset + c.shift)) := by
  intro t u h
  refine (parallel_varint c t u h).bind fun distance t' u' hst => ?_
  rw [get_bind_apply, get_bind_apply, hst.beside.lastDictionary]
  by_cases hlink : t'.lastDictionary + distance.toNat = offset
  · rw [if_pos hlink, if_pos (by simp only [id_eq]; omega)]
    exact Agree.pure hst.beside _
  · rw [if_neg hlink, if_neg (by simp only [id_eq]; omega)]
    exact Agree.throw hst.beside (.desync offset t'.lastDictionary distance.toNat) nofun

/-- Marks that are left at corresponding offsets correspond. -/
theorem parallel_markDictionary (offset : Nat) :
    c.streams.Parallel id (markDictionary offset) (markDictionary (offset + c.shift)) :=
  fun t u h =>
    have hmarked : Beside c { t with lastDictionary := offset }
        { u with lastDictionary := offset + c.shift } :=
      ⟨h.feed, h.limits, rfl⟩
    Agree.ok (a := ()) ⟨hmarked, Nat.le_refl _, Nat.le_refl _⟩

/-- The same bytes are the same string, or no string for the same reason. -/
theorem parallel_textOfLength (length : Nat) :
    c.streams.Parallel id (textOfLength length) (textOfLength length) := by
  intro t u h
  refine (parallel_onFeed (c.take length) t u h).bind fun bytes t' u' hst => ?_
  simp only [id_eq]
  cases hdecode : Utf8.decode bytes with
  | ok s => exact Agree.pure hst.beside s
  | error fault => exact Agree.throw hst.beside (.invalidUtf8 bytes fault) nofun

/-- A string in full: its length, which is held against the limit before any byte of it is taken. -/
theorem parallel_text (offset : Nat) :
    c.streams.Parallel id (text offset) (text (offset + c.shift)) := by
  intro t u h
  refine (parallel_varint c t u h).bind fun length t' u' hst => ?_
  rw [get_bind_apply, get_bind_apply, hst.beside.limits]
  by_cases hlimit : t'.limits.maxStringLength < length.toNat
  · simp only [id_eq, if_pos hlimit]
    exact Agree.throw hst.beside (.limit (.string length.toNat offset _)) nofun
  · simp only [id_eq, if_neg hlimit]
    exact parallel_textOfLength c _ t' u' hst.beside

/-- What a `value` record begins with: its backlink and the length of its payload, held against the
limit. -/
theorem parallel_valueHead (offset : Nat) :
    c.streams.Parallel id (valueHead offset) (valueHead (offset + c.shift)) := by
  intro t u h
  refine (parallel_backlink c offset t u h).bind fun backlink t' u' hst => ?_
  refine (parallel_varint c t' u' hst.beside).bind fun length t'' u'' hst' => ?_
  rw [get_bind_apply, get_bind_apply, hst'.beside.limits]
  by_cases hlimit : t''.limits.maxPayloadLength < length.toNat
  · simp only [id_eq, if_pos hlimit]
    exact Agree.throw hst'.beside (.limit (.payload length.toNat offset _)) nofun
  · simp only [id_eq, if_neg hlimit]
    exact Agree.pure hst'.beside _

/-- What a terminator ends with.  The offset in the fault is that of the byte that was found in place
of the line feed. -/
theorem parallel_terminatorEnd : c.streams.Parallel id terminatorEnd terminatorEnd := by
  intro t u h
  rw [terminatorEnd, terminatorEnd, get_bind_apply, get_bind_apply, h.offset_eq]
  refine (parallel_onFeed c.parallel_requireByte t u h).bind fun found t' u' hst => ?_
  simp only [id_eq]
  by_cases hfound : found = 0x0A
  · rw [if_pos hfound, if_pos hfound]
    exact Agree.pure hst.beside _
  · rw [if_neg hfound, if_neg hfound]
    exact Agree.throw hst.beside (.framing t.offset found) nofun

theorem parallel_map {m : EStateM Fault (TokenStream σ) α} {m' : EStateM Fault (TokenStream τ) α}
    (hm : c.streams.Parallel id m m') (f : α → β) :
    c.streams.Parallel id (m >>= fun a => pure (f a)) (m' >>= fun a => pure (f a)) :=
  fun t u h => (hm t u h).bind fun a _ _ hst => .pure hst.beside (f a)

/-- What follows the tag of a token, for every tag.  The tags that are tokens by themselves take
nothing more. -/
theorem parallel_body (offset : Nat) (tag : Tag) :
    c.streams.Parallel id (body offset tag) (body (offset + c.shift) tag) := by
  -- A `clear` and an `add` record leave a mark at the tag, behind the backlink if there is one.
  cases tag with
  | clear => exact parallel_map c (parallel_markDictionary c offset) _
  | add =>
    intro t u h
    refine (parallel_backlink c offset t u h).bind fun backlink t' u' hst => ?_
    exact (parallel_markDictionary c offset t' u' hst.beside).bind fun _ _ _ hst' =>
      .pure hst'.beside (Token.add backlink)
  | value => exact parallel_valueHead c offset
  | terminator => exact parallel_terminatorEnd c
  | natural => exact parallel_map c (parallel_varint c) _
  | negative => exact parallel_map c (parallel_varint c) _
  | reference => exact parallel_map c (parallel_varint c) _
  | double => exact parallel_map c (parallel_onFeed (c.parallel_array 8)) _
  | string => exact parallel_map c (parallel_text c offset) _
  | _ => exact fun t u h => Agree.pure h _

/-- A byte opens the same token on both sides, or it is no tag on either. -/
theorem parallel_opened (offset : Nat) (byte : UInt8) :
    c.streams.Parallel (Placed.shift c.shift) (opened offset byte)
      (opened (offset + c.shift) byte) := by
  intro t u h
  unfold opened
  cases htag : Tag.ofByte? byte with
  | some tag =>
    exact (parallel_body c offset tag t u h).bind fun token _ _ hst =>
      .pure hst.beside (Placed.mk offset token)
  | none => exact Agree.throw h (.unknownTag byte offset) nofun

/-- A token takes at least its tag. -/
theorem agree_scan (h : Beside c t u) :
    AgreeNext c.streams 1 (Placed.shift c.shift) t u (scan t) (scan u) := by
  rw [scan, scan, get_bind_apply, get_bind_apply, h.offset_eq]
  refine AgreeNext.bindNext id id
    (AgreeNext.onPart (c.nextByte t.feed u.feed h.feed) (fun _ _ _ hst => h.onFeed hst) rfl rfl)
    (fun byte t' u' hst => ?_) (fun _ => rfl) (fun _ => rfl) (fun _ _ hst => hst)
  exact (parallel_opened c t.offset byte t' u' hst.beside).next

/-- What scanning may come to, the next token may come to; a fault is only noted in between. -/
theorem allows_next {w : Leeway} (h : w.Allows (scan u)) : w.Allows (next u) := by
  cases w with
  | nothing => exact h
  | failing cause =>
    obtain ⟨u', hu⟩ := h
    rw [next, hu]
    exact ⟨_, rfl⟩
  | anything => trivial

/-- **Token streams agree.**  The next token is the same on both sides but for its offset, and takes
at least one byte.  All that a decoder does is built on this. -/
theorem agree_next (h : Beside c t u) :
    AgreeNext c.streams 1 (Placed.shift c.shift) t u (next t) (next u) := by
  have hscan := agree_scan c h
  unfold next
  generalize hr : scan t = r at hscan
  generalize hr' : scan u = r' at hscan
  cases hscan with
  | item behind => exact .item behind
  | ended sure behind => exact .ended sure behind
  | error sure behind =>
    obtain ⟨⟨hfeed, hlimits, hlast⟩, hleft, hright⟩ := behind
    exact .error sure ⟨⟨hfeed, hlimits, hlast⟩, hleft, hright⟩
  | truncated allowed =>
    rw [← hr'] at allowed ⊢
    exact .truncated (allows_next allowed)
  | exhausted allowed =>
    rw [← hr'] at allowed ⊢
    exact .exhausted (allows_next allowed)

theorem parallel_skip (length : Nat) :
    c.streams.Parallel id (skip length : EStateM Fault (TokenStream σ) Unit) (skip length) :=
  parallel_onFeed (c.skip length)

end TokenStream

end DictLog
