/-
# Feeds that give the bytes of a tape

Where the second of two tapes goes on like the first, the same bytes come off both; what the second
holds behind the end of the first is for the leeway to say (`Tape.GoesOn`).

A feed is **lawful** if it gives what a tape would give.  Lawful feeds are coupled as their tapes are
(`Coupling.lawful`), and whatever is shown by a coupling of tapes holds for every reader of bytes.
What is read off a feed one byte at a time is seen on its tape as soon as each next byte is
(`shows_array`).
-/
import DictLog.Proofs.Coupling

namespace DictLog

open Step

/-! ## 1. Tapes -/

/-- What may come on a second tape behind the end of a first, and how the two may end. -/
def Leeway.Fits : Leeway → List UInt8 → Ending → Ending → Prop
  | nothing, more, ending, ending' => more = [] ∧ ending' = ending
  | failing cause, more, ending, ending' => more = [] ∧ ending = .clean ∧ ending' = .failing cause
  | anything, _, ending, _ => ending = .clean

/-- How an input ends has no offset in it. -/
theorem Ending.shift_fault {n : Nat} (ending : Ending) : ending.fault.shift n = ending.fault := by
  cases ending <;> rfl

namespace Tape

/-- The second tape stands `k` bytes further into its input, and goes on like the first. -/
structure GoesOn (w : Leeway) (k : Nat) (s t : Tape) : Prop where
  offset : t.offset = s.offset + k
  rest : ∃ more, t.rest = s.rest ++ more ∧ w.Fits more s.ending t.ending

variable {w : Leeway} {k : Nat} {s t : Tape}

/-- On an empty tape that breaks off, the break is met. -/
theorem nextByte_of_failing {cause : IoFault} (hrest : t.rest = [])
    (hend : t.ending = .failing cause) : nextByte t = .error (.io cause) t := by
  unfold nextByte
  split
  · rename_i h
    rw [hrest] at h
    cases h
  · rw [hend]

/-- On an empty tape that ends, there is no byte, and that is no fault. -/
theorem nextByte_of_clean (hrest : t.rest = []) (hend : t.ending = .clean) :
    nextByte t = .ok none t :=
  nextByte_eq_none.mpr ⟨hrest, hend, rfl⟩

/-- What a tape begins with can be read off it. -/
theorem reads_of_rest {bs rest : List UInt8} (h : t.rest = bs ++ rest) : ∃ t', Reads t bs t' := by
  obtain ⟨t', ht, -⟩ := Reads.exists_of_rest (s := t) h
  exact ⟨t', ht⟩

/-- The bond of two tapes. -/
abbrev bond (w : Leeway) (k : Nat) : Bond Tape Tape :=
  ⟨k, w, GoesOn w k, Tape.unread, Tape.unread⟩

/-- The same bytes were read off both tapes, and what is left goes on in the same way: the second
tape still has what the first has and perhaps more. -/
theorem GoesOn.reads (h : GoesOn w k s t) {bs : List UInt8} {s' t' : Tape} (hs : Reads s bs s')
    (ht : Reads t bs t') : (bond w k).Behind bs.length s t s' t' := by
  obtain ⟨more, hmore, hfits⟩ := h.rest
  have hrest : bs ++ t'.rest = bs ++ (s'.rest ++ more) := by
    have hs' : s.rest = bs ++ s'.rest := hs.rest
    have ht' : t.rest = bs ++ t'.rest := ht.rest
    rw [← ht', hmore, hs', List.append_assoc]
  have hlen : s.rest.length = bs.length + s'.rest.length := hs.length_rest
  have hlen' : t.rest.length = bs.length + t'.rest.length := ht.length_rest
  refine ⟨⟨?_, more, List.append_cancel_left hrest, ?_⟩, ?_, ?_⟩
  · have hoffset : s'.offset = s.offset + bs.length := hs.offset
    have hoffset' : t'.offset = t.offset + bs.length := ht.offset
    rw [hoffset', hoffset, h.offset]
    omega
  · have hend : s'.ending = s.ending := hs.ending
    have hend' : t'.ending = t.ending := ht.ending
    rwa [hend, hend']
  · simp only [s.unread_eq, s'.unread_eq]
    omega
  · simp only [t.unread_eq, t'.unread_eq]
    omega

/-- The next byte is the same, if the first tape has one.  If not, the leeway says what the second
may hold: nothing and the same end, nothing and a break, or whatever there is. -/
theorem GoesOn.nextByte (h : GoesOn w k s t) :
    AgreeNext (bond w k) 1 id s t (Tape.nextByte s) (Tape.nextByte t) := by
  obtain ⟨more, hmore, hfits⟩ := h.rest
  cases hrest : s.rest with
  | cons byte rest =>
    rw [hrest] at hmore
    obtain ⟨s', hs⟩ : ∃ s', Reads s [byte] s' := reads_of_rest hrest
    obtain ⟨t', ht⟩ : ∃ t', Reads t [byte] t' := reads_of_rest hmore
    rw [nextByte_eq_some.mpr hs, nextByte_eq_some.mpr ht]
    exact .item (h.reads hs ht)
  | nil =>
    rw [hrest] at hmore
    -- The first tape is empty, and its end is compared with what the second has.
    cases w with
    | nothing =>
      obtain ⟨rfl, hend⟩ := hfits
      cases hs : s.ending with
      | clean =>
        rw [nextByte_of_clean hrest hs, nextByte_of_clean hmore (hend.trans hs)]
        exact .ended rfl (.refl h)
      | failing cause =>
        rw [nextByte_of_failing hrest hs, nextByte_of_failing hmore (hend.trans hs)]
        exact .error (fun _ => rfl) (.refl h)
    | failing cause =>
      obtain ⟨rfl, hs, hend⟩ := hfits
      rw [nextByte_of_clean hrest hs, nextByte_of_failing hmore hend]
      exact .exhausted ⟨t, rfl⟩
    | anything =>
      rw [nextByte_of_clean hrest hfits]
      exact .exhausted trivial

/-- The tape with nothing left on it. -/
def exhausted (t : Tape) : Tape :=
  { ofBytes [] with offset := t.offset + t.unread, ending := t.ending }

/-- Where more bytes are asked for than there are, all are gone. -/
theorem take_of_short {n : Nat} (h : t.unread < n) :
    take n t = .error t.ending.fault t.exhausted := by
  rw [take, if_neg (Nat.not_le.mpr h)]
  rfl

/-- Tapes with nothing else on them are also used up together. -/
theorem GoesOn.exhausted (h : GoesOn .nothing k s t) :
    (bond .nothing k).Behind 0 s t s.exhausted t.exhausted := by
  obtain ⟨_, hmore, rfl, hend⟩ := h.rest
  rw [List.append_nil] at hmore
  refine ⟨⟨?_, [], rfl, rfl, hend⟩, Nat.zero_le _, Nat.zero_le _⟩
  have hoffset := h.offset
  simp only [Tape.exhausted, s.unread_eq, t.unread_eq, hmore]
  omega

/-- So many bytes at once.  A tape that holds fewer is used up, which is the one case in which the
leeway plays a part. -/
theorem GoesOn.take (n : Nat) (h : GoesOn w k s t) :
    Agree (bond w k) 0 id s t (Tape.take n s) (Tape.take n t) := by
  obtain ⟨more, hmore, hfits⟩ := h.rest
  have hunread : t.unread = s.unread + more.length := by
    rw [t.unread_eq, s.unread_eq, hmore, List.length_append]
  rcases Nat.lt_or_ge s.unread n with hshort | hlong
  · rw [take_of_short hshort]
    cases w with
    | nothing =>
      obtain ⟨rfl, hend⟩ := hfits
      have hfault : s.ending.fault.shift k = t.ending.fault := by rw [hend, Ending.shift_fault]
      rw [take_of_short (by rw [hunread]; exact hshort), ← hfault]
      exact .error (fun _ => rfl) h.exhausted
    | failing cause =>
      obtain ⟨rfl, hs, hend⟩ := hfits
      rw [take_of_short (by rw [hunread]; exact hshort), hs, hend]
      exact .truncated ⟨_, rfl⟩
    | anything =>
      rw [show s.ending = .clean from hfits]
      exact .truncated trivial
  · -- There are enough bytes on the first tape, so they are the next ones of the second, too.
    have hsplit : s.rest = s.rest.take n ++ s.rest.drop n := (List.take_append_drop ..).symm
    have hlen : (s.rest.take n).length = n := by
      rw [List.length_take, ← s.unread_eq]
      omega
    obtain ⟨s', hs⟩ := reads_of_rest hsplit
    rw [hsplit, List.append_assoc] at hmore
    obtain ⟨t', ht⟩ := reads_of_rest hmore
    rw [((takes_take n s).ok_iff _ _).mpr ⟨_, ⟨rfl, hlen⟩, hs⟩,
      ((takes_take n t).ok_iff _ _).mpr ⟨_, ⟨rfl, hlen⟩, ht⟩]
    exact .ok ((h.reads hs ht).mono (Nat.zero_le _))

/-- Skipping is taking, with the bytes thrown away. -/
theorem GoesOn.skip (n : Nat) (h : GoesOn w k s t) :
    Agree (bond w k) 0 id s t (Tape.skip n s) (Tape.skip n t) :=
  (h.take n).bind fun _ _ _ hst => .pure hst.beside ()

end Tape

/-! ## 2. Lawful feeds -/

/-- What a step comes to, with its state seen as another. -/
def Step.seenAs {ε σ τ α : Type} (view : σ → τ) :
    EStateM.Result ε σ α → EStateM.Result ε τ α
  | .ok a s => .ok a (view s)
  | .error e s => .error e (view s)

/-- A feed that gives what a tape gives: there is a view of it as a tape, and every operation, seen
through the view, is that of the tape.  What is proved of tapes then holds for the feed. -/
class LawfulFeed (σ : Type) [Feed σ] where
  tape : σ → Tape
  offset_eq : ∀ s, Feed.offset s = (tape s).offset
  unread_eq : ∀ s, Feed.unread s = (tape s).unread
  nextByte_eq : ∀ s, seenAs tape (Feed.nextByte s) = Tape.nextByte (tape s)
  take_eq : ∀ n s, seenAs tape (Feed.take n s) = Tape.take n (tape s)
  skip_eq : ∀ n s, seenAs tape (Feed.skip n s) = Tape.skip n (tape s)

instance : LawfulFeed Tape where
  tape t := t
  offset_eq _ := rfl
  unread_eq _ := rfl
  nextByte_eq s := by
    show seenAs _ (Tape.nextByte s) = _
    cases Tape.nextByte s <;> rfl
  take_eq n s := by
    show seenAs _ (Tape.take n s) = _
    cases Tape.take n s <;> rfl
  skip_eq n s := by
    show seenAs _ (Tape.skip n s) = _
    cases Tape.skip n s <;> rfl

section Lawful

variable {σ τ α β : Type} {view : σ → Tape} {view' : τ → Tape} {b : Bond Tape Tape} {n : Nat}
  {g : α → β} {s : σ} {t : τ}

/-- The bond of two readers that are seen as bonded ones. -/
abbrev Bond.seenAs (b : Bond Tape Tape) (view : σ → Tape) (view' : τ → Tape) : Bond σ τ where
  shift := b.shift
  leeway := b.leeway
  Beside s t := b.Beside (view s) (view' t)
  left s := b.left (view s)
  right t := b.right (view' t)

/-- What is allowed as seen on a tape is allowed, since a view hides neither a fault nor an answer. -/
theorem Leeway.allows_of_seenAs {w : Leeway} {r : EStateM.Result Fault τ β}
    (h : w.Allows (Step.seenAs view' r)) : w.Allows r := by
  cases w with
  | nothing => exact h
  | failing cause =>
    obtain ⟨t, ht⟩ := h
    cases r with
    | ok b t => cases ht
    | error f t =>
      cases ht
      exact ⟨t, rfl⟩
  | anything => trivial

/-- Steps that are agreed on as seen on tapes are agreed on.  So agreement has to be proved for tapes
only, and holds for every lawful feed. -/
theorem Agree.of_seenAs {r : EStateM.Result Fault σ α} {r' : EStateM.Result Fault τ β}
    (h : Agree b n g (view s) (view' t) (Step.seenAs view r) (Step.seenAs view' r')) :
    Agree (b.seenAs view view') n g s t r r' := by
  generalize hr : Step.seenAs view r = q at h
  generalize hr' : Step.seenAs view' r' = q' at h
  cases h with
  | ok behind =>
    cases r <;> cases hr
    cases r' <;> cases hr'
    exact .ok ⟨behind.beside, behind.left, behind.right⟩
  | error sure behind =>
    cases r <;> cases hr
    cases r' <;> cases hr'
    exact .error sure ⟨behind.beside, behind.left, behind.right⟩
  | truncated allowed =>
    cases r <;> cases hr
    rw [← hr'] at allowed
    exact .truncated (Leeway.allows_of_seenAs allowed)

/-- So are steps to the next item, where an end is seen as an end. -/
theorem AgreeNext.of_seenAs {r : EStateM.Result Fault σ (Option α)}
    {r' : EStateM.Result Fault τ (Option β)}
    (h : AgreeNext b n g (view s) (view' t) (Step.seenAs view r) (Step.seenAs view' r')) :
    AgreeNext (b.seenAs view view') n g s t r r' := by
  generalize hr : Step.seenAs view r = q at h
  generalize hr' : Step.seenAs view' r' = q' at h
  cases h with
  | item behind =>
    cases r <;> cases hr
    cases r' <;> cases hr'
    exact .item ⟨behind.beside, behind.left, behind.right⟩
  | ended sure behind =>
    cases r <;> cases hr
    cases r' <;> cases hr'
    exact .ended sure ⟨behind.beside, behind.left, behind.right⟩
  | error sure behind =>
    cases r <;> cases hr
    cases r' <;> cases hr'
    exact .error sure ⟨behind.beside, behind.left, behind.right⟩
  | truncated allowed =>
    cases r <;> cases hr
    rw [← hr'] at allowed
    exact .truncated (Leeway.allows_of_seenAs allowed)
  | exhausted allowed =>
    cases r <;> cases hr
    rw [← hr'] at allowed
    exact .exhausted (Leeway.allows_of_seenAs allowed)

/-- Lawful feeds of which the second's tape goes on like the first's. -/
def Coupling.lawful (σ τ : Type) [Feed σ] [Feed τ] [LawfulFeed σ] [LawfulFeed τ] (w : Leeway)
    (k : Nat) : Coupling σ τ where
  shift := k
  leeway := w
  Beside s t := Tape.GoesOn w k (LawfulFeed.tape s) (LawfulFeed.tape t)
  offset_eq s t h := by
    rw [LawfulFeed.offset_eq, LawfulFeed.offset_eq]
    exact h.offset
  nextByte s t h := by
    have hnext := h.nextByte
    rw [← LawfulFeed.nextByte_eq, ← LawfulFeed.nextByte_eq] at hnext
    have hlift := hnext.of_seenAs
    simp only [Bond.seenAs, ← LawfulFeed.unread_eq] at hlift
    exact hlift
  take n s t h := by
    have htake := h.take n
    rw [← LawfulFeed.take_eq, ← LawfulFeed.take_eq] at htake
    have hlift := htake.of_seenAs
    simp only [Bond.seenAs, ← LawfulFeed.unread_eq] at hlift
    exact hlift
  skip n s t h := by
    have hskip := h.skip n
    rw [← LawfulFeed.skip_eq, ← LawfulFeed.skip_eq] at hskip
    have hlift := hskip.of_seenAs
    simp only [Bond.seenAs, ← LawfulFeed.unread_eq] at hlift
    exact hlift

end Lawful

/-! ## 3. Steps that are seen as others -/

namespace Step

variable {ε σ τ σ' τ' α β : Type}

/-- Through `view`, the one step is seen to do what the other does. -/
def Shows (view : σ → τ) (m : EStateM ε σ α) (m' : EStateM ε τ α) : Prop :=
  ∀ s, seenAs view (m s) = m' (view s)

theorem Shows.refl (m : EStateM ε σ α) : Shows id m m := by
  intro s
  show seenAs id (m s) = m s
  cases m s <;> rfl

/-- Through `view`, the one step is seen to do what the other does, unless it fails with a fault that
is excused. -/
def ShowsUnless (excused : ε → Prop) (view : σ → τ) (m : EStateM ε σ α) (m' : EStateM ε τ α) : Prop :=
  ∀ s, seenAs view (m s) = m' (view s) ∨ ∃ e t, m s = .error e t ∧ excused e

namespace ShowsUnless

variable {excused : ε → Prop} {view : σ → τ} {outer : σ' → τ'} {m : EStateM ε σ α}
  {m' : EStateM ε τ α}

/-- What is seen to do the same needs no excuse. -/
theorem of_shows (h : Shows view m m') : ShowsUnless excused view m m' :=
  fun s => .inl (h s)

/-- Without excuses, the one is seen to do what the other does. -/
theorem shows (h : ShowsUnless (fun _ => False) view m m') : Shows view m m' := by
  intro s
  rcases h s with hsame | ⟨_, _, _, hfalse⟩
  · exact hsame
  · exact hfalse.elim

theorem pure (a : α) :
    ShowsUnless excused view (Pure.pure a : EStateM ε σ α) (Pure.pure a : EStateM ε τ α) :=
  of_shows fun _ => rfl

theorem throw (e : ε) : ShowsUnless excused view (MonadExcept.throw e : EStateM ε σ α)
    (MonadExcept.throw e : EStateM ε τ α) :=
  of_shows fun _ => rfl

/-- What is excused, whatever the other step does. -/
theorem excuse {e : ε} (h : excused e) :
    ShowsUnless excused view (MonadExcept.throw e : EStateM ε σ α) m' :=
  fun s => .inr ⟨e, s, rfl, h⟩

/-- A step and the next.  Once a fault is excused, there is no next step to compare. -/
theorem bind {f : α → EStateM ε σ β} {f' : α → EStateM ε τ β} (hm : ShowsUnless excused view m m')
    (hf : ∀ a, ShowsUnless excused view (f a) (f' a)) :
    ShowsUnless excused view (m >>= f) (m' >>= f') := by
  intro s
  rcases hm s with hsame | ⟨e, t, herror, hexcused⟩
  · cases h : m s with
    | ok a t =>
      rw [h] at hsame
      rw [bind_of_ok h, bind_of_ok hsame.symm]
      exact hf a t
    | error e t =>
      rw [h] at hsame
      rw [bind_of_error h, bind_of_error hsame.symm]
      exact .inl rfl
  · exact .inr ⟨e, t, bind_of_error herror _, hexcused⟩

theorem map (h : ShowsUnless excused view m m') (f : α → β) :
    ShowsUnless excused view (m >>= fun a => Pure.pure (f a)) (m' >>= fun a => Pure.pure (f a)) :=
  h.bind fun a => .pure (f a)

theorem ite {c : Prop} [Decidable c] {n : EStateM ε σ α} {n' : EStateM ε τ α}
    (h : ShowsUnless excused view m m') (k : ShowsUnless excused view n n') :
    ShowsUnless excused view (if c then m else n) (if c then m' else n') := by
  split
  · exact h
  · exact k

theorem get {f : σ → EStateM ε σ β} {f' : τ → EStateM ε τ β}
    (hf : ∀ s, ShowsUnless excused view (f s) (f' (view s))) :
    ShowsUnless excused view (MonadState.get >>= f) (MonadState.get >>= f') :=
  fun s => hf s s

theorem modified {change : σ → σ} {change' : τ → τ} (h : ∀ s, view (change s) = change' (view s)) :
    ShowsUnless excused view (modify change : EStateM ε σ PUnit)
      (modify change' : EStateM ε τ PUnit) := by
  intro s
  left
  show EStateM.Result.ok PUnit.unit (view (change s)) = .ok PUnit.unit (change' (view s))
  rw [h]

/-- What is seen of a part is seen of the whole, if the view of the whole has the view of the part
in its place. -/
theorem ofPart {part : σ' → σ} {put : σ → σ' → σ'} {part' : τ' → τ} {put' : τ → τ' → τ'}
    (hm : ShowsUnless excused view m m') (hpart : ∀ w, part' (outer w) = view (part w))
    (hput : ∀ s w, outer (put s w) = put' (view s) (outer w)) :
    ShowsUnless excused outer (onPart part put m) (onPart part' put' m') := by
  intro w
  rcases hm (part w) with hsame | ⟨e, t, herror, hexcused⟩
  · left
    rw [← hpart] at hsame
    unfold onPart
    rw [← hsame]
    cases m (part w) with
    | ok a s => exact congrArg (EStateM.Result.ok a) (hput s w)
    | error e s => exact congrArg (EStateM.Result.error e) (hput s w)
  · exact .inr ⟨e, put t w, onPart_of_error herror, hexcused⟩

end ShowsUnless

end Step

section OneByOne

variable {σ τ : Type} [Feed σ] [Feed τ] {view : σ → τ} {excused : Fault → Prop}
  (hnext : Shows view (Feed.nextByte : EStateM Fault σ _) (Feed.nextByte : EStateM Fault τ _))
include hnext

theorem Feed.shows_requireByte : ShowsUnless excused view (Feed.requireByte : EStateM Fault σ _)
    (Feed.requireByte : EStateM Fault τ _) := by
  refine (ShowsUnless.of_shows hnext).bind fun byte => ?_
  cases byte with
  | some byte => exact .pure byte
  | none => exact .throw _

/-- A number, group by group. -/
theorem Feed.shows_varintFrom (groups : Nat) : ∀ acc,
    ShowsUnless excused view (Feed.varintFrom groups acc : EStateM Fault σ _)
      (Feed.varintFrom groups acc : EStateM Fault τ _) := by
  induction groups with
  | zero => exact fun _ => .throw _
  | succ groups ih =>
    refine fun acc => (shows_requireByte hnext).bind fun byte => ?_
    split
    · exact .pure _
    · exact ih _
    · exact .throw _

/-- So many bytes, one by one.  A feed may take bytes in larger pieces too; these are not needed for
numbers and doubles. -/
theorem Feed.shows_array (n : Nat) : ShowsUnless excused view (Feed.array n : EStateM Fault σ _)
    (Feed.array n : EStateM Fault τ _) := by
  induction n with
  | zero => exact .pure []
  | succ n ih =>
    exact (shows_requireByte hnext).bind fun byte => ih.bind fun rest => .pure (byte :: rest)

end OneByOne

end DictLog
