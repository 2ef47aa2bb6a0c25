/-
# The buffered feed gives what a tape gives

All that matters of a buffer is the bytes that it holds (`Buffer.held`): taking the next, taking
several, leaving some out and filling it anew are what they should be on that list.

A request for many bytes is met out of the buffer a piece at a time, and each piece is what as many
requests for one byte would have been given (`array_of_held`).  So it comes to the same as asking for
one byte after the other, the state in which a failure leaves the feed included
(`take_eq_array`, `skip_eq_take`), and only the next byte has to be compared with a tape: the tape
that holds what is in the buffer and what is still to arrive.
-/
import DictLog.Buffered
import DictLog.Proofs.Feeds

namespace DictLog

open Step

/-! ## 1. What a buffer holds -/

namespace Buffer

variable {b : Buffer} {bytes : List UInt8}

theorem length_cells (cells : Vector UInt8 capacity) : cells.toList.length = capacity :=
  Vector.length_toList

/-- Cells that were copied out are a part of the list of all cells. -/
theorem slice_eq {cells : Vector UInt8 capacity} : ∀ (n start : Nat) (h : start + n ≤ capacity),
    slice cells n start h = (cells.toList.drop start).take n
  | 0, _, _ => rfl
  | n + 1, start, h => by
    have hlt : start < cells.toList.length := by
      rw [length_cells]
      omega
    rw [slice, slice_eq n, List.drop_eq_getElem_cons hlt, List.take_succ_cons]
    rfl

/-- Bytes that were copied in stand in the place of as many old ones; the cells in front and behind
are as they were. -/
theorem toList_overwrite : ∀ (bytes : List UInt8) (start : Nat) (h : start + bytes.length ≤ capacity)
    (cells : Vector UInt8 capacity), (overwrite bytes start h cells).toList =
      cells.toList.take start ++ bytes ++ cells.toList.drop (start + bytes.length)
  | [], start, h, cells => by simp [overwrite]
  | byte :: rest, start, h, cells => by
    simp only [List.length_cons] at h
    have hlt : start < cells.toList.length := by
      rw [length_cells]
      omega
    obtain ⟨front, old, back, hcells, rfl⟩ : ∃ front old back,
        cells.toList = front ++ old :: back ∧ front.length = start :=
      ⟨cells.toList.take start, cells.toList[start], cells.toList.drop (start + 1),
        by rw [← List.drop_eq_getElem_cons hlt, List.take_append_drop],
        List.length_take_of_le (Nat.le_of_lt hlt)⟩
    have hset : (cells.set front.length byte (by omega)).toList = front ++ byte :: back := by
      rw [Vector.toList_set, hcells]
      simp
    rw [overwrite, toList_overwrite rest, hset, hcells, List.length_cons, Nat.add_assoc,
      Nat.add_comm 1, List.take_length_add_append, List.drop_length_add_append,
      List.drop_length_add_append]
    simp

/-- The bytes that a buffer holds stand between its two marks. -/
theorem held_eq : b.held = (b.cells.toList.drop b.position).take b.available := by
  rw [held, front, slice_eq, Nat.min_self]

theorem length_held : b.held.length = b.available := by
  have hfilled := b.filled_le
  rw [held_eq, List.length_take, List.length_drop, length_cells, available]
  omega

/-- What a piece may give is the beginning of what is held. -/
theorem front_eq (n : Nat) : b.front n = b.held.take n := by
  rw [front, slice_eq, held_eq, List.take_take]

/-- The next byte is the first that is held, if any is.  What stands behind the mark of what was
filled is left over and never looked at. -/
theorem next?_eq : b.next? = b.held.head? := by
  have hlength := @length_held b
  rw [available] at hlength
  unfold next?
  split
  · rename_i h
    have hlt : b.position < b.cells.toList.length := by
      rw [length_cells]
      exact Nat.lt_of_lt_of_le h b.filled_le
    obtain ⟨n, hn⟩ : ∃ n, b.available = n + 1 := ⟨b.available - 1, by rw [available]; omega⟩
    rw [held_eq, hn, List.drop_eq_getElem_cons hlt, List.take_succ_cons]
    rfl
  · rw [List.eq_nil_of_length_eq_zero (l := b.held) (by omega)]
    rfl

/-- Passing over bytes leaves the others.  Passing over more than there are leaves none, which is no
fault here. -/
theorem held_pass (n : Nat) : (b.pass n).held = b.held.drop n := by
  have havailable : (b.pass n).available = b.available - n := by
    show b.filled - (b.position + min n b.available) = _
    rw [available]
    omega
  rw [held_eq, havailable, held_eq, List.drop_take, List.drop_drop]
  show (b.cells.toList.drop (b.position + min n b.available)).take (b.available - n) = _
  rcases Nat.le_total n b.available with hle | hle
  · rw [Nat.min_eq_left hle]
  · rw [Nat.sub_eq_zero_of_le hle, List.take_zero, List.take_zero]

/-- A buffer that was filled anew holds what it was filled with; nothing that it held before shows
through. -/
theorem held_load (h : bytes.length ≤ capacity) : (b.load bytes h).held = bytes := by
  rw [held_eq]
  show ((overwrite bytes 0 _ b.cells).toList.drop 0).take (bytes.length - 0) = bytes
  rw [toList_overwrite]
  simp

theorem pass_pass (m n : Nat) : (b.pass m).pass n = b.pass (m + n) := by
  have hposition : b.position + min m b.available +
      min n (b.filled - (b.position + min m b.available)) = b.position + min (m + n) b.available := by
    rw [available]
    omega
  simp only [pass, available, Buffer.mk.injEq, true_and, and_true] at hposition ⊢
  exact hposition

theorem pass_congr {m n : Nat} (h : min m b.available = min n b.available) : b.pass m = b.pass n := by
  simp only [pass, h]

theorem pass_zero : b.pass 0 = b := by
  simp [pass]

end Buffer

/-! ## 2. One byte after the other -/

namespace Feed

variable {σ : Type} [Feed σ] {t : σ}

/-- Bytes that were read can be left out of those to be read.  This cuts a request into a piece that
the buffer can meet and what is then still missing. -/
theorem array_add {m : Nat} (n : Nat) : ∀ {s : σ} {bytes : List UInt8}, array m s = .ok bytes t →
    array (m + n) s = (array n >>= fun rest => pure (bytes ++ rest)) t := by
  induction m with
  | zero =>
    intro s bytes h
    cases h
    rw [Nat.zero_add]
    show array n t = (array n >>= pure) t
    cases hn : array n t with
    | ok rest u => rw [bind_of_ok hn, pure_apply]
    | error fault u => rw [bind_of_error hn]
  | succ m ih =>
    intro s bytes h
    rw [array] at h
    obtain ⟨byte, u, hbyte, h⟩ := bind_eq_ok.mp h
    obtain ⟨rest, v, hrest, h⟩ := bind_eq_ok.mp h
    cases h
    rw [Nat.add_right_comm, array, bind_of_ok hbyte]
    have hmore := ih hrest
    cases hn : array n t with
    | ok more w =>
      rw [bind_of_ok hn, pure_apply] at hmore
      rw [bind_of_ok hmore, bind_of_ok hn]
      rfl
    | error fault w =>
      rw [bind_of_error hn] at hmore
      rw [bind_of_error hmore, bind_of_error hn]

end Feed

namespace Buffered

variable {b b' : Buffered} {byte : UInt8} {rest : List UInt8} {fault : Fault}

/-- The feed after at most `n` bytes of its buffer have been handed out. -/
def passed (n : Nat) (b : Buffered) : Buffered :=
  { b with buffer := b.buffer.pass n, offset := b.offset + min n b.buffer.available }

theorem passed_zero : b.passed 0 = b := by
  simp [passed, Buffer.pass_zero]

theorem passed_passed (m n : Nat) : (b.passed m).passed n = b.passed (m + n) := by
  have havailable : (b.buffer.pass m).available = b.buffer.available - m := by
    rw [← Buffer.length_held, Buffer.held_pass, List.length_drop, Buffer.length_held]
  simp only [passed, Buffer.pass_pass, havailable, Buffered.mk.injEq, true_and, and_true]
  omega

theorem passed_congr {m n : Nat} (h : min m b.buffer.available = min n b.buffer.available) :
    b.passed m = b.passed n := by
  simp only [passed, h, Buffer.pass_congr h]

/-- A buffer that holds a byte is left as it is. -/
theorem ready_of_held (h : b.buffer.held ≠ []) : ready b = .ok true b := by
  have hpos := List.length_pos_iff.mpr h
  rw [Buffer.length_held, Buffer.available] at hpos
  have hne : b.buffer.position ≠ b.buffer.filled := by omega
  rw [ready, get_bind_apply]
  simp only [if_neg hne, pure_apply]

theorem ready_of_empty (h : b.buffer.held = []) : ready b = fill b := by
  have hle := b.buffer.position_le
  have hlength := congrArg List.length h
  rw [Buffer.length_held, Buffer.available, List.length_nil] at hlength
  have heq : b.buffer.position = b.buffer.filled := by omega
  rw [ready, get_bind_apply]
  simp only [if_pos heq]

/-- Filling that succeeds brings at least one byte.  Interruptions are passed over, and no chunk is
empty. -/
theorem held_of_fillFrom {arrivals : List Arrival} (h : b.fillFrom arrivals = .ok true b') :
    b'.buffer.held ≠ [] := by
  induction arrivals with
  | nil =>
    rw [fillFrom] at h
    split at h <;> cases h
  | cons arrival arrivals ih =>
    cases arrival with
    | interrupted => exact ih h
    | chunk first rest =>
      cases h
      rw [Buffer.held_load]
      exact List.cons_ne_nil _ _

/-- A buffer that is ready holds a byte. -/
theorem held_of_ready (h : ready b = .ok true b') : b'.buffer.held ≠ [] := by
  by_cases hheld : b.buffer.held = []
  · rw [ready_of_empty hheld] at h
    exact held_of_fillFrom h
  · rw [ready_of_held hheld] at h
    cases h
    exact hheld

theorem nextByte_of_held (h : b.buffer.held = byte :: rest) :
    nextByte b = .ok (some byte) (b.passed 1) := by
  have hready := @ready_of_held b (by rw [h]; exact List.cons_ne_nil _ _)
  rw [nextByte, bind_of_ok hready]
  show EStateM.Result.ok b.buffer.next? (b.passed 1) = _
  rw [Buffer.next?_eq, h]
  rfl

/-- Whether the buffer was filled before or is filled for it, the next byte is the same. -/
theorem nextByte_of_ready (h : ready b = .ok true b') : nextByte b = nextByte b' := by
  rw [nextByte, bind_of_ok h, bind_of_ok (ready_of_held (held_of_ready h))]

theorem nextByte_of_over (h : ready b = .ok false b') : nextByte b = .ok none b' := by
  rw [nextByte, bind_of_ok h]
  rfl

theorem nextByte_of_error (h : ready b = .error fault b') : nextByte b = .error fault b' := by
  rw [nextByte, bind_of_error h]

/-! ## 3. Many bytes at once -/

/-- What the buffer holds is read one byte after the other, and it takes no filling, so nothing is
asked of the outside world and nothing can fail. -/
theorem array_of_held (n : Nat) : ∀ {b : Buffered}, n ≤ b.buffer.held.length →
    Feed.array n b = .ok (b.buffer.held.take n) (b.passed n) := by
  induction n with
  | zero =>
    intro b _
    rw [passed_zero]
    rfl
  | succ n ih =>
    intro b h
    cases hheld : b.buffer.held with
    | nil =>
      rw [hheld] at h
      exact absurd h (Nat.not_succ_le_zero n)
    | cons byte rest =>
      have hafter : (b.passed 1).buffer.held = rest := by
        show (b.buffer.pass 1).held = rest
        rw [Buffer.held_pass, hheld]
        rfl
      rw [hheld, List.length_cons] at h
      have hrest := @ih (b.passed 1) (by rw [hafter]; omega)
      have hbyte : Feed.requireByte b = .ok byte (b.passed 1) := bind_of_ok (nextByte_of_held hheld) _
      rw [Feed.array, bind_of_ok hbyte, bind_of_ok hrest, hafter, passed_passed, Nat.add_comm 1]
      rfl

/-- The first of several bytes is the one for which the buffer is made ready. -/
theorem array_of_ready (n : Nat) (h : ready b = .ok true b') :
    Feed.array (n + 1) b = Feed.array (n + 1) b' :=
  bind_congr (bind_congr (nextByte_of_ready h) _) _

/-- Where nothing more arrives, bytes that are asked for are missing. -/
theorem array_of_over (n : Nat) (h : ready b = .ok false b') :
    Feed.array (n + 1) b = .error .truncated b' := by
  have hbyte : Feed.requireByte b = .error .truncated b' := bind_of_ok (nextByte_of_over h) _
  rw [Feed.array, bind_of_error hbyte]

theorem array_of_error (n : Nat) (h : ready b = .error fault b') :
    Feed.array (n + 1) b = .error fault b' := by
  have hbyte : Feed.requireByte b = .error fault b' := bind_of_error (nextByte_of_error h) _
  rw [Feed.array, bind_of_error hbyte]

/-- Bytes are read one after the other as a piece that the buffer holds, and then what is still
missing. -/
theorem array_of_piece (n : Nat) (h : ready b = .ok true b') :
    Feed.array (n + 1) b =
      (Feed.array (n + 1 - min (n + 1) b'.buffer.available) >>=
        fun rest => pure (b'.buffer.front (n + 1) ++ rest)) (b'.passed (n + 1)) := by
  obtain ⟨k, hk⟩ : ∃ k, k = min (n + 1) b'.buffer.available := ⟨_, rfl⟩
  have hpiece := @array_of_held k b' (by rw [Buffer.length_held]; omega)
  have hmissing : k + (n + 1 - k) = n + 1 := by omega
  have hfront : b'.buffer.front (n + 1) = b'.buffer.held.take k := by
    rw [Buffer.front_eq, hk, ← Buffer.length_held, List.take_eq_take_min]
  have hpassed : b'.passed (n + 1) = b'.passed k := passed_congr (by omega)
  have harray := Feed.array_add (n + 1 - k) hpiece
  rw [array_of_ready n h, ← hk, hfront, hpassed, ← harray, hmissing]

/-- A piece comes out of the buffer, and what is missing is asked for again. -/
theorem takeWithin_of_ready {times n : Nat} {taken : List UInt8} (h : ready b = .ok true b') :
    takeWithin (times + 1) taken (n + 1) b =
      takeWithin times ((b'.buffer.front (n + 1)).reverse ++ taken)
        (n + 1 - min (n + 1) b'.buffer.available) (b'.passed (n + 1)) := by
  rw [takeWithin, bind_of_ok h]
  rfl

theorem takeWithin_of_over {times n : Nat} {taken : List UInt8} (h : ready b = .ok false b') :
    takeWithin (times + 1) taken (n + 1) b = .error .truncated b' := by
  rw [takeWithin, bind_of_ok h]
  rfl

theorem takeWithin_of_error {times n : Nat} {taken : List UInt8} (h : ready b = .error fault b') :
    takeWithin (times + 1) taken (n + 1) b = .error fault b' := by
  rw [takeWithin, bind_of_error h]

/-- The pieces that the buffer holds make up the bytes that are read one after the other.  The
induction is on a bound for the number of pieces; each piece has a byte at least, so the number of
bytes is bound enough. -/
theorem takeWithin_eq (times : Nat) : ∀ {n : Nat} {taken : List UInt8} {b : Buffered}, n ≤ times →
    takeWithin times taken n b =
      (Feed.array n >>= fun rest => pure (taken.reverse ++ rest)) b := by
  induction times with
  | zero =>
    intro n taken b h
    obtain rfl := Nat.le_zero.mp h
    simp [takeWithin, Feed.array]
  | succ times ih =>
    intro n taken b h
    cases n with
    | zero => simp [takeWithin, Feed.array]
    | succ n =>
      cases hready : ready b with
      | error fault b' =>
        rw [takeWithin_of_error hready, bind_of_error (array_of_error n hready)]
      | ok some b' =>
        cases some with
        | false => rw [takeWithin_of_over hready, bind_of_error (array_of_over n hready)]
        | true =>
          -- A piece came out, so that less is missing than before.
          have hpos := List.length_pos_iff.mpr (held_of_ready hready)
          rw [Buffer.length_held] at hpos
          have harray := array_of_piece n hready
          rw [takeWithin_of_ready hready, ih (by omega)]
          cases hrest : Feed.array (n + 1 - min (n + 1) b'.buffer.available) (b'.passed (n + 1)) with
          | ok rest b'' =>
            rw [bind_of_ok hrest] at harray
            rw [bind_of_ok hrest, bind_of_ok harray]
            simp
          | error fault b'' =>
            rw [bind_of_error hrest] at harray
            rw [bind_of_error hrest, bind_of_error harray]

/-- So many bytes are the bytes that come one after the other. -/
theorem take_eq_array (n : Nat) : take n = Feed.array n := by
  funext b
  rw [take, takeWithin_eq n (Nat.le_refl n)]
  cases h : Feed.array n b with
  | ok bytes b' => rw [bind_of_ok h]; rfl
  | error fault b' => rw [bind_of_error h]

/-- Bytes are left out in the same pieces in which they would be taken.  So only taking has to be
related to the tape. -/
theorem skipWithin_eq (times : Nat) : ∀ {n : Nat} {b : Buffered} (taken : List UInt8),
    skipWithin times n b = (takeWithin times taken n >>= fun _ => pure ()) b := by
  induction times with
  | zero =>
    intro n b taken
    cases n <;> rfl
  | succ times ih =>
    intro n b taken
    cases n with
    | zero => rfl
    | succ n =>
      rw [skipWithin]
      cases hready : ready b with
      | error fault b' =>
        rw [bind_of_error hready, bind_of_error (takeWithin_of_error hready)]
      | ok some b' =>
        rw [bind_of_ok hready]
        cases some with
        | false => rw [bind_of_error (takeWithin_of_over hready)]; rfl
        | true =>
          have htake := @takeWithin_of_ready b b' times n taken hready
          rw [bind_congr htake]
          exact ih _

theorem skip_eq_take (n : Nat) : skip n = (take n >>= fun _ => pure ()) :=
  funext fun _ => skipWithin_eq n []

end Buffered

/-! ## 4. The tape of a buffered feed -/

namespace Tape

/-- The tape with these bytes still to come. -/
def holding (rest : List UInt8) (offset : Nat) (ending : Ending) : Tape :=
  { ofBytes rest with offset, ending }

theorem nextByte_holding (byte : UInt8) (rest : List UInt8) (offset : Nat) (ending : Ending) :
    nextByte (holding (byte :: rest) offset ending) =
      .ok (some byte) (holding rest (offset + 1) ending) :=
  nextByte_eq_some.mpr ⟨rfl, rfl, rfl, rfl⟩

/-- Taking so many bytes off a tape, told by what it holds. -/
theorem take_holding (n : Nat) (rest : List UInt8) (offset : Nat) (ending : Ending) :
    take n (holding rest offset ending) =
      if n ≤ rest.length then .ok (rest.take n) (holding (rest.drop n) (offset + n) ending)
      else .error ending.fault (holding [] (offset + rest.length) ending) := by
  unfold take
  by_cases h : n ≤ rest.length
  · rw [if_pos h, if_pos (show n ≤ (holding rest offset ending).unread from h)]
    congr 1
    exact Tape.ext rfl rfl rfl
  · rw [if_neg h, if_neg (show ¬ n ≤ (holding rest offset ending).unread from h)]
    congr 1

/-- Taking one byte after the other off a tape, told in the same way.  Where too few are left, all of
them are gone, in the one case as in the other. -/
theorem array_holding (n : Nat) : ∀ (rest : List UInt8) (offset : Nat) (ending : Ending),
    Feed.array n (holding rest offset ending) =
      if n ≤ rest.length then .ok (rest.take n) (holding (rest.drop n) (offset + n) ending)
      else .error ending.fault (holding [] (offset + rest.length) ending) := by
  induction n with
  | zero =>
    intro rest offset ending
    rw [if_pos (Nat.zero_le _)]
    rfl
  | succ n ih =>
    intro rest offset ending
    rw [Feed.array]
    cases rest with
    | nil =>
      rw [if_neg (by simp)]
      cases ending with
      | clean => rfl
      | failing cause => rfl
    | cons byte rest =>
      have hbyte : Feed.requireByte (holding (byte :: rest) offset ending) =
          .ok byte (holding rest (offset + 1) ending) :=
        bind_of_ok (nextByte_holding byte rest offset ending) _
      rw [bind_of_ok hbyte]
      have hrest := ih rest (offset + 1) ending
      by_cases h : n ≤ rest.length
      · rw [if_pos h] at hrest
        rw [bind_of_ok hrest, if_pos (by rw [List.length_cons]; omega), List.take_succ_cons,
          List.drop_succ_cons, Nat.add_assoc, Nat.add_comm 1]
        rfl
      · rw [if_neg h] at hrest
        rw [bind_of_error hrest, if_neg (by rw [List.length_cons]; omega), List.length_cons,
          Nat.add_assoc, Nat.add_comm 1]

theorem take_eq_array (n : Nat) : take n = Feed.array n := by
  funext t
  obtain ⟨rest, offset, ending, rfl⟩ : ∃ rest offset ending, t = holding rest offset ending :=
    ⟨t.rest, t.offset, t.ending, Tape.ext rfl rfl rfl⟩
  rw [take_holding, array_holding]

end Tape

/-- A feed is lawful as soon as its next byte is, if it takes and leaves out bytes one after the
other. -/
abbrev LawfulFeed.oneByOne {σ : Type} [Feed σ] (tape : σ → Tape)
    (offset_eq : ∀ s, Feed.offset s = (tape s).offset)
    (unread_eq : ∀ s, Feed.unread s = (tape s).unread)
    (nextByte_eq : ∀ s, seenAs tape (Feed.nextByte s) = Tape.nextByte (tape s))
    (take_eq : ∀ n, (Feed.take n : EStateM Fault σ _) = Feed.array n)
    (skip_eq : ∀ n, (Feed.skip n : EStateM Fault σ _) = (Feed.take n >>= fun _ => pure ())) :
    LawfulFeed σ where
  tape := tape
  offset_eq := offset_eq
  unread_eq := unread_eq
  nextByte_eq := nextByte_eq
  take_eq n s := by
    rw [take_eq, Tape.take_eq_array]
    exact (Feed.shows_array nextByte_eq n).shows s
  skip_eq n s := by
    show _ = (Tape.take n >>= fun _ => pure ()) (tape s)
    rw [skip_eq, take_eq, Tape.take_eq_array]
    exact ((Feed.shows_array nextByte_eq n).bind fun _ => .pure ()).shows s

namespace Buffered

variable {b b' : Buffered}

/-- What the buffer holds, and what will still arrive. -/
def tape (b : Buffered) : Tape :=
  .holding b.bytes b.offset b.ending

/-- What filling a buffer comes to that holds nothing, where these bytes are to come. -/
inductive Filled (b : Buffered) (coming : List UInt8) : EStateM.Result Fault Buffered Bool → Prop
  | some {b' : Buffered} (held : b'.buffer.held ≠ [])
      (tape : b'.tape = .holding coming b.offset b.ending) : Filled b coming (.ok true b')
  | exhausted {b' : Buffered} (none : coming = []) (clean : b.ending = .clean)
      (tape : b'.tape = .holding coming b.offset b.ending) : Filled b coming (.ok false b')
  | failed {b' : Buffered} {cause : IoFault} (none : coming = []) (ending : b.ending = .failing cause)
      (tape : b'.tape = .holding coming b.offset b.ending) : Filled b coming (.error (.io cause) b')

/-- What a chunk brought too much arrives again as one chunk, or as none. -/
theorem flatMap_again (bytes : List UInt8) : (Arrival.again bytes).flatMap Arrival.bytes = bytes := by
  cases bytes <;> simp [Arrival.again, Arrival.bytes]

/-- Filling an empty buffer comes to one of three things, and in each the tape is what it was: bytes
move from what will arrive to what is held. -/
theorem filled_fillFrom (hheld : b.buffer.held = []) (arrivals : List Arrival) :
    Filled b (arrivals.flatMap Arrival.bytes) (b.fillFrom arrivals) := by
  induction arrivals with
  | nil =>
    have htape : tape { b with arrivals := [] } = .holding [] b.offset b.ending := by
      simp only [tape, bytes, hheld, List.flatMap_nil, List.append_nil]
    rw [fillFrom]
    split
    · rename_i hend
      exact .exhausted rfl hend htape
    · rename_i cause hend
      exact .failed rfl hend htape
  | cons arrival arrivals ih =>
    cases arrival with
    | interrupted => exact ih
    | chunk first rest =>
      refine .some ?_ ?_
      · rw [Buffer.held_load]
        exact List.cons_ne_nil _ _
      · rw [tape, bytes, Buffer.held_load, List.flatMap_append, flatMap_again, List.flatMap_cons,
          Arrival.bytes, List.cons_append, ← List.append_assoc, List.take_append_drop,
          List.cons_append]

/-- A byte that is held is the next of the tape, since what is held comes before what has still to
arrive. -/
theorem seenAs_nextByte_of_held (h : b.buffer.held ≠ []) :
    seenAs tape b.nextByte = Tape.nextByte b.tape := by
  cases hheld : b.buffer.held with
  | nil => exact absurd hheld h
  | cons byte rest =>
    have havailable : min 1 b.buffer.available = 1 := by
      rw [← Buffer.length_held, hheld, List.length_cons]
      omega
    rw [nextByte_of_held hheld]
    simp only [seenAs, tape, bytes, passed, Buffer.held_pass, hheld, havailable, List.cons_append,
      Tape.nextByte_holding]
    rfl

/-- **The next byte is that of the tape.**  Either the buffer holds it, or filling the buffer leaves
the tape as it is and comes to a byte, to the end or to the break. -/
theorem seenAs_nextByte (b : Buffered) : seenAs tape b.nextByte = Tape.nextByte b.tape := by
  by_cases hheld : b.buffer.held = []
  · have htape : b.tape = .holding (b.arrivals.flatMap Arrival.bytes) b.offset b.ending := by
      rw [tape, bytes, hheld, List.nil_append]
    have hfilled := filled_fillFrom hheld b.arrivals
    have hready : ready b = b.fillFrom b.arrivals := ready_of_empty hheld
    generalize b.fillFrom b.arrivals = r at hfilled hready
    rw [htape]
    -- The three things that filling may come to, each seen on the tape that is left as it was.
    cases hfilled with
    | some held same => rw [nextByte_of_ready hready, seenAs_nextByte_of_held held, same]
    | exhausted none clean same =>
      rw [nextByte_of_over hready, ← same, Tape.nextByte_of_clean]
      · rfl
      · rw [same]
        exact none
      · rw [same]
        exact clean
    | failed none ending same =>
      rw [nextByte_of_error hready, ← same, Tape.nextByte_of_failing]
      · rfl
      · rw [same]
        exact none
      · rw [same]
        exact ending
  · exact seenAs_nextByte_of_held hheld

instance : LawfulFeed Buffered :=
  .oneByOne tape (fun _ => rfl) (fun _ => rfl) seenAs_nextByte take_eq_array skip_eq_take

end Buffered

end DictLog
