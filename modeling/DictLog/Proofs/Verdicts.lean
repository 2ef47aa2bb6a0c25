/-
# What a varint is taken for

What a reader makes of a varint at the front of some bytes can be said without any reader.  The first
byte with its high bit clear ends the varint if it is one of the first ten; the groups up to it are
the digits of a number in base 128, and the number is taken if 64 bits hold it.  Bytes that end before
that are cut off, and ten bytes that all go on are too many (`verdict`).

`readers_agree`: taking the varint off a byte string, pushing the bytes one by one and reading them off
a feed all come to the verdict, and look at as many bytes as it says.  No group is ever shifted by more
than 63, whatever became of the groups before it.

All three readers are pushes, one after another.  Behind bytes that all go on, the accumulator holds
the number of their groups (`pushed_front`), so only the byte behind them has to be looked at, and the
tenth is the one that may not fit.
-/
import DictLog.Proofs.Chunks
import Mathlib.Data.Nat.Digits.Lemmas

namespace DictLog.Varint

open Step

/-! ## 1. The verdict on some bytes -/

/-- The number that has these groups, the lowest first. -/
def number (bytes : List UInt8) : Nat :=
  (bytes.mapIdx fun i b => b.toNat % 128 * 2 ^ (7 * i)).sum

/-- What a varint at the front of some bytes is taken for, if they are enough to tell, and how many of
them were looked at. -/
structure Verdict where
  answer : Option (Except Fault UInt64)
  looked : Nat

namespace Verdict

/-- The answer of a reader whose bytes end in such a way. -/
def result (ending : Ending) (v : Verdict) : Except Fault UInt64 :=
  v.answer.getD (.error ending.fault)

/-- The verdict where so many bytes were looked at before. -/
def behind (n : Nat) (v : Verdict) : Verdict :=
  { v with looked := n + v.looked }

@[simp] theorem behind_zero (v : Verdict) : v.behind 0 = v := by
  simp [behind]

@[simp] theorem behind_behind (m n : Nat) (v : Verdict) : (v.behind n).behind m = v.behind (m + n) := by
  simp [behind, Nat.add_assoc]

end Verdict

/-- What a varint at the front of these bytes is to be taken for. -/
def verdict (bytes : List UInt8) : Verdict :=
  match (bytes.take maxLength).findIdx? (·.toNat < 128) with
  | some last =>
    let n := number (bytes.take (last + 1))
    ⟨some (if n < UInt64.size then .ok (.ofNat n) else .error .integerOverflow), last + 1⟩
  | none =>
    if bytes.length < maxLength then ⟨none, bytes.length⟩
    else ⟨some (.error .integerOverflow), maxLength⟩

/-- The first answer to bytes that are pushed one by one. -/
def pushed (acc : Accumulator) : List UInt8 → Verdict
  | [] => ⟨none, 0⟩
  | byte :: rest =>
    match acc.push byte with
    | .ok (some value) _ => ⟨some (.ok value), 1⟩
    | .ok none acc => (pushed acc rest).behind 1
    | .error fault _ => ⟨some (.error fault), 1⟩

/-- The accumulator behind some pushes, each made of what the one before it left, whether it gave
nothing, an integer or a fault. -/
def Accumulator.afterAll (bytes : List UInt8) (acc : Accumulator) : Accumulator :=
  bytes.foldl (fun acc byte => left (acc.push byte)) acc

/-! ## 2. Groups as digits -/

/-- The groups are the digits of the number in base 128. -/
theorem number_eq_ofDigits (bytes : List UInt8) :
    number bytes = Nat.ofDigits 128 (bytes.map (·.toNat % 128)) := by
  rw [number, Nat.ofDigits_eq_sum_mapIdx]
  refine congrArg List.sum (List.ext_getElem (by simp) fun i _ _ => ?_)
  simp [Nat.pow_mul]

@[simp] theorem number_nil : number [] = 0 := rfl

/-- A group in front counts once, and the others count 128 times as much. -/
theorem number_cons (b : UInt8) (bytes : List UInt8) :
    number (b :: bytes) = b.toNat % 128 + 128 * number bytes := by
  simp only [number_eq_ofDigits, List.map_cons, Nat.ofDigits_cons]

/-- A group behind them is shifted past them. -/
theorem number_concat (bytes : List UInt8) (b : UInt8) :
    number (bytes ++ [b]) = number bytes + (b.toNat % 128) <<< (7 * bytes.length) := by
  have hpow : (128 : Nat) ^ bytes.length = 2 ^ (7 * bytes.length) := by rw [Nat.pow_mul]
  rw [number_eq_ofDigits, number_eq_ofDigits, List.map_append, List.map_singleton,
    Nat.ofDigits_append, Nat.ofDigits_singleton, List.length_map, hpow, Nat.shiftLeft_eq,
    Nat.mul_comm]

/-! ## 3. How bytes can begin -/

/-- All of the bytes have their high bit set. -/
def GoOn (bytes : List UInt8) : Prop :=
  ∀ b ∈ bytes, 128 ≤ b.toNat

/-- How bytes begin, as far as a reader of varints looks at them. -/
inductive Beginning : List UInt8 → Prop
  /-- One of the first ten bytes ends a varint. -/
  | ended {front rest : List UInt8} {last : UInt8} (more : GoOn front)
      (short : front.length < maxLength) (ends : last.toNat < 128) :
      Beginning (front ++ last :: rest)
  /-- The bytes are fewer than ten, and none of them does. -/
  | unfinished {bytes : List UInt8} (more : GoOn bytes) (short : bytes.length < maxLength) :
      Beginning bytes
  /-- The first ten bytes all go on. -/
  | endless {front rest : List UInt8} (more : GoOn front) (ten : front.length = maxLength) :
      Beginning (front ++ rest)

/-- The bytes up to the first one that does not go on. -/
theorem exists_goOn (bytes : List UInt8) :
    ∃ front rest, bytes = front ++ rest ∧ GoOn front ∧ ∀ b ∈ rest.head?, b.toNat < 128 := by
  induction bytes with
  | nil => exact ⟨[], [], rfl, by simp [GoOn], by simp⟩
  | cons b bytes ih =>
    rcases Nat.lt_or_ge b.toNat 128 with hb | hb
    · exact ⟨[], b :: bytes, rfl, by simp [GoOn], by simpa using hb⟩
    · obtain ⟨front, rest, rfl, hfront, hrest⟩ := ih
      exact ⟨b :: front, rest, rfl, List.forall_mem_cons.mpr ⟨hb, hfront⟩, hrest⟩

/-- Any bytes begin in one of the three ways. -/
theorem beginning (bytes : List UInt8) : Beginning bytes := by
  obtain ⟨front, rest, rfl, hfront, hrest⟩ := exists_goOn bytes
  rcases Nat.lt_or_ge front.length maxLength with hshort | hlong
  · cases rest with
    | nil => simpa using Beginning.unfinished hfront hshort
    | cons last rest => exact .ended hfront hshort (by simpa using hrest)
  · rw [← List.take_append_drop maxLength front, List.append_assoc]
    exact .endless (fun b hb => hfront b (List.mem_of_mem_take hb)) (List.length_take_of_le hlong)

/-- Bytes that all go on have no last one. -/
theorem findIdx?_of_goOn {bytes : List UInt8} (h : GoOn bytes) :
    bytes.findIdx? (·.toNat < 128) = none := by
  simpa [List.findIdx?_eq_none_iff, GoOn] using h

section Verdict

variable {front bytes rest : List UInt8} {last : UInt8}

/-- The verdict where a varint ends in time. -/
theorem verdict_ended (more : GoOn front) (short : front.length < maxLength)
    (ends : last.toNat < 128) :
    let n := number (front ++ [last])
    verdict (front ++ last :: rest) =
      ⟨some (if n < UInt64.size then .ok (.ofNat n) else .error .integerOverflow),
        front.length + 1⟩ := by
  have hfirst : ((front ++ last :: rest).take maxLength).findIdx? (·.toNat < 128) =
      some front.length := by
    simp [List.findIdx?_take, List.findIdx?_append, findIdx?_of_goOn more, List.findIdx?_cons, ends,
      short]
  have htaken : (front ++ last :: rest).take (front.length + 1) = front ++ [last] := by
    simp [List.take_append]
  simp only [verdict, hfirst, htaken]

/-- The verdict where the bytes end first. -/
theorem verdict_unfinished (more : GoOn bytes) (short : bytes.length < maxLength) :
    verdict bytes = ⟨none, bytes.length⟩ := by
  have hall : (bytes.take maxLength).findIdx? (·.toNat < 128) = none := by
    rw [List.take_of_length_le (Nat.le_of_lt short)]
    exact findIdx?_of_goOn more
  simp only [verdict, hall, if_pos short]

/-- The verdict where ten groups go on. -/
theorem verdict_endless (more : GoOn front) (ten : front.length = maxLength) :
    verdict (front ++ rest) = ⟨some (.error .integerOverflow), maxLength⟩ := by
  have hall : ((front ++ rest).take maxLength).findIdx? (·.toNat < 128) = none := by
    rw [List.take_left' ten]
    exact findIdx?_of_goOn more
  have hlong : ¬ (front ++ rest).length < maxLength := by
    simp [ten]
  simp only [verdict, hall, if_neg hlong]

end Verdict

/-! ## 4. Pushing bytes that go on, and the byte behind them -/

/-- The accumulator behind at most nine bytes that all go on.  Each of them is held in its place, and
none can be refused, since only a tenth group can. -/
theorem pushed_front {front : List UInt8} (more : GoOn front) (short : front.length < maxLength) :
    ∃ acc : Accumulator, acc.Holds front.length ∧ acc.value.toNat = number front ∧
      ∀ rest, pushed {} (front ++ rest) = (pushed acc rest).behind front.length := by
  induction front using List.reverseRecOn with
  | nil => exact ⟨{}, Accumulator.holds_empty, rfl, fun _ => by simp⟩
  | append_singleton front b ih =>
    have hb : 128 ≤ b.toNat := more b (by simp)
    have hlen : front.length < 9 := by
      simp only [List.length_append, List.length_singleton, maxLength] at short
      omega
    obtain ⟨acc, hacc, hvalue, hpushed⟩ :=
      ih (fun c hc => more c (by simp [hc])) (Nat.lt_succ_of_lt hlen)
    have hshift := hacc.shift
    have hover : ¬ (acc.shift = 63 ∧ 1 < b.toNat) := by omega
    refine ⟨acc.more b, ?_, ?_, fun rest => ?_⟩
    · simpa using hacc.more hlen b
    · rw [toNat_more hacc (Nat.le_of_lt hlen) hover, hvalue, number_concat, hshift]
    · have hpush : acc.push b = .ok none (acc.more b) := by
        rw [push_eq, if_neg hover, if_neg (Nat.not_lt.mpr hb)]
      rw [List.append_assoc, List.singleton_append, hpushed, pushed]
      simp only [hpush, Verdict.behind_behind, List.length_append, List.length_singleton]

/-- The byte that ends a varint is taken exactly if 64 bits hold the number. -/
theorem pushed_last {front rest : List UInt8} {last : UInt8} {acc : Accumulator}
    (hacc : acc.Holds front.length) (hvalue : acc.value.toNat = number front)
    (short : front.length < maxLength) (ends : last.toNat < 128) :
    let n := number (front ++ [last])
    pushed acc (last :: rest) =
      ⟨some (if n < UInt64.size then .ok (.ofNat n) else .error .integerOverflow), 1⟩ := by
  intro n
  have hk : front.length ≤ 9 := Nat.le_of_lt_succ short
  have hn : n = acc.value.toNat + last.toNat <<< acc.shift := by
    rw [hvalue, hacc.shift, ← Nat.mod_eq_of_lt ends, ← number_concat]
  -- The byte is refused exactly if it is the tenth and has more than the one bit that is left.
  by_cases hover : acc.shift = 63 ∧ 1 < last.toNat
  · have hpush : acc.push last = .error .integerOverflow acc := by
      rw [push_eq, if_pos hover]
    have hlarge : ¬ n < UInt64.size := by
      rw [hn, hover.1, Nat.shiftLeft_eq]
      simp only [UInt64.size]
      omega
    simp only [pushed, hpush, if_neg hlarge]
  · have hpush : acc.push last =
        .ok (some (acc.more last).value) { acc with value := (acc.more last).value } := by
      rw [push_eq, if_neg hover, if_pos ends]
    have hmore : (acc.more last).value.toNat = n := by
      rw [toNat_more hacc hk hover, Nat.mod_eq_of_lt ends, hn]
    have hofNat : UInt64.ofNat n = (acc.more last).value := by
      rw [← hmore, UInt64.ofNat_toNat]
    have hfits : n < UInt64.size := hmore ▸ (acc.more last).value.toNat_lt
    simp only [pushed, hpush, if_pos hfits, hofNat]

/-- No tenth byte goes on. -/
theorem pushed_tenth {acc : Accumulator} (hacc : acc.Holds 9) {b : UInt8} (goes : 128 ≤ b.toNat)
    (rest : List UInt8) : pushed acc (b :: rest) = ⟨some (.error .integerOverflow), 1⟩ := by
  have hpush : acc.push b = .error .integerOverflow acc := by
    rw [push_eq, if_pos ⟨hacc.shift, by omega⟩]
  simp only [pushed, hpush]

/-- Pushing bytes one by one comes to the verdict on them, in each of the three ways in which bytes
may begin. -/
theorem pushed_eq (bytes : List UInt8) : pushed {} bytes = verdict bytes := by
  cases beginning bytes with
  | @ended front rest last more short ends =>
    obtain ⟨acc, hacc, hvalue, hpushed⟩ := pushed_front more short
    rw [hpushed, pushed_last hacc hvalue short ends, verdict_ended more short ends]
    rfl
  | unfinished more short =>
    obtain ⟨acc, -, -, hpushed⟩ := pushed_front more short
    rw [← List.append_nil bytes, hpushed, List.append_nil, verdict_unfinished more short]
    rfl
  | @endless front rest more ten =>
    obtain ⟨nine, tenth, rfl⟩ : ∃ nine tenth, front = nine ++ [tenth] := by
      rcases List.eq_nil_or_concat front with rfl | ⟨nine, tenth, rfl⟩
      · exact absurd ten (by decide)
      · exact ⟨nine, tenth, List.concat_eq_append⟩
    have hnine : nine.length = 9 := by simpa [maxLength] using ten
    have hmore : GoOn nine := fun b hb => more b (by simp [hb])
    obtain ⟨acc, hacc, -, hpushed⟩ := pushed_front hmore (by rw [hnine]; decide)
    rw [verdict_endless more ten, List.append_assoc, List.singleton_append, hpushed,
      pushed_tenth (hnine ▸ hacc) (more tenth (by simp)), hnine]
    rfl

/-! ## 5. The readers -/

/-- Taking a varint off a byte string is pushing its bytes, and counting them on the way. -/
theorem decodeFrom_eq (bytes : List UInt8) : ∀ (acc : Accumulator) (taken : Nat),
    decodeFrom acc taken bytes =
      ((pushed acc bytes).result .clean).map (·, taken + (pushed acc bytes).looked) := by
  induction bytes with
  | nil => exact fun _ _ => rfl
  | cons byte bytes ih =>
    intro acc taken
    rw [decodeFrom, pushed]
    rcases acc.push byte with ⟨_ | value, acc'⟩ | ⟨fault, acc'⟩
    · simp only [ih, Verdict.behind, Verdict.result, Nat.add_assoc]
    · rfl
    · rfl

/-- Taking a varint off a byte string comes to the verdict on it. -/
theorem decode_eq_verdict (bytes : List UInt8) :
    decode bytes = ((verdict bytes).result .clean).map (·, (verdict bytes).looked) := by
  rw [decode, decodeFrom_eq, pushed_eq, Nat.zero_add]

/-- What a reader of a tape gives and leaves if it comes to this verdict. -/
def Verdict.reply (t : Tape) (v : Verdict) : Reply UInt64 Tape :=
  ⟨v.result t.ending, .holding (t.rest.drop v.looked) (t.offset + v.looked) t.ending⟩

/-- A byte that was read already is one of those that were looked at. -/
theorem Verdict.reply_behind (byte : UInt8) (bytes : List UInt8) (offset : Nat) (ending : Ending)
    (v : Verdict) :
    (v.behind 1).reply (.holding (byte :: bytes) offset ending) =
      v.reply (.holding bytes (offset + 1) ending) := by
  simp only [reply, behind, result, Tape.holding, Tape.ofBytes, Nat.add_comm 1 v.looked,
    List.drop_succ_cons, Nat.add_right_comm]
  rfl

/-- Reading on, up to the tenth group, is pushing the bytes on the tape.  The bound on the number of
groups is never met, since a tenth group that goes on is refused. -/
theorem varintFrom_holding (bytes : List UInt8) : ∀ (offset : Nat) (ending : Ending)
    {groups k : Nat} {acc : Accumulator}, acc.Holds k → groups + k = 9 →
      Reply.of id (Feed.varintFrom (groups + 1) acc (Tape.holding bytes offset ending)) =
        (pushed acc bytes).reply (.holding bytes offset ending) := by
  induction bytes with
  | nil =>
    intro offset ending groups k acc _ _
    cases ending <;> rfl
  | cons byte bytes ih =>
    intro offset ending groups k acc hacc hk
    have hshift := hacc.shift
    have hbyte : Feed.requireByte (Tape.holding (byte :: bytes) offset ending) =
        .ok byte (Tape.holding bytes (offset + 1) ending) :=
      bind_of_ok (Tape.nextByte_holding byte bytes offset ending) _
    rw [Feed.varintFrom, bind_of_ok hbyte, pushed, push_eq]
    by_cases hover : acc.shift = 63 ∧ 1 < byte.toNat
    · rw [if_pos hover]
      rfl
    · rcases Nat.lt_or_ge byte.toNat 128 with hb | hb
      · rw [if_neg hover, if_pos hb]
        rfl
      · rw [if_neg hover, if_neg (Nat.not_lt.mpr hb)]
        -- a tenth group that goes on does not fit, so there is one more to be read
        obtain ⟨groups, rfl⟩ : ∃ g, groups = g + 1 := ⟨groups - 1, by omega⟩
        have hk9 : groups + (k + 1) = 9 := by omega
        have hrest := ih (offset + 1) ending (hacc.more (by omega) byte) hk9
        simp only [hrest, Verdict.reply_behind]

/-- Whatever feed a varint is read off, its answer is the verdict on what is on its tape, and what was
looked at is gone. -/
theorem reply_varint {σ : Type} [Feed σ] [LawfulFeed σ] (s : σ) :
    Reply.of LawfulFeed.tape (Feed.varint s) =
      (verdict (LawfulFeed.tape s).rest).reply (LawfulFeed.tape s) := by
  obtain ⟨rest, offset, ending, htape⟩ : ∃ rest offset ending,
      LawfulFeed.tape s = .holding rest offset ending :=
    ⟨_, _, _, Tape.ext rfl rfl rfl⟩
  have hshows : seenAs LawfulFeed.tape (Feed.varint s) = Feed.varint (LawfulFeed.tape s) :=
    (Feed.shows_varintFrom LawfulFeed.nextByte_eq maxLength {}).shows s
  rw [← Reply.of_seenAs, hshows, htape, ← pushed_eq]
  exact varintFrom_holding rest offset ending Accumulator.holds_empty rfl

/-- No push shifts by more than 63, and none leaves an accumulator that would. -/
theorem shift_push {acc : Accumulator} (h : 7 ∣ acc.shift ∧ acc.shift ≤ 63) (b : UInt8) :
    7 ∣ (left (acc.push b)).shift ∧ (left (acc.push b)).shift ≤ 63 := by
  rw [push_eq]
  by_cases hover : acc.shift = 63 ∧ 1 < b.toNat
  · rwa [if_pos hover]
  · rcases Nat.lt_or_ge b.toNat 128 with hb | hb
    · rwa [if_neg hover, if_pos hb]
    · rw [if_neg hover, if_neg (Nat.not_lt.mpr hb)]
      simp only [left, Accumulator.more]
      omega

/-- However many bytes are pushed, and whatever they gave, the next group is shifted by 63 or less. -/
theorem shift_afterAll (bytes : List UInt8) : ∀ {acc : Accumulator},
    7 ∣ acc.shift ∧ acc.shift ≤ 63 →
      7 ∣ (acc.afterAll bytes).shift ∧ (acc.afterAll bytes).shift ≤ 63 := by
  induction bytes with
  | nil => exact fun h => h
  | cons b bytes ih => exact fun h => ih (shift_push h b)

/-- **The readers of varints agree.**  Taking a varint off a byte string and pushing the bytes one
by one come to the verdict on them, and reading it off a feed comes to the verdict on what is to
come there, of which just what was looked at is gone.  After any pushes at all, those behind an
integer or a fault included, the next group is shifted by 63 or less. -/
theorem readers_agree :
    (∀ bytes, decode bytes = ((verdict bytes).result .clean).map (·, (verdict bytes).looked)) ∧
    (∀ bytes, pushed {} bytes = verdict bytes) ∧
    (∀ {σ : Type} [Feed σ] [LawfulFeed σ] (s : σ), Reply.of LawfulFeed.tape (Feed.varint s) =
      (verdict (LawfulFeed.tape s).rest).reply (LawfulFeed.tape s)) ∧
    ∀ bytes, (Accumulator.afterAll bytes {}).shift ≤ 63 := by
  exact ⟨decode_eq_verdict, pushed_eq, reply_varint,
    fun bytes => (shift_afterAll bytes (by decide)).2⟩

-- the tenth group has room for one bit
example : decode (List.replicate 9 0xFF ++ [0x01]) = .ok (18446744073709551615, 10) := rfl
example : decode (List.replicate 9 0xFF ++ [0x02]) = .error .integerOverflow := rfl

end DictLog.Varint
