/-
# Varints, as bytes say them

`Groups bytes n`: the bytes are the seven-bit groups of `n`, lowest first, with the high bit set
on all of them but the last.  Nothing is said about their number, and zero groups at the end are
allowed.  `Spells bytes n` adds what a reader requires: at most ten groups and a number that fits
64 bits.

* `takes_varint`: readers take exactly what spells the number they return, and `varint_of_large`
  says how they fail on a number that does not fit;
* `spells_encode`: what the writing side writes spells the number it was given.
-/
import DictLog.Proofs.Tape

namespace DictLog

namespace Varint

/-- The bytes are the groups of a number, the lowest first. -/
inductive Groups : List UInt8 → Nat → Prop
  | last {b : UInt8} (h : b.toNat < 128) : Groups [b] b.toNat
  | more {b : UInt8} {bs : List UInt8} {n : Nat} (h : 128 ≤ b.toNat) (rest : Groups bs n) :
      Groups (b :: bs) (b.toNat - 128 + 128 * n)

/-- The bytes are a varint of the number, minimal or not. -/
structure Spells (bytes : List UInt8) (n : Nat) : Prop where
  groups : Groups bytes n
  length_le : bytes.length ≤ maxLength
  lt_size : n < UInt64.size

/-- There is always a last group. -/
theorem Groups.length_pos {bs : List UInt8} {n : Nat} (h : Groups bs n) : 0 < bs.length := by
  cases h <;> simp

/-- No varint begins another, so bytes begin with one varint at most, and it has one number.  What
ends a varint is seen in its last byte, not in what follows. -/
theorem Groups.unique {bs cs x y : List UInt8} {n m : Nat} (h : Groups bs n) (k : Groups cs m)
    (heq : bs ++ x = cs ++ y) : bs = cs ∧ n = m := by
  induction h generalizing cs m with
  | last hb =>
    cases k with
    | last _ =>
      obtain ⟨rfl, -⟩ := List.cons.inj heq
      exact ⟨rfl, rfl⟩
    | more hc _ =>
      obtain ⟨rfl, -⟩ := List.cons.inj heq
      omega
  | more hb _ ih =>
    cases k with
    | last hc =>
      obtain ⟨rfl, -⟩ := List.cons.inj heq
      omega
    | more _ tail =>
      obtain ⟨rfl, hrest⟩ := List.cons.inj heq
      obtain ⟨rfl, rfl⟩ := ih tail hrest
      exact ⟨rfl, rfl⟩

/-! ## 1. One group more -/

theorem toNat_bits (b : UInt8) : (b &&& 0x7F).toNat = b.toNat % 128 := by
  rw [UInt8.toNat_and]
  exact Nat.and_two_pow_sub_one_eq_mod b.toNat 7

theorem bits_of_goes {b : UInt8} (h : 128 ≤ b.toNat) : b.toNat % 128 = b.toNat - 128 := by
  have hlt := b.toNat_lt
  omega

/-- The high bit is clear exactly on bytes below 128.  There are few enough bytes to look at all of
them. -/
theorem isLast_iff (b : UInt8) : (b &&& 0x80 == 0) = decide (b.toNat < 128) := by
  have all : ∀ n < 256, (UInt8.ofNat n &&& 0x80 == 0) = decide ((UInt8.ofNat n).toNat < 128) := by
    decide +kernel
  simpa using all b.toNat b.toNat_lt

/-- The value after one group more, as long as 64 bits hold it.  The group is put in with an `or`,
and since nothing of the value so far stands where the group goes, that adds it. -/
theorem toNat_value {acc : Accumulator} {bits : UInt8} (hshift : acc.shift < 64)
    (hacc : acc.value.toNat < 1 <<< acc.shift) (hfit : bits.toNat <<< acc.shift < UInt64.size) :
    (acc.value ||| bits.toUInt64 <<< UInt64.ofNat acc.shift).toNat =
      acc.value.toNat + bits.toNat <<< acc.shift := by
  have hofNat : (UInt64.ofNat acc.shift).toNat % 64 = acc.shift := by
    rw [UInt64.toNat_ofNat_of_lt' (by simp only [UInt64.size]; omega)]
    omega
  rw [UInt64.toNat_or, UInt64.toNat_shiftLeft, UInt8.toNat_toUInt64, hofNat,
    Nat.mod_eq_of_lt hfit]
  rw [Nat.shiftLeft_eq] at hacc ⊢
  rw [Nat.or_comm, Nat.mul_comm bits.toNat, ← Nat.two_pow_add_eq_or_of_lt (by omega), Nat.add_comm]

/-- The accumulator after one group that was not the last. -/
def Accumulator.more (acc : Accumulator) (b : UInt8) : Accumulator where
  value := acc.value ||| (b &&& 0x7F).toUInt64 <<< UInt64.ofNat acc.shift
  shift := acc.shift + 7

/-- What an accumulator does with one group more, in numbers: it overflows on a tenth group that has
more than one bit, ends on a byte below 128, and goes on behind any other. -/
theorem push_eq (acc : Accumulator) (b : UInt8) :
    acc.push b =
      if acc.shift = 63 ∧ 1 < b.toNat then .error .integerOverflow acc
      else if b.toNat < 128 then
        .ok (some (acc.more b).value) { acc with value := (acc.more b).value }
      else .ok none (acc.more b) := by
  have hover : (acc.shift == 63 && (decide (1 < b &&& 0x7F) || !decide (b.toNat < 128))) =
      decide (acc.shift = 63 ∧ 1 < b.toNat) := by
    rw [Bool.eq_iff_iff]
    simp only [Bool.and_eq_true, beq_iff_eq, Bool.or_eq_true, decide_eq_true_eq,
      Bool.not_eq_true', decide_eq_false_iff_not, UInt8.lt_iff_toNat_lt, toNat_bits,
      UInt8.reduceToNat]
    omega
  simp only [Accumulator.push, Accumulator.more, isLast_iff, hover, decide_eq_true_eq]

/-- An accumulator that has taken `k` groups and holds their number, which is below the place of the
next. -/
structure Accumulator.Holds (acc : Accumulator) (k : Nat) : Prop where
  shift : acc.shift = 7 * k
  value : acc.value.toNat < 1 <<< acc.shift

theorem Accumulator.holds_empty : Accumulator.Holds {} 0 :=
  ⟨rfl, by decide⟩

/-- Up to the tenth group, which has one bit, nothing is shifted out of 64 bits: adding a group in
its place is adding numbers. -/
theorem toNat_more {acc : Accumulator} {k : Nat} (hacc : acc.Holds k) (hk : k ≤ 9) {b : UInt8}
    (hover : ¬ (acc.shift = 63 ∧ 1 < b.toNat)) :
    (acc.more b).value.toNat = acc.value.toNat + (b.toNat % 128) <<< acc.shift := by
  have hfit : (b &&& 0x7F).toNat <<< acc.shift < UInt64.size := by
    rw [toNat_bits, Nat.shiftLeft_eq]
    -- Nine groups of seven bits fit whatever they are; the tenth stands at bit 63.
    rcases Nat.lt_or_ge acc.shift 57 with h | h
    · calc b.toNat % 128 * 2 ^ acc.shift
          ≤ 127 * 2 ^ 56 :=
            Nat.mul_le_mul (by omega) (Nat.pow_le_pow_right (by decide) (by omega))
        _ < UInt64.size := by decide
    · have hshift := hacc.shift
      have h63 : acc.shift = 63 := by omega
      have hbit : b.toNat % 128 ≤ 1 := by omega
      rw [h63]
      calc b.toNat % 128 * 2 ^ 63 ≤ 1 * 2 ^ 63 := Nat.mul_le_mul_right _ hbit
        _ < UInt64.size := by decide
  rw [Accumulator.more, toNat_value (by rw [hacc.shift]; omega) hacc.value hfit, toNat_bits]

/-- A group that is not the tenth leaves room for another, and what is held stays below the place of
that one. -/
theorem Accumulator.Holds.more {acc : Accumulator} {k : Nat} (hacc : acc.Holds k) (hk : k < 9)
    (b : UInt8) : (acc.more b).Holds (k + 1) where
  shift := by
    show acc.shift + 7 = 7 * (k + 1)
    rw [hacc.shift]
    omega
  value := by
    have hshift := hacc.shift
    have hvalue := hacc.value
    rw [toNat_more hacc (by omega) (by omega)]
    show _ < 1 <<< (acc.shift + 7)
    rw [Nat.shiftLeft_eq] at hvalue ⊢
    rw [Nat.shiftLeft_eq, Nat.pow_add]
    have hbits : b.toNat % 128 * 2 ^ acc.shift ≤ 127 * 2 ^ acc.shift :=
      Nat.mul_le_mul_right _ (by omega)
    omega

/-! ## 2. Readers take what spells their number -/

/-- A group and those behind it, in the place where the group stands. -/
theorem shiftLeft_groups (b n shift : Nat) :
    (b + 128 * n) <<< shift = b <<< shift + n <<< (shift + 7) := by
  have hgroup : n <<< 7 = 128 * n := by omega
  rw [Nat.add_comm shift 7, Nat.shiftLeft_add, hgroup]
  simp only [Nat.shiftLeft_eq, Nat.add_mul]

namespace Accumulator

variable {acc : Accumulator} {k : Nat} {b : UInt8} {bs : List UInt8} {v : UInt64}

/-- The bytes are the groups of what is missing from a number: put in the place that the accumulator
has come to, they make up for the rest of it. -/
def Completes (acc : Accumulator) (bs : List UInt8) (v : UInt64) : Prop :=
  ∃ n, Groups bs n ∧ v.toNat = acc.value.toNat + n <<< acc.shift

theorem not_completes_nil : ¬ acc.Completes [] v := by
  intro h
  obtain ⟨n, hn, -⟩ := h
  exact absurd hn.length_pos (Nat.lt_irrefl 0)

/-- If the tenth group does not fit, no number has these groups. -/
theorem not_completes_of_over (hover : acc.shift = 63 ∧ 1 < b.toNat) :
    ¬ acc.Completes [b] v := by
  intro h
  obtain ⟨n, hn, hv⟩ := h
  have hlt := v.toNat_lt
  rw [hover.1, Nat.shiftLeft_eq] at hv
  cases hn with
  | last _ => omega
  | more _ hrest => exact absurd hrest.length_pos (Nat.lt_irrefl 0)

/-- The last group gives the number, and nothing may stand behind it.  A tenth group has room for one
bit, and is refused if it has more. -/
theorem completes_last (hacc : acc.Holds k) (hk : k ≤ 9)
    (hover : ¬ (acc.shift = 63 ∧ 1 < b.toNat)) (hb : b.toNat < 128) :
    acc.Completes (b :: bs) v ↔ bs = [] ∧ v = (acc.more b).value := by
  have hmore := toNat_more hacc hk hover
  rw [Nat.mod_eq_of_lt hb] at hmore
  constructor
  · intro h
    obtain ⟨n, hn, hv⟩ := h
    cases hn with
    | last _ => exact ⟨rfl, UInt64.toNat_inj.mp (hv.trans hmore.symm)⟩
    | more hb' _ => omega
  · intro h
    obtain ⟨rfl, rfl⟩ := h
    exact ⟨b.toNat, .last hb, hmore⟩

/-- A group that is not the last is added in its place. -/
theorem place_more (hacc : acc.Holds k) (hk : k ≤ 9)
    (hover : ¬ (acc.shift = 63 ∧ 1 < b.toNat)) (hb : 128 ≤ b.toNat) (n : Nat) :
    (acc.more b).value.toNat + n <<< (acc.more b).shift =
      acc.value.toNat + (b.toNat - 128 + 128 * n) <<< acc.shift := by
  rw [toNat_more hacc hk hover, bits_of_goes hb, shiftLeft_groups, Nat.add_assoc]
  rfl

/-- Any other group leaves the rest to those behind it, one place further on. -/
theorem completes_more (hacc : acc.Holds k) (hk : k ≤ 9)
    (hover : ¬ (acc.shift = 63 ∧ 1 < b.toNat)) (hb : 128 ≤ b.toNat) :
    acc.Completes (b :: bs) v ↔ (acc.more b).Completes bs v := by
  have hplace := place_more hacc hk hover hb
  constructor
  · intro h
    obtain ⟨n, hn, hv⟩ := h
    cases hn with
    | last hb' => omega
    | more _ hrest => exact ⟨_, hrest, hv.trans (hplace _).symm⟩
  · intro h
    obtain ⟨n, hn, hv⟩ := h
    exact ⟨_, .more hb hn, hv.trans (hplace n)⟩

/-- If 64 bits do not hold the number, its last group does not fit: a group that fits is added
without loss, and what an accumulator holds is below 2^64. -/
theorem over_of_large (hacc : acc.Holds k) (hk : k ≤ 9) (hb : b.toNat < 128)
    (hlarge : UInt64.size ≤ acc.value.toNat + b.toNat <<< acc.shift) :
    acc.shift = 63 ∧ 1 < b.toNat := by
  refine Decidable.byContradiction fun hover => ?_
  have hmore := toNat_more hacc hk hover
  rw [Nat.mod_eq_of_lt hb] at hmore
  have hlt := (acc.more b).value.toNat_lt
  simp only [UInt64.size] at hlarge
  omega

end Accumulator

/-- Readers that have taken `k` groups take the rest, and add it in its place.  The induction is on
the groups that may still come, which with those taken are ten. -/
theorem takes_varintFrom (groups : Nat) :
    ∀ {acc : Accumulator} {k : Nat}, acc.Holds k → groups + k = maxLength → ∀ t : Tape,
      Takes (Feed.varintFrom groups acc) (fun bs v => bs.length ≤ groups ∧ acc.Completes bs v)
        t := by
  induction groups with
  | zero =>
    intro acc k _ _ t
    -- Ten groups were taken, and none of them was the last.
    refine (Takes.throw _).congr fun bs v => ?_
    simp only [false_iff]
    intro h
    obtain rfl := List.length_eq_zero_iff.mp (Nat.le_zero.mp h.1)
    exact Accumulator.not_completes_nil h.2
  | succ groups ih =>
    intro acc k hacc hlen t
    have hlen9 : groups + k = 9 := Nat.succ.inj ((Nat.succ_add groups k).symm.trans hlen)
    have hk : k ≤ 9 := by omega
    refine (Takes.bind (R := fun b ds v => ds.length ≤ groups ∧ acc.Completes (b :: ds) v)
      (takes_requireByte t) fun b t' _ _ _ => ?_).congr fun bs v => ?_
    · by_cases hover : acc.shift = 63 ∧ 1 < b.toNat
      · -- The byte overflows, and there is no number that it could have belonged to.
        rw [push_eq, if_pos hover]
        refine (Takes.throw _).congr fun ds v => ?_
        simp only [false_iff]
        intro h
        obtain ⟨hds, hcompletes⟩ := h
        have hshift := hacc.shift
        obtain rfl := List.length_eq_zero_iff.mp (show ds.length = 0 by omega)
        exact Accumulator.not_completes_of_over hover hcompletes
      · rcases Nat.lt_or_ge b.toNat 128 with hb | hb
        · rw [push_eq, if_neg hover, if_pos hb]
          refine (Takes.pure _).congr fun ds v => ?_
          rw [Accumulator.completes_last hacc hk hover hb]
          constructor
          · intro h
            obtain ⟨rfl, rfl⟩ := h
            exact ⟨Nat.zero_le _, rfl, rfl⟩
          · intro h
            exact h.2
        · rw [push_eq, if_neg hover, if_neg (by omega)]
          have hshift := hacc.shift
          have hk9 : k < 9 := by omega
          have hlen' : groups + (k + 1) = maxLength := by
            simp only [maxLength]
            omega
          refine (ih (hacc.more hk9 b) hlen' t').congr fun ds v => ?_
          rw [Accumulator.completes_more hacc hk hover hb]
    · constructor
      · intro h
        obtain ⟨b, _, ds, rfl, ⟨hds, hcompletes⟩, rfl⟩ := h
        exact ⟨by simp; omega, hcompletes⟩
      · intro h
        obtain ⟨hlen, hcompletes⟩ := h
        cases bs with
        | nil => exact absurd hcompletes Accumulator.not_completes_nil
        | cons b ds => exact ⟨b, [b], ds, rfl, ⟨Nat.le_of_succ_le_succ hlen, hcompletes⟩, rfl⟩

/-- Varints are read exactly from the bytes that spell them, minimal or not. -/
theorem takes_varint (t : Tape) : Takes Feed.varint (fun bs v => Spells bs v.toNat) t := by
  refine (takes_varintFrom maxLength Accumulator.holds_empty rfl t).congr fun bs v => ?_
  constructor
  · rintro ⟨hlen, n, hn, hv⟩
    have hvn : v.toNat = n := by simpa using hv
    exact ⟨hvn ▸ hn, hlen, v.toNat_lt⟩
  · rintro ⟨hn, hlen, -⟩
    exact ⟨hlen, v.toNat, hn, by simp⟩

/-- Readers that have taken `k` groups fail where 64 bits do not hold the number, if all groups of
the number are there. -/
theorem varintFrom_of_large (groups : Nat) :
    ∀ {acc : Accumulator} {k n : Nat} {bs rest : List UInt8} {t : Tape}, acc.Holds k →
      groups + k = maxLength → Groups bs n → t.rest = bs ++ rest →
      UInt64.size ≤ acc.value.toNat + n <<< acc.shift →
      ∃ t', Feed.varintFrom groups acc t = .error .integerOverflow t' := by
  induction groups with
  | zero =>
    intro acc k n bs rest t _ _ _ _ _
    exact ⟨t, rfl⟩
  | succ groups ih =>
    intro acc k n bs rest t hacc hlen hgroups hrest hlarge
    have hlen9 : groups + k = 9 := Nat.succ.inj ((Nat.succ_add groups k).symm.trans hlen)
    have hk : k ≤ 9 := by omega
    obtain ⟨b, ds, rfl⟩ := List.exists_cons_of_length_pos hgroups.length_pos
    have hsplit : (OnTape.tape t).rest = [b] ++ (ds ++ rest) := hrest
    obtain ⟨u, hu, hrest'⟩ := Reads.exists_of_rest hsplit
    have hbyte : Feed.requireByte t = .ok b u :=
      ((takes_requireByte t).ok_iff b u).mpr ⟨_, rfl, hu⟩
    rw [Feed.varintFrom, Step.bind_of_ok hbyte, push_eq]
    by_cases hover : acc.shift = 63 ∧ 1 < b.toNat
    · rw [if_pos hover]
      exact ⟨u, rfl⟩
    · rw [if_neg hover]
      cases hgroups with
      | last hb => exact absurd (Accumulator.over_of_large hacc hk hb hlarge) hover
      | more hb hds =>
        rw [if_neg (by omega)]
        have hshift := hacc.shift
        have hk9 : k < 9 := by omega
        have hlen' : groups + (k + 1) = maxLength := by
          simp only [maxLength]
          omega
        rw [← Accumulator.place_more hacc hk hover hb] at hlarge
        exact ih (hacc.more hk9 b) hlen' hds hrest' hlarge

/-- Readers fail where 64 bits do not hold the number, and say that it is too large and not that it
is cut off. -/
theorem varint_of_large {n : Nat} {bs rest : List UInt8} {t : Tape} (h : Groups bs n)
    (hrest : t.rest = bs ++ rest) (hlarge : UInt64.size ≤ n) :
    ∃ t', Feed.varint t = .error .integerOverflow t' :=
  varintFrom_of_large maxLength Accumulator.holds_empty rfl h hrest (by simpa using hlarge)

/-! ## 3. What is written spells the number -/

/-- What is written has the groups of the number, one for each division by 128, by induction on the
number. -/
theorem groups_encode (n : Nat) : Groups (encode n) n := by
  induction n using Nat.strongRecOn with
  | ind n ih =>
    rcases Nat.lt_or_ge n 128 with h | h
    · have hbyte : (UInt8.ofNat n).toNat = n :=
        UInt8.toNat_ofNat_of_lt' (by simp only [UInt8.size]; omega)
      have hlast : Groups [UInt8.ofNat n] (UInt8.ofNat n).toNat := .last (by omega)
      rw [hbyte] at hlast
      rwa [encode_of_lt h]
    · have hbyte : (UInt8.ofNat (n % 128 + 128)).toNat = n % 128 + 128 :=
        UInt8.toNat_ofNat_of_lt' (by simp only [UInt8.size]; omega)
      have hmore := Groups.more (b := UInt8.ofNat (n % 128 + 128)) (by omega)
        (ih (n / 128) (by omega))
      rw [hbyte, Nat.add_sub_cancel, Nat.mod_add_div] at hmore
      rwa [encode_of_le h]

/-- A number of `7 * k` bits takes at most `k` groups. -/
theorem length_encode_le {k : Nat} (hk : 0 < k) :
    ∀ {n : Nat}, n < 1 <<< (7 * k) → (encode n).length ≤ k := by
  induction k with
  | zero => omega
  | succ k ih =>
    intro n hn
    rcases Nat.lt_or_ge n 128 with h | h
    · rw [encode_of_lt h]
      simp
    · rw [encode_of_le h, List.length_cons]
      have hk0 : 0 < k := by
        rcases Nat.eq_zero_or_pos k with rfl | hk0
        · exact absurd hn (by simp; omega)
        · exact hk0
      have hdiv : n / 128 < 1 <<< (7 * k) := by
        rw [Nat.mul_succ, Nat.shiftLeft_eq, Nat.pow_add] at hn
        rw [Nat.shiftLeft_eq]
        omega
      have := ih hk0 hdiv
      omega

/-- What is written spells the number, if 64 bits hold it: then ten groups are enough. -/
theorem spells_encode {n : Nat} (h : n < UInt64.size) : Spells (encode n) n where
  groups := groups_encode n
  length_le := length_encode_le (by decide) (Nat.lt_of_lt_of_le h (by decide))
  lt_size := h

end Varint

end DictLog
