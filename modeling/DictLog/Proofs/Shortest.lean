/-
# The shortest varint

A number has many varints, since zero groups may follow its own.  `encode` writes the one that has none
of them: as many groups as the bits of the number take, one if there are none.

`encode_shortest`: whatever follows it, that varint is read as the number it was written for; cut short
it is not read as anything; and whatever else is read as that number is longer.

What is read is `Spells` of what was taken (`decode_eq_ok_iff`), in both directions, so nothing has to
be said about accumulators here.  Groups are the digits of their number in base 128, which bounds the
number by how many there are (`Groups.lt_pow`), and as many groups of one number are the same bytes
(`Groups.eq_of_length_eq`).
-/
import DictLog.Proofs.Verdicts
import Mathlib.Algebra.Order.Floor.Div
import Mathlib.Data.Nat.Size

namespace DictLog.Varint

variable {bs cs front bytes : List UInt8} {n m : Nat} {v : UInt64}

/-! ## 1. Groups, and the bytes that go on in front of the last -/

/-- Bytes that go on and a last one are the groups of their number. -/
theorem groups_of_goOn {last : UInt8} (ends : last.toNat < 128) (more : GoOn front) :
    Groups (front ++ [last]) (number (front ++ [last])) := by
  induction front with
  | nil => simpa [number_cons, Nat.mod_eq_of_lt ends] using Groups.last ends
  | cons b front ih =>
    obtain ⟨hb, hfront⟩ := List.forall_mem_cons.mp more
    rw [List.cons_append, number_cons, bits_of_goes hb]
    exact .more hb (ih hfront)

/-- Groups are bytes that go on and a last one. -/
theorem Groups.exists_last (h : Groups bs n) : ∃ front last, bs = front ++ [last] ∧ GoOn front ∧
    last.toNat < 128 ∧ number bs = n := by
  induction h with
  | @last b hb =>
    exact ⟨[], b, rfl, by simp [GoOn], hb, by simp [number_cons, Nat.mod_eq_of_lt hb]⟩
  | @more b bs n hb rest ih =>
    obtain ⟨front, last, rfl, hfront, hlast, hnumber⟩ := ih
    exact ⟨b :: front, last, rfl, List.forall_mem_cons.mpr ⟨hb, hfront⟩, hlast,
      by rw [number_cons, bits_of_goes hb, hnumber]⟩

/-- So many groups have a number of at most so many times seven bits. -/
theorem Groups.lt_pow (h : Groups bs n) : n < 2 ^ (7 * bs.length) := by
  obtain ⟨-, -, -, -, -, rfl⟩ := h.exists_last
  have hdigits : ∀ d ∈ bs.map (·.toNat % 128), d < 128 := by
    intro d hd
    obtain ⟨b, -, rfl⟩ := List.mem_map.mp hd
    exact Nat.mod_lt _ (by decide)
  have hlt := Nat.ofDigits_lt_base_pow_length (by decide) hdigits
  rw [List.length_map] at hlt
  rw [number_eq_ofDigits, Nat.pow_mul]
  exact hlt

/-- As many groups of one number are the same bytes.  Leading zero groups are the only freedom there
is. -/
theorem Groups.eq_of_length_eq (h : Groups bs n) (k : Groups cs n) (hlen : bs.length = cs.length) :
    bs = cs := by
  generalize hm : n = m at k
  induction h generalizing cs m with
  | @last b hb =>
    cases k with
    | @last c hc => rw [UInt8.toNat_inj.mp hm]
    | more hc rest => exact absurd rest.length_pos (by simpa using hlen.symm)
  | @more b bs n hb rest ih =>
    cases k with
    | last hc => exact absurd rest.length_pos (by simpa using hlen)
    | @more c cs m hc rest' =>
      have hb' := b.toNat_lt
      have hc' := c.toNat_lt
      have hbyte : b = c := UInt8.toNat_inj.mp (by omega)
      have hnm : n = m := by omega
      rw [hbyte, ih (Nat.succ.inj hlen) m hnm rest']

/-! ## 2. What is taken spells its number -/

/-- Behind groups that go on and are few enough, a last one gives the number, and what follows is
left. -/
theorem decode_ended {rest : List UInt8} {last : UInt8} (more : GoOn front)
    (short : front.length < maxLength) (ends : last.toNat < 128) :
    decode (front ++ last :: rest) =
      if number (front ++ [last]) < UInt64.size then
        .ok (.ofNat (number (front ++ [last])), front.length + 1)
      else .error .integerOverflow := by
  rw [decode_eq_verdict, verdict_ended more short ends]
  split <;> rfl

theorem decode_of_goOn (more : GoOn bytes) (short : bytes.length < maxLength) :
    decode bytes = .error .truncated := by
  rw [decode_eq_verdict, verdict_unfinished more short]
  rfl

theorem decode_endless {rest : List UInt8} (more : GoOn front) (ten : front.length = maxLength) :
    decode (front ++ rest) = .error .integerOverflow := by
  rw [decode_eq_verdict, verdict_endless more ten]
  rfl

/-- A varint is taken off the front of some bytes exactly if what is taken spells its number.  So
`encode` has to be compared only with bytes that spell the same. -/
theorem decode_eq_ok_iff :
    decode bytes = .ok (v, n) ↔ n ≤ bytes.length ∧ Spells (bytes.take n) v.toNat := by
  constructor
  · intro h
    cases beginning bytes with
    | @ended front rest last more short ends =>
      rw [decode_ended more short ends] at h
      split at h
      · rename_i hfits
        obtain ⟨rfl, rfl⟩ := Prod.mk.inj (Except.ok.inj h)
        have htaken : (front ++ last :: rest).take (front.length + 1) = front ++ [last] := by
          simp [List.take_append]
        rw [htaken, UInt64.toNat_ofNat_of_lt' hfits]
        exact ⟨by simp, groups_of_goOn ends more, by simpa using short, hfits⟩
      · cases h
    | unfinished more short =>
      rw [decode_of_goOn more short] at h
      cases h
    | endless more ten =>
      rw [decode_endless more ten] at h
      cases h
  · rintro ⟨hn, hgroups, hlen, hlt⟩
    obtain ⟨front, last, htaken, more, ends, hnumber⟩ := hgroups.exists_last
    have hlength : n = front.length + 1 := by
      have := congrArg List.length htaken
      rwa [List.length_take_of_le hn, List.length_append, List.length_singleton] at this
    have hbytes : bytes = front ++ last :: bytes.drop n := by
      rw [← List.singleton_append, ← List.append_assoc, ← htaken, List.take_append_drop]
    rw [htaken] at hnumber hlen
    rw [hbytes, decode_ended more (by simpa using hlen) ends, hnumber, if_pos hlt,
      UInt64.ofNat_toNat, hlength]

/-! ## 3. What is written is the shortest -/

/-- As many groups as the bits take, and one at least. -/
theorem length_encode (n : Nat) : (encode n).length = max 1 (n.size ⌈/⌉ 7) := by
  have hgroups := groups_encode n
  apply le_antisymm
  · refine length_encode_le (by omega) ?_
    have hsize : n.size ≤ 7 * max 1 (n.size ⌈/⌉ 7) :=
      (ceilDiv_le_iff_le_mul (by decide)).mp (le_max_right _ _)
    simpa [Nat.shiftLeft_eq] using Nat.size_le.mp hsize
  · refine max_le hgroups.length_pos ((ceilDiv_le_iff_le_mul (by decide)).mpr ?_)
    exact Nat.size_le.mpr hgroups.lt_pow

/-- No varint of a number has fewer groups. -/
theorem length_encode_le_length (h : Groups bs n) : (encode n).length ≤ bs.length := by
  refine length_encode_le h.length_pos ?_
  simpa [Nat.shiftLeft_eq] using h.lt_pow

/-- A varint cut short goes on. -/
theorem Groups.goOn_of_prefix (h : Groups bs n) (hfront : front <+: bs) (hne : front ≠ bs) :
    GoOn front := by
  obtain ⟨init, last, rfl, hinit, -, -⟩ := h.exists_last
  rcases List.prefix_concat_iff.mp hfront with rfl | hinside
  · exact absurd rfl hne
  · exact fun b hb => hinit b (hinside.subset hb)

/-- **The shortest varint.**  `encode` writes the shortest varint of a number, and no other has its
length.  It has a group for every seven bits of the number, ten at most; whatever follows it, it is
taken and no more; where it is cut short, nothing is taken; and any bytes from which the number is
taken are longer, or begin with it. -/
theorem encode_shortest (v : UInt64) :
    (encode v.toNat).length = max 1 (v.toNat.size ⌈/⌉ 7) ∧ (encode v.toNat).length ≤ maxLength ∧
    (∀ rest, decode (encode v.toNat ++ rest) = .ok (v, (encode v.toNat).length)) ∧
    (∀ front, front <+: encode v.toNat → front ≠ encode v.toNat →
      decode front = .error .truncated) ∧
    ∀ bytes n, decode bytes = .ok (v, n) →
      (encode v.toNat).length ≤ n ∧ (n = (encode v.toNat).length → bytes.take n = encode v.toNat) := by
  have hcode : Spells (encode v.toNat) v.toNat := spells_encode v.toNat_lt
  refine ⟨length_encode _, hcode.length_le, fun rest => ?_, fun front hfront hne => ?_,
    fun bytes n h => ?_⟩
  · exact decode_eq_ok_iff.mpr ⟨by simp, by rwa [List.take_left]⟩
  · have hshort : front.length < (encode v.toNat).length :=
      lt_of_le_of_ne hfront.length_le fun hlen => hne (hfront.eq_of_length hlen)
    exact decode_of_goOn (hcode.groups.goOn_of_prefix hfront hne) (hshort.trans_le hcode.length_le)
  · obtain ⟨hn, hspells⟩ := decode_eq_ok_iff.mp h
    have htaken : (bytes.take n).length = n := List.length_take_of_le hn
    refine ⟨htaken ▸ length_encode_le_length hspells.groups, fun hlen => ?_⟩
    exact hspells.groups.eq_of_length_eq hcode.groups (htaken.trans hlen)

/-- The varint of 300 has two groups.  It is read whatever follows it, but not without its last group,
and a longer one that is read as 300, too, does not begin with it. -/
theorem encode_shortest_padded :
    encode 300 = [0xAC, 0x02] ∧ decode [0xAC, 0x02, 0x07] = .ok (300, 2) ∧
    decode [0xAC] = .error .truncated ∧
    decode [0xAC, 0x82, 0x00] = .ok (300, 3) ∧ (encode 300).length ≤ 3 := by
  have hcode : encode 300 = [0xAC, 0x02] := by
    rw [encode_of_le (by decide), encode_of_lt (by decide)]
    rfl
  obtain ⟨-, -, hread, hcut, hothers⟩ := encode_shortest 300
  have hpadded : decode [0xAC, 0x82, 0x00] = .ok (300, 3) := rfl
  have htoNat : (300 : UInt64).toNat = 300 := rfl
  rw [htoNat, hcode] at hread hcut hothers
  refine ⟨hcode, hread [0x07], hcut [0xAC] (by decide) (by decide), hpadded, ?_⟩
  rw [hcode]
  exact (hothers _ 3 hpadded).1

end DictLog.Varint
