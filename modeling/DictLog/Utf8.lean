/-
# UTF-8, with the place of the first fault

Strings travel as UTF-8.  `encode` gives a string's bytes, `decode` the string of some bytes or,
when they are no UTF-8, where the first faulty sequence begins and how long it is.  The standard
library decides *whether* bytes are valid; `firstFault` only says *where* they stop being so, by
walking the byte ranges that each lead byte calls for.

* `decode_encode` — every string is read back;
* `encode_of_decode` — what is read determines the bytes, so `decode` is injective on valid input;
* `encode_eq_flatMap` — a string is encoded character by character: a character of ASCII by itself
  (`encodeChar_of_ascii`), any other by bytes beyond ASCII (`high_of_mem_encodeChar`).
-/

namespace DictLog.Utf8

/-- Where bytes stop being UTF-8. -/
structure Fault where
  /-- The index of the first byte of the faulty sequence. -/
  validUpTo : Nat
  /-- The length of the faulty sequence; none when the bytes end inside a so far valid character. -/
  badLength : Option Nat
  deriving DecidableEq, Repr

/-- The fault in words. -/
def Fault.message : Fault → String
  | ⟨index, some n⟩ => s!"invalid utf-8 sequence of {n} bytes from index {index}"
  | ⟨index, none⟩ => s!"incomplete utf-8 byte sequence from index {index}"

/-- An inclusive range of bytes. -/
abbrev Range := UInt8 × UInt8

/-- The range of most continuation bytes. -/
def tail : Range := (0x80, 0xBF)

/-- The ranges of the bytes that must follow a lead byte; none for a byte that leads nothing. -/
def followers (lead : UInt8) : Option (List Range) :=
  if lead < 0x80 then some []
  else if lead < 0xC2 then none
  else if lead < 0xE0 then some [tail]
  else if lead = 0xE0 then some [(0xA0, 0xBF), tail]
  else if lead = 0xED then some [(0x80, 0x9F), tail]
  else if lead < 0xF0 then some [tail, tail]
  else if lead = 0xF0 then some [(0x90, 0xBF), tail, tail]
  else if lead < 0xF4 then some [tail, tail, tail]
  else if lead = 0xF4 then some [(0x80, 0x8F), tail, tail]
  else none

/-- The first fault of some bytes.  The character being read starts at `start`, `seen` bytes of
it have been read, and bytes in the ranges `due` must follow. -/
def firstFaultFrom (start seen : Nat) (due : List Range) : List UInt8 → Option Fault
  | [] => if due.isEmpty then none else some ⟨start, none⟩
  | b :: rest =>
    match due with
    | [] =>
      match followers b with
      | none => some ⟨start, some 1⟩
      | some [] => firstFaultFrom (start + 1) 0 [] rest
      | some due => firstFaultFrom start 1 due rest
    | (low, high) :: due =>
      if b < low || high < b then some ⟨start, some seen⟩
      else if due.isEmpty then firstFaultFrom (start + seen + 1) 0 [] rest
      else firstFaultFrom start (seen + 1) due rest

/-- The first fault of some bytes, if there is one. -/
def firstFault? (bytes : List UInt8) : Option Fault :=
  firstFaultFrom 0 0 [] bytes

/-- The bytes of a string. -/
def encode (s : String) : List UInt8 :=
  s.toByteArray.data.toList

/-- The string that some bytes encode, or the first fault in them. -/
def decode (bytes : List UInt8) : Except Fault String :=
  match String.fromUTF8? ⟨bytes.toArray⟩ with
  | some s => .ok s
  | none => .error ((firstFault? bytes).getD ⟨0, none⟩)

theorem decode_encode (s : String) : decode (encode s) = .ok s := by
  have bytes : (⟨s.toByteArray.data.toList.toArray⟩ : ByteArray) = s.toByteArray := by simp
  have valid : String.fromUTF8? s.toByteArray = some s := by
    rw [String.fromUTF8?, dif_pos s.isValidUTF8]
    rfl
  rw [decode, encode, bytes, valid]

/-- Bytes that are decoded are those of the string that they give, so a string has one encoding. -/
theorem encode_of_decode {bytes : List UInt8} {s : String} (h : decode bytes = .ok s) :
    encode s = bytes := by
  unfold decode String.fromUTF8? at h
  split at h
  · rename_i t ht
    split at ht
    · simp only [Option.some.injEq, Except.ok.injEq] at ht h
      subst ht h
      simp [encode, String.fromUTF8]
    · simp at ht
  · simp at h

/-- A string is encoded character by character. -/
theorem encode_eq_flatMap (s : String) : encode s = s.toList.flatMap String.utf8EncodeChar := by
  rw [encode, ← String.ofList_toList (s := s), String.toByteArray_ofList, List.utf8Encode]
  simp

theorem encode_append (s t : String) : encode (s ++ t) = encode s ++ encode t := by
  simp [encode, String.toByteArray_append]

variable {c : Char} {b : UInt8}

/-- A character of ASCII is its own byte. -/
theorem encodeChar_of_ascii (h : c.toNat ≤ 127) :
    String.utf8EncodeChar c = [UInt8.ofNat c.toNat] :=
  if_pos h

/-- The bytes of a character beyond ASCII have their highest bit set, so none of them is taken for a
character of ASCII. -/
theorem high_of_mem_encodeChar (hc : 127 < c.toNat) (hb : b ∈ String.utf8EncodeChar c) :
    127 < b.toNat := by
  have hhigh : ∀ n, 127 < n % 256 → b = UInt8.ofNat n → 127 < b.toNat := by
    rintro n hn rfl
    rwa [UInt8.toNat_ofNat']
  have hnot : ¬ c.val.toNat ≤ 127 := Nat.not_le.mpr hc
  unfold String.utf8EncodeChar at hb
  simp only [if_neg hnot] at hb
  split at hb
  · simp only [List.mem_cons, List.not_mem_nil, or_false] at hb
    rcases hb with hb | hb <;> exact hhigh _ (by omega) hb
  · split at hb <;> simp only [List.mem_cons, List.not_mem_nil, or_false] at hb
    · rcases hb with hb | hb | hb <;> exact hhigh _ (by omega) hb
    · rcases hb with hb | hb | hb | hb <;> exact hhigh _ (by omega) hb

end DictLog.Utf8
