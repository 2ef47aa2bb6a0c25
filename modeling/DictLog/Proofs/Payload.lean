/-
# Payloads denote their values

The bytes that are written for a value are a value of the grammar, in every dictionary that begins
with the lexicon's strings afterwards (`value_write`).  Strings that enter the dictionary while the
value is written are referred to at once, before they are announced: the references are good in
the dictionary that the announcement makes.

What the value means is the value with repeated keys merged, which is the value itself where its
objects repeat no key.
-/
import DictLog.Proofs.Grammar
import DictLog.Proofs.Lexicon

namespace DictLog

/-! ## 1. Numbers -/

namespace Double

/-- The number that some bytes are, lowest first. -/
def magnitudeOf : List UInt8 → Nat
  | [] => 0
  | b :: rest => b.toNat + 256 * magnitudeOf rest

/-- So many bytes are a number below the power of 256. -/
theorem magnitudeOf_lt : ∀ bytes : List UInt8, magnitudeOf bytes < 1 <<< (8 * bytes.length)
  | [] => Nat.one_pos
  | b :: rest => by
    have hrest := magnitudeOf_lt rest
    have hb := b.toNat_lt
    rw [Nat.shiftLeft_eq] at hrest ⊢
    rw [magnitudeOf, List.length_cons, Nat.mul_succ, Nat.pow_add]
    omega

/-- Shifting bytes together is what the number is, for eight bytes or fewer: nothing is shifted out,
and no two bytes meet in a bit. -/
theorem toNat_ofLittleEndian :
    ∀ bytes : List UInt8, bytes.length ≤ 8 → (ofLittleEndian bytes).toNat = magnitudeOf bytes
  | [], _ => rfl
  | b :: rest, hlen => by
    rw [List.length_cons] at hlen
    have hrest := toNat_ofLittleEndian rest (by omega)
    have hlt : magnitudeOf rest < 0x100000000000000 := by
      have hrest := magnitudeOf_lt rest
      rw [Nat.shiftLeft_eq, Nat.one_mul] at hrest
      exact Nat.lt_of_lt_of_le hrest (Nat.pow_le_pow_right (by decide) (show _ ≤ 56 by omega))
    have hb := b.toNat_lt
    show (ofLittleEndian rest <<< 8 ||| b.toUInt64).toNat = _
    rw [UInt64.toNat_or, UInt64.toNat_shiftLeft, UInt8.toNat_toUInt64, hrest]
    have h8 : (8 : UInt64).toNat % 64 = 8 := rfl
    rw [h8, Nat.shiftLeft_eq, Nat.mod_eq_of_lt (by omega), Nat.mul_comm]
    rw [← Nat.two_pow_add_eq_or_of_lt hb, magnitudeOf]
    omega

theorem length_littleEndian (bits : UInt64) : (littleEndian bits).length = 8 := by
  simp [littleEndian]

/-- The bytes of some bits are read back as these bits. -/
theorem ofLittleEndian_littleEndian (bits : UInt64) :
    ofLittleEndian (littleEndian bits) = bits := by
  apply UInt64.toNat_inj.mp
  rw [toNat_ofLittleEndian _ (Nat.le_of_eq (length_littleEndian bits))]
  have hbits := bits.toNat_lt
  simp [littleEndian, List.range_succ, magnitudeOf, Nat.shiftRight_eq_div_pow]
  omega

end Double

namespace Payload

variable {limits : Limits} {dictionary : List String} {room : Nat}

/-- A number is written as a value that denotes it: a double by its bits, and an integer by its
magnitude, behind a tag that tells the sign. -/
theorem value_number : ∀ n : Number,
    Grammar.Value limits dictionary room (number n) (.number n)
  | .double d =>
    .double (Double.length_littleEndian d.bits) (Double.ofLittleEndian_littleEndian d.bits)
  | .integer n => by
    have hlower := n.lower
    have hupper := n.upper
    have hspells : Varint.Spells (Varint.encode n.value.natAbs) n.value.natAbs :=
      Varint.spells_encode (by
        simp only [UInt64.size]
        omega)
    rw [number]
    -- Zero counts as natural.  Only below it is the other tag used, so each integer has one form
    -- here.
    rcases Decidable.em (0 ≤ n.value) with hsign | hsign
    · rw [if_pos hsign]
      have hword : (UInt64.ofNat n.value.natAbs).toNat = n.value.natAbs :=
        UInt64.toNat_ofNat_of_lt' hspells.lt_size
      have hn : Integer.ofWord (UInt64.ofNat n.value.natAbs) = n := by
        obtain ⟨value, _, _⟩ := n
        simp only [Integer.ofWord, Integer.mk.injEq]
        rw [hword]
        exact Int.natAbs_of_nonneg hsign
      have hdigits : Varint.Spells (Varint.encode n.value.natAbs)
          (UInt64.ofNat n.value.natAbs).toNat := by
        rw [hword]
        exact hspells
      have hvalue : Grammar.Value limits dictionary room
          (Tag.natural.byte :: Varint.encode n.value.natAbs) (.number (.integer (.ofWord _))) :=
        .natural hdigits
      rwa [hn] at hvalue
    · rw [if_neg hsign]
      exact .negative hspells (by omega)

/-! ## 2. Emissions that fit -/

/-- An emission that succeeded, that a 64-bit word can count, the strings of which are within their
limit, and after which the dictionary begins with the lexicon's strings. -/
structure Fits (limits : Limits) (dictionary texts : List String) (e : Emission Lexicon) :
    Prop where
  ok : e.outcome = .ok ()
  length : e.bytes.length < UInt64.size
  short : ∀ s ∈ texts, (Utf8.encode s).length ≤ limits.maxStringLength
  entries : e.state.entries <+: dictionary
  size : dictionary.length ≤ UInt64.size

variable {texts more : List String} {e : Emission Lexicon} {next : Lexicon → Emission Lexicon}

/-- The parts of an emission that fits fit.  What the second part may need is that the dictionary
only grows, so that the first part's references stay good. -/
theorem Fits.split (h : Fits limits dictionary (texts ++ more) (e.andThen next))
    (hgrow : e.state.entries <+: (next e.state).state.entries) :
    Fits limits dictionary texts e ∧ Fits limits dictionary more (next e.state) ∧
      (e.andThen next).bytes = e.bytes ++ (next e.state).bytes := by
  obtain ⟨hfirst, hsecond⟩ := Emission.outcome_andThen.mp h.ok
  have hlength := h.length
  have hentries := h.entries
  rw [Emission.andThen_of_ok hfirst] at hlength hentries ⊢
  rw [List.length_append] at hlength
  refine ⟨⟨hfirst, by omega, ?_, hgrow.trans hentries, h.size⟩,
    ⟨hsecond, by omega, ?_, hentries, h.size⟩, rfl⟩
  · intro s hs
    exact h.short s (List.mem_append_left _ hs)
  · intro s hs
    exact h.short s (List.mem_append_right _ hs)

/-- A tag that follows a part leaves nothing to ask for. -/
theorem Fits.close {t : Tag} (h : Fits limits dictionary texts (e.andThen (tag t))) :
    Fits limits dictionary texts e ∧ (e.andThen (tag t)).bytes = e.bytes ++ [t.byte] := by
  rw [← List.append_nil texts] at h
  obtain ⟨hfirst, -, hbytes⟩ := h.split List.prefix_rfl
  exact ⟨hfirst, hbytes⟩

/-- A tag in front of a part. -/
theorem Fits.open {t : Tag} {l : Lexicon}
    (h : Fits limits dictionary texts ((tag t l).andThen next))
    (hgrow : l.entries <+: (next l).state.entries) :
    Fits limits dictionary texts (next l) ∧
      ((tag t l).andThen next).bytes = t.byte :: (next l).bytes := by
  rw [← List.nil_append texts] at h
  obtain ⟨-, hsecond, hbytes⟩ := h.split hgrow
  exact ⟨hsecond, hbytes⟩

/-! ## 3. Values -/

/-- A string that is written in full is a literal of the grammar, if it is short enough for the
reader. -/
theorem stringLiteral_of_fits {s : String}
    (hshort : (Utf8.encode s).length ≤ limits.maxStringLength)
    (hlength : (Wire.stringLiteral s).length < UInt64.size) :
    Grammar.StringLiteral limits (Wire.stringLiteral s) s := by
  have hlen : (Wire.stringLiteral s).length =
      (Varint.encode (Utf8.encode s).length).length + (Utf8.encode s).length + 1 := by
    simp [Wire.stringLiteral]
  exact .intro (Varint.spells_encode (by omega)) hshort (Utf8.decode_encode s)

/-- A string is written as a text of the grammar, however seeing it comes out.  A reference to a
string that is only now entering the dictionary is good as well, in the dictionary that announcing
it makes. -/
theorem text_string {role : Role} {s : String} {l : Lexicon}
    (h : Fits limits dictionary [s] (string role s l)) :
    Grammar.Text limits dictionary (string role s l).bytes s := by
  have hentries := h.entries
  have hlength := h.length
  have hsize := h.size
  have hshort := h.short s (List.mem_singleton.mpr rfl)
  have hseen := Lexicon.seen_see l s role
  unfold string at hentries hlength ⊢
  revert hentries hlength hseen
  generalize l.see s role = result
  intro hentries hlength hseen
  have hreference : ∀ {index : Nat} {m : Lexicon}, m.entries <+: dictionary →
      m.entries[index]? = some s →
        Grammar.Text limits dictionary (Tag.reference.byte :: Varint.encode index) s := by
    intro index m hm hindex
    obtain ⟨rest, rfl⟩ := hm
    have hlt : index < m.entries.length := by
      rcases Nat.lt_or_ge index m.entries.length with hlt | hge
      · exact hlt
      · rw [List.getElem?_eq_none hge] at hindex
        cases hindex
    rw [List.length_append] at hsize
    refine .reference (Varint.spells_encode (by omega)) ?_
    rw [List.getElem?_append_left hlt]
    exact hindex
  -- Known, entering, or in full.
  cases hseen with
  | known hindex => exact hreference hentries hindex
  | added =>
    refine hreference hentries ?_
    show (l.dictionary.add s).toList[l.dictionary.size]? = some s
    rw [Dictionary.toList_add, ← Dictionary.length_toList]
    exact List.getElem?_concat_length
  | passed => exact .literal (stringLiteral_of_fits hshort hlength)

mutual

/-- **Payloads denote their values.**  A value that was written is a value of the grammar, and
denotes the value with repeated keys merged.  The recursion is on the value, along with that of its
items and its members; the room of the writer and the depth of the grammar go down together. -/
theorem value_write {limit : Nat} :
    ∀ (room depth : Nat) (v : Json) (l : Lexicon),
      Fits limits dictionary v.texts (write limit room v l) → v.depth ≤ depth →
        Grammar.Value limits dictionary depth (write limit room v l).bytes v.merge
  | _, _, .null, _, _, _ => .null
  | _, _, .bool true, _, _, _ => .boolTrue
  | _, _, .bool false, _, _, _ => .boolFalse
  | _, _, .number n, _, _, _ => value_number n
  | _, _, .string s, l, h, _ => .text (text_string h)
  | 0, _, .array _, _, h, _ => nomatch h.ok
  | room + 1, 0, .array _, _, _, hdepth => absurd hdepth (by simp [Json.depth])
  | room + 1, depth + 1, .array items, l, h, hdepth => by
    have hopen : Fits limits dictionary (Json.textsItems items) ((tag .arrayStart l).andThen
        fun l => (writeItems limit room items l).andThen (tag .arrayEnd)) := h
    have hgrow : l.entries <+:
        ((writeItems limit room items l).andThen (tag .arrayEnd)).state.entries :=
      entries_andThen (entries_writeItems limit room items l) fun _ => List.prefix_rfl
    obtain ⟨hinner, hbytes⟩ := hopen.open hgrow
    obtain ⟨hitems, hclose⟩ := hinner.close
    have hle : Json.depthItems items ≤ depth := by
      simp only [Json.depth] at hdepth
      omega
    rw [write, hbytes, hclose, Json.merge]
    exact .array (items_write room depth items l hitems hle)
  | 0, _, .object _, _, h, _ => nomatch h.ok
  | room + 1, 0, .object _, _, _, hdepth => absurd hdepth (by simp [Json.depth])
  | room + 1, depth + 1, .object members, l, h, hdepth => by
    have hopen : Fits limits dictionary (Json.textsMembers members) ((tag .objectStart l).andThen
        fun l => (writeMembers limit room members l).andThen (tag .objectEnd)) := h
    have hgrow : l.entries <+:
        ((writeMembers limit room members l).andThen (tag .objectEnd)).state.entries :=
      entries_andThen (entries_writeMembers limit room members l) fun _ => List.prefix_rfl
    obtain ⟨hinner, hbytes⟩ := hopen.open hgrow
    obtain ⟨hmembers, hclose⟩ := hinner.close
    have hle : Json.depthMembers members ≤ depth := by
      simp only [Json.depth] at hdepth
      omega
    rw [write, hbytes, hclose, Json.merge]
    exact .object (members_write room depth members l hmembers hle)

/-- So it is with some items, one after the other.  Each is read in the dictionary that holds the
strings of all of them, since the record announces them in front. -/
theorem items_write {limit : Nat} :
    ∀ (room depth : Nat) (items : List Json) (l : Lexicon),
      Fits limits dictionary (Json.textsItems items) (writeItems limit room items l) →
        Json.depthItems items ≤ depth →
          Grammar.Items limits dictionary depth (writeItems limit room items l).bytes
            (Json.mergeItems items)
  | _, _, [], _, _, _ => .nil
  | room, depth, v :: rest, l, h, hdepth => by
    rw [Json.depthItems] at hdepth
    obtain ⟨hv, hrest, hbytes⟩ := Fits.split h (entries_writeItems limit room rest _)
    rw [writeItems, hbytes, Json.mergeItems]
    exact .cons (value_write room depth v l hv (by omega))
      (items_write room depth rest _ hrest (by omega))

/-- So it is with some members; repeated keys are there in the bytes, and merged in what they
denote. -/
theorem members_write {limit : Nat} :
    ∀ (room depth : Nat) (members : List (String × Json)) (l : Lexicon),
      Fits limits dictionary (Json.textsMembers members) (writeMembers limit room members l) →
        Json.depthMembers members ≤ depth →
          Grammar.MemberList limits dictionary depth (writeMembers limit room members l).bytes
            (Json.mergeMembers members)
  | _, _, [], _, _, _ => .nil
  | room, depth, (k, v) :: rest, l, h, hdepth => by
    rw [Json.depthMembers] at hdepth
    have hkey : Fits limits dictionary ([k] ++ (v.texts ++ Json.textsMembers rest))
        ((string .key k l).andThen fun l =>
          (write limit room v l).andThen (writeMembers limit room rest)) := h
    have hgrow : ∀ m, m.entries <+:
        ((write limit room v m).andThen (writeMembers limit room rest)).state.entries :=
      fun m => entries_andThen (entries_write limit room v m) fun n =>
        entries_writeMembers limit room rest n
    obtain ⟨hk, htail, hbytes⟩ := hkey.split (hgrow _)
    obtain ⟨hv, hrest, hbytes'⟩ := htail.split (entries_writeMembers limit room rest _)
    rw [writeMembers, hbytes, hbytes', Json.mergeMembers, ← List.append_assoc]
    exact .cons (text_string hk) (value_write room depth v _ hv (by omega))
      (members_write room depth rest _ hrest (by omega))

end

end Payload

end DictLog
