/-
# A damaged backlink is never accepted

A backlink says nothing that a reader does not know.  So if a byte of it is damaged, the reader
finds out, whatever the byte has become: the varint that then stands there is another number, or is
too large to be read at all (`damaged_set`).  A byte that no longer ends the varint lets it take in
the one behind it, which is not zero; a byte that now ends it makes it shorter, and varints are
written as short as they can be.

Up to the damaged record, everything is read as before (`stops_at_damage`).
-/
import DictLog.Proofs.Layout
import DictLog.Proofs.Parallel

namespace DictLog

open OnTape Step

/-! ## 1. Damaged varints -/

namespace Varint

variable {n m next i : Nat} {c : UInt8} {bytes ds rest : List UInt8}

/-- The bytes begin with the groups of another number than `n`, and there are no more of these than
`n` has, or no more than the other number needs. -/
structure Damaged (n : Nat) (bytes ds : List UInt8) (m : Nat) : Prop where
  groups : Groups ds m
  front : ds <+: bytes
  ne : m ≠ n
  length : ds.length ≤ (encode n).length ∨ m ≠ 0 ∧ ds.length = (encode m).length

/-- A number with one more group is one byte longer. -/
theorem length_encode_group {low : Nat} (hlow : low < 128) (hn : n ≠ 0) :
    (encode (low + 128 * n)).length = (encode n).length + 1 := by
  have hrest : (low + 128 * n) / 128 = n := by omega
  rw [encode_of_le (by omega), List.length_cons, hrest]

/-- A single group was damaged.  Either it is another group of a single number, or it asks for more
and takes in the varint behind it, which is not zero, so that the number is at least 128. -/
theorem damaged_of_lt (hn : n < 128) (hc : c.toNat ≠ n) (hnext : next ≠ 0) :
    ∃ ds m, Damaged n (c :: (encode next ++ rest)) ds m := by
  rcases Nat.lt_or_ge c.toNat 128 with h | h
  · exact ⟨[c], _, .last h, ⟨_, rfl⟩, hc, .inl (List.length_pos_iff.mpr (encode_ne_nil n))⟩
  · -- what follows is taken for further groups
    have hlow : c.toNat - 128 < 128 := by
      have hlt := c.toNat_lt
      omega
    exact ⟨c :: encode next, _, .more h (groups_encode next), ⟨rest, rfl⟩, by omega,
      .inr ⟨by omega, (length_encode_group hlow hnext).symm⟩⟩

/-- The first group of several was damaged: the number ends there, which is too early, or goes on as
before with another first group. -/
theorem damaged_of_le (hn : 128 ≤ n) (hc : c.toNat ≠ n % 128 + 128) :
    ∃ ds m, Damaged n (c :: (encode (n / 128) ++ rest)) ds m := by
  rcases Nat.lt_or_ge c.toNat 128 with h | h
  · exact ⟨[c], _, .last h, ⟨_, rfl⟩, by omega, .inl (List.length_pos_iff.mpr (encode_ne_nil n))⟩
  · refine ⟨c :: encode (n / 128), _, .more h (groups_encode _), ⟨rest, rfl⟩, by omega, .inl ?_⟩
    rw [encode_of_le hn]
    exact Nat.le_refl _

/-- A group behind the first was damaged.  The number is another one because its higher groups are,
and as long as before unless the last group has become one that goes on. -/
theorem Damaged.cons (h : Damaged (n / 128) bytes ds m) (hn : 128 ≤ n)
    (hc : c.toNat = n % 128 + 128) :
    Damaged n (c :: bytes) (c :: ds) (c.toNat - 128 + 128 * m) where
  groups := .more (by omega) h.groups
  front := List.cons_prefix_cons.mpr ⟨rfl, h.front⟩
  ne := by
    have hne := h.ne
    omega
  length := by
    rcases h.length with hlen | ⟨hm, hlen⟩
    · refine .inl ?_
      rw [encode_of_le hn]
      exact Nat.succ_le_succ hlen
    · refine .inr ⟨by omega, ?_⟩
      rw [length_encode_group (by omega) hm, List.length_cons, hlen]

theorem toNat_ofNat_group (n : Nat) : (UInt8.ofNat (n % 128 + 128)).toNat = n % 128 + 128 :=
  UInt8.toNat_ofNat_of_lt' (by simp only [UInt8.size]; omega)

/-- Wherever a varint in front of another is damaged, the bytes begin with another number.  The
induction is on the number, group by group, as it is written. -/
theorem damaged_set (hnext : next ≠ 0) (rest : List UInt8) :
    ∀ {i : Nat}, i < (encode n).length → (encode n)[i]? ≠ some c →
      ∃ ds m, Damaged n ((encode n).set i c ++ (encode next ++ rest)) ds m := by
  induction n using Nat.strongRecOn with
  | ind n ih =>
    intro i hi hc
    rcases Nat.lt_or_ge n 128 with h | h
    · rw [encode_of_lt h] at hi hc ⊢
      obtain rfl : i = 0 := Nat.lt_one_iff.mp hi
      refine damaged_of_lt h (fun heq => hc ?_) hnext
      rw [← heq, UInt8.ofNat_toNat]
      rfl
    · rw [encode_of_le h] at hi hc ⊢
      cases i with
      | zero =>
        refine damaged_of_le h fun heq => hc ?_
        rw [← heq, UInt8.ofNat_toNat]
        rfl
      | succ i =>
        obtain ⟨ds, m, hdamaged⟩ := ih (n / 128) (by omega) (Nat.lt_of_succ_lt_succ hi) hc
        exact ⟨_, _, hdamaged.cons h (toNat_ofNat_group n)⟩

/-- If 64 bits hold the other number, a reader gets to read it. -/
theorem Damaged.spells (h : Damaged n bytes ds m) (hn : n < UInt64.size) (hm : m < UInt64.size) :
    Spells ds m := by
  refine ⟨h.groups, ?_, hm⟩
  rcases h.length with hlen | ⟨-, hlen⟩
  · exact Nat.le_trans hlen (spells_encode hn).length_le
  · exact Nat.le_trans (Nat.le_of_eq hlen) (spells_encode hm).length_le

end Varint

/-! ## 2. Damaged records -/

open Varint

namespace TokenStream

variable {s : TokenStream Tape} {n m offset : Nat} {bytes ds : List UInt8}

/-- The fault of a record whose backlink says `m`. -/
def misled (offset last m : Nat) : Fault :=
  if m < UInt64.size then .desync offset last m else .integerOverflow

/-- A backlink that can be read, but does not lead to the last record that changed the
dictionary. -/
theorem backlink_desync (hspells : Spells ds m) (hfront : ds <+: s.feed.rest)
    (hne : s.lastDictionary + m ≠ offset) :
    ∃ s', backlink offset s = .error (.desync offset s.lastDictionary m) s' := by
  obtain ⟨rest, hrest⟩ := hfront
  obtain ⟨t, ht, -⟩ := Reads.exists_of_rest (s := s) hrest.symm
  have hv : (UInt64.ofNat m).toNat = m := UInt64.toNat_ofNat_of_lt' hspells.lt_size
  have hvarint : varint s = .ok (UInt64.ofNat m) t :=
    ((takes_varint s).ok_iff _ t).mpr ⟨ds, by rwa [hv], ht⟩
  rw [backlink, bind_of_ok hvarint, get_bind_apply, hv, (frame_of_reads ht).2, if_neg hne]
  exact ⟨t, rfl⟩

/-- A damaged backlink is another distance, or too large for one.  If it runs on into the bytes
behind it, it is the number of all its groups, and that one is too large or leads elsewhere. -/
theorem backlink_damaged (h : Damaged n s.feed.rest ds m) (hn : n < UInt64.size)
    (hlink : s.lastDictionary + n = offset) :
    ∃ s', backlink offset s = .error (misled offset s.lastDictionary m) s' := by
  rw [misled]
  by_cases hm : m < UInt64.size
  · have hne := h.ne
    rw [if_pos hm]
    exact backlink_desync (h.spells hn hm) h.front (by omega)
  · obtain ⟨rest, hrest⟩ := h.front
    rw [if_neg hm]
    obtain ⟨u, hu⟩ := varint_of_large h.groups hrest.symm (Nat.le_of_not_lt hm)
    exact ⟨_, bind_of_error (onPart_of_error hu) _⟩

/-- Where a backlink cannot be accepted, neither can the token. -/
theorem next_of_backlink {tag : Tag} (htag : tag = .add ∨ tag = .value)
    (hrest : s.feed.rest = tag.byte :: bytes) {fault : Fault}
    (h : ∀ t : TokenStream Tape, t.feed.rest = bytes → t.lastDictionary = s.lastDictionary →
      ∃ t', backlink s.offset t = .error fault t') : ∃ s', next s = .error fault s' := by
  have hsplit : (tape s).rest = [tag.byte] ++ bytes := hrest
  obtain ⟨t, hr, ht⟩ := Reads.exists_of_rest hsplit
  obtain ⟨u, hu⟩ := h t ht (frame_of_reads hr).2
  rcases htag with rfl | rfl <;> exact next_of_error hr (bind_of_error hu _)

/-- So the token is not accepted, and the fault says what was found in place of the backlink. -/
theorem next_damaged {tag : Tag} (htag : tag = .add ∨ tag = .value)
    (hrest : s.feed.rest = tag.byte :: bytes) (h : Damaged n bytes ds m) (hn : n < UInt64.size)
    (hlink : s.lastDictionary + n = s.offset) :
    ∃ s', next s = .error (misled s.offset s.lastDictionary m) s' := by
  refine next_of_backlink htag hrest fun t ht hlast => ?_
  rw [← hlast] at hlink ⊢
  exact backlink_damaged (ht.symm ▸ h) hn hlink

end TokenStream

/-- A record with a backlink names the distance to the last record that changed the dictionary,
right behind its tag. -/
theorem Grammar.Record.linked_of_kind {limits : Limits} {s : Scope} {bs : List UInt8}
    {entry : Entry} {after : List String} (h : Record limits s bs entry after)
    (hkind : entry.record.kind = .add ∨ entry.record.kind = .value) :
    ∃ backlink, entry.backlink = some backlink ∧ s.lastDictionary + backlink = s.offset ∧
      ∃ (tag : Tag) (digits more : List UInt8), (tag = .add ∨ tag = .value) ∧
        Spells digits backlink ∧ bs = tag.byte :: (digits ++ more) := by
  cases h with
  | header _ => rcases hkind with h | h <;> cases h
  | clear => rcases hkind with h | h <;> cases h
  | add spells linked _ _ => exact ⟨_, rfl, linked, .add, _, _, .inl rfl, spells, rfl⟩
  | value spells linked _ _ _ =>
    exact ⟨_, rfl, linked, .value, _, _, .inr rfl, spells, by rw [List.append_assoc]⟩

namespace Decoder

open Wire TokenStream

variable {d : Decoder Tape} {limits : Limits} {s : Grammar.Scope} {pre bytes ds : List UInt8}
  {front entries : List Entry} {fault : Fault} {backlink m : Nat} {tag : Tag}

/-- Where the token that opens a record is not accepted, the record is not. -/
theorem nextRecord_of_error (hd : d.lookahead = none) {t : TokenStream Tape}
    (h : d.tokens.next = .error fault t) (payloads : Payloads) :
    ∃ d', nextRecord payloads d = .error fault d' := by
  have hadvance : advance d = .error fault { d with tokens := t } := by
    rw [advance_of_none hd]
    exact onPart_of_error h
  exact ⟨_, bind_of_error hadvance _⟩

/-- Records are returned wherever they stand, whatever stands behind them.  So everything in front of
the damage is returned, and the decoder arrives at the record as if nothing had happened. -/
theorem arrives_behind (hrecords : Grammar.Records limits .start pre front s)
    (hheaded : Grammar.Headed front) (bytes : List UInt8) :
    ∃ d, Run.Yields (nextRecord .decoded) (ofFeed (Tape.ofBytes (pre ++ bytes)) limits) front d ∧
      Between d ∧ d.limits = limits ∧ d.scope = s ∧ (tape d).rest = bytes ∧
      (front ≠ [] → d.started = true) := by
  have hbetween := between_ofFeed (Tape.ofBytes (pre ++ bytes)) limits
  obtain ⟨d, hyields, hscope, hrest⟩ :=
    yields_complete hrecords hbetween rfl rfl (.inr hheaded) rfl
  obtain ⟨-, _, -, hadv⟩ := yields_sound hyields hbetween
  refine ⟨d, hyields, hadv.between, hadv.limits, hscope, hrest, fun hne => ?_⟩
  rw [hadv.started, List.isEmpty_eq_false_iff.mpr hne]
  rfl

/-- Records, and behind them a fault. -/
theorem fails_behind (hrecords : Grammar.Records limits .start pre front s)
    (hheaded : Grammar.Headed front) (hnext : ∀ d : Decoder Tape, Between d → d.limits = limits →
      d.scope = s → (tape d).rest = bytes → (front ≠ [] → d.started = true) →
      ∃ d', nextRecord .decoded d = .error fault d') :
    ∃ final, Run.Fails (nextRecord .decoded) (ofFeed (Tape.ofBytes (pre ++ bytes)) limits) front
      fault final := by
  obtain ⟨d, hyields, hd, hlimits, hscope, hrest, hstarted⟩ :=
    arrives_behind hrecords hheaded bytes
  obtain ⟨final, hfinal⟩ := hnext d hd hlimits hscope hrest hstarted
  exact ⟨final, d, hyields, hfinal⟩

/-- Records, and behind them one whose backlink is damaged. -/
theorem fails_of_damaged (hrecords : Grammar.Records limits .start pre front s)
    (hheaded : Grammar.Headed front) (htag : tag = .add ∨ tag = .value)
    (h : Damaged backlink bytes ds m) (hsize : backlink < UInt64.size)
    (hlink : s.lastDictionary + backlink = s.offset) :
    ∃ final, Run.Fails (nextRecord .decoded)
      (ofFeed (Tape.ofBytes (pre ++ tag.byte :: bytes)) limits) front
      (misled s.offset s.lastDictionary m) final := by
  refine fails_behind hrecords hheaded fun d hd _ hscope hrest _ => ?_
  subst hscope
  obtain ⟨t, ht⟩ := next_damaged htag hrest h hsize hlink
  exact nextRecord_of_error hd.lookahead ht .decoded

/-- Records, and behind them one that was read elsewhere, where its backlink does not lead to the
last record that changed the dictionary. -/
theorem fails_of_desync (hrecords : Grammar.Records limits .start pre front s)
    (hheaded : Grammar.Headed front) {elsewhere : Grammar.Scope} {bs more : List UInt8}
    {entry : Entry} {after : List String} (h : Grammar.Record limits elsewhere bs entry after)
    (hkind : entry.record.kind = .add ∨ entry.record.kind = .value)
    (hlink : entry.backlink = some backlink) (hne : s.lastDictionary + backlink ≠ s.offset) :
    ∃ final, Run.Fails (nextRecord .decoded) (ofFeed (Tape.ofBytes (pre ++ (bs ++ more))) limits)
      front (.desync s.offset s.lastDictionary backlink) final := by
  obtain ⟨distance, hdistance, -, tag, digits, rest, htag, hspells, rfl⟩ := h.linked_of_kind hkind
  obtain rfl : distance = backlink := Option.some.inj (hdistance.symm.trans hlink)
  refine fails_behind hrecords hheaded fun d hd _ hscope hrest _ => ?_
  subst hscope
  rw [List.cons_append, List.append_assoc] at hrest
  have hnext : ∃ t, d.tokens.next =
      .error (.desync d.tokens.offset d.tokens.lastDictionary distance) t := by
    refine next_of_backlink htag hrest fun t ht hlast => ?_
    rw [← hlast]
    exact backlink_desync hspells ⟨_, ht.symm⟩ (by rw [hlast]; exact hne)
  obtain ⟨t, ht⟩ := hnext
  exact nextRecord_of_error hd.lookahead ht .decoded

theorem drop_behind (pre : List UInt8) (byte : UInt8) (bytes : List UInt8) :
    (pre ++ byte :: bytes).drop (pre.length + 1) = bytes := by
  simp [List.drop_append]

/-- A byte behind the tag is replaced there, and nowhere else. -/
theorem set_behind (pre : List UInt8) (byte c : UInt8) {bs : List UInt8} {i : Nat}
    (hi : i < bs.length) (rest : List UInt8) :
    (pre ++ byte :: (bs ++ rest)).set (pre.length + 1 + i) c =
      pre ++ byte :: (bs.set i c ++ rest) := by
  have hplace : pre.length + 1 + i - pre.length = i + 1 := by omega
  rw [List.set_append_right _ _ (by omega), hplace, List.set_cons_succ, List.set_append_left _ _ hi]

/-- Where a record with a backlink stands in a stream that was written: behind the records in front
of it, with its backlink at its second byte. -/
structure Stands (limits : Limits) (bytes : List UInt8) (front : List Entry) (entry : Entry)
    (pre : List UInt8) (s : Grammar.Scope) (backlink : Nat) : Prop where
  records : Grammar.Records limits .start pre front s
  headed : Grammar.Headed front
  offset : entry.offset = pre.length
  scope : s.offset = pre.length
  named : entry.backlink = some backlink
  link : s.lastDictionary + backlink = s.offset
  size : backlink < UInt64.size
  written : ∃ bs rest, Linked backlink bs ∧ bytes = pre ++ (bs ++ rest)

/-- Every record with a backlink stands somewhere in its stream.  What is behind its backlink is
known as well, since the stream was written and not just accepted. -/
theorem exists_stands {entry : Entry} {behind : List Entry} (h : Drafted bytes)
    (hyields : Run.Yields (nextRecord .decoded) (ofFeed (Tape.ofBytes bytes) limits)
      (front ++ entry :: behind) d)
    (hkind : entry.record.kind = .add ∨ entry.record.kind = .value) :
    ∃ pre s backlink, Stands limits bytes front entry pre s backlink := by
  obtain ⟨u, hfront, htail⟩ := hyields.split
  cases htail with
  | cons head _ =>
    obtain ⟨hheaded, pre, hrecords, hadv⟩ := yields_sound hfront (between_ofFeed _ limits)
    obtain ⟨-, bs, after, hrecord, -, hadv'⟩ := nextRecord_sound hadv.between head
    have hbytes : bytes = pre ++ (tape u).rest := hadv.rest
    rw [hadv'.rest] at hbytes
    rw [hbytes] at h
    obtain ⟨-, hlinked⟩ := (h.of_records hrecords).of_record hrecord
    obtain ⟨backlink, hbacklink, hlink, _, _, _, -, hspells, -⟩ := hrecord.linked_of_kind hkind
    have hscope : u.scope.offset = pre.length := hrecords.offset_eq.trans (Nat.zero_add _)
    exact ⟨pre, u.scope, backlink, hrecords, hheaded.resolve_left nofun,
      hrecord.offset_eq.trans hscope, hscope, hbacklink, hlink,
      hspells.lt_size, bs, _, hlinked backlink hbacklink, hbytes⟩

/-- **Damage is found.**  Take a stream that was encoded and that a decoder accepts, any `add` or
`value` record of it, any byte of the varint of its backlink, and any other byte in its place.  The
decoder returns the records in front, and finds fault with this one: its backlink does not lead to
the last record that changed the dictionary, or is too large to be read. -/
theorem stops_at_damage (values : List Json) (options : EncodeOptions) (limits : Limits)
    (bytes : List UInt8) (hencode : encodeValues values options = .ok bytes)
    (haccepted : ((ofFeed (Tape.ofBytes bytes) limits).records .decoded).failure = none) :
    ∀ front entry behind,
      ((ofFeed (Tape.ofBytes bytes) limits).records .decoded).items = front ++ entry :: behind →
      entry.record.kind = .add ∨ entry.record.kind = .value →
      ∃ backlink, entry.backlink = some backlink ∧
        Varint.encode backlink <+: bytes.drop (entry.offset + 1) ∧
        ∀ i < (Varint.encode backlink).length, ∀ c, (Varint.encode backlink)[i]? ≠ some c →
          let damaged := bytes.set (entry.offset + 1 + i) c
          let run := (ofFeed (Tape.ofBytes damaged) limits).records .decoded
          run.items = front ∧
            ∃ ds n, Varint.Groups ds n ∧ ds <+: damaged.drop (entry.offset + 1) ∧
              run.failure = some (if n < UInt64.size
                then .desync entry.offset (entry.offset - backlink) n else .integerOverflow) := by
  intro front entry behind hitems hkind
  have hbetween := between_ofFeed (Tape.ofBytes bytes) limits
  rcases ends_or_fails_records .decoded hbetween.lookahead with
    ⟨entries, final, hends⟩ | ⟨entries, fault, final, hfails⟩
  · rw [records_of_ends hbetween.lookahead hends] at hitems
    obtain rfl : entries = front ++ entry :: behind := hitems
    obtain ⟨t, hyields, -⟩ := hends
    obtain ⟨pre, s, backlink, h⟩ := exists_stands (drafted_encodeValues hencode) hyields hkind
    obtain ⟨bs, more, hlinked, rfl⟩ := h.written
    cases hlinked with
    | @intro tag next rest htag hnext =>
      simp only [List.cons_append, List.append_assoc, h.offset]
      rw [drop_behind]
      refine ⟨backlink, h.named, List.prefix_append _ _, fun i hi c hc => ?_⟩
      rw [set_behind pre _ c hi, drop_behind]
      -- The varint behind the backlink is not zero (`Linked`), so taking it in gives another
      -- number as well.
      obtain ⟨ds, n, hdamaged⟩ := damaged_set hnext (rest ++ more) hi hc
      obtain ⟨final', hfails⟩ := fails_of_damaged h.records h.headed htag hdamaged h.size h.link
      have hlast : s.lastDictionary = pre.length - backlink := by
        have hlink := h.link
        have hscope := h.scope
        omega
      rw [records_of_fails rfl hfails, misled, h.scope, hlast]
      exact ⟨rfl, ds, n, hdamaged.groups, hdamaged.front, rfl⟩
  · rw [records_of_fails hbetween.lookahead hfails] at haccepted
    cases haccepted

/-- A null whose backlink goes on into the length of the payload. -/
theorem stops_at_damage_null :
    let bytes :=
      [0x48, 0x49, 0x01, 0x45, 0x0A, 0x43, 0x45, 0x0A, 0x56, 0x03, 0x01, 0x4E, 0x45, 0x0A]
    let run := (ofFeed (Tape.ofBytes bytes) {}).records .decoded
    let damaged := (ofFeed (Tape.ofBytes (bytes.set 9 0x83)) {}).records .decoded
    encodeValues [.null] {} = .ok bytes ∧ run.failure = none ∧
      (∃ entry, run.items = run.items.take 2 ++ entry :: [] ∧ entry.record.kind = .value) ∧
      damaged.items = run.items.take 2 ∧ ∃ n, damaged.failure =
        some (if n < UInt64.size then .desync 8 5 n else .integerOverflow) := by
  intro bytes run damaged
  have hencode : encodeValues [.null] {} = .ok bytes := by decide +kernel
  have haccepted : run.failure = none := by decide +kernel
  have hitems : run.items = run.items.take 2 ++ ⟨8, some 3, .value 1 (some .null)⟩ :: [] := by
    decide +kernel
  obtain ⟨backlink, hbacklink, -, hall⟩ :=
    stops_at_damage [.null] {} {} bytes hencode haccepted _ _ [] hitems (.inr rfl)
  cases hbacklink
  have hdigits : Varint.encode 3 = [3] := Varint.encode_of_lt (by decide)
  rw [hdigits] at hall
  obtain ⟨hfront, _, n, -, -, hfailure⟩ := hall 0 (by decide) 0x83 (by decide)
  exact ⟨hencode, haccepted, ⟨_, hitems, rfl⟩, hfront, n, hfailure⟩

end Decoder

end DictLog
