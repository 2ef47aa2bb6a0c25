/-
# What is written, record by record

What the writing side emits is records in the four forms of `Wire`, one after the other
(`drafted_encodeValues`).  Such bytes can be taken apart in one way only, whoever does it: no varint
begins another, lengths say where strings and payloads end, and no string begins like the
terminator.  So whoever accepts them has found the records that were written
(`Drafted.of_record`), and with them varints that are as short as they can be.

In a record with a backlink, a varint follows the backlink that is not zero, or a byte that could
be one (`Linked`).
-/
import DictLog.Encoder
import DictLog.Proofs.Acceptance

namespace DictLog

/-! ## 1. Records as they are written -/

namespace Wire

/-- What a record is written from. -/
inductive Draft where
  | header
  | clear
  | add (backlink : Nat) (strings : List String)
  | value (backlink : Nat) (payload : List UInt8)

/-- The bytes of a record. -/
def Draft.bytes : Draft → List UInt8
  | header => Wire.header Format.version
  | clear => Wire.clear
  | add backlink strings => Wire.add backlink strings
  | value backlink payload => Wire.value backlink payload

/-- The bytes are records as they are written, one after the other. -/
def Drafted (bytes : List UInt8) : Prop :=
  ∃ drafts : List Draft, bytes = drafts.flatMap Draft.bytes

theorem drafted_nil : Drafted [] :=
  ⟨[], rfl⟩

theorem drafted_bytes (draft : Draft) : Drafted draft.bytes :=
  ⟨[draft], (List.flatMap_singleton ..).symm⟩

theorem Drafted.append {bs cs : List UInt8} (h : Drafted bs) (k : Drafted cs) :
    Drafted (bs ++ cs) := by
  obtain ⟨drafts, rfl⟩ := h
  obtain ⟨more, rfl⟩ := k
  exact ⟨drafts ++ more, List.flatMap_append.symm⟩

section Emissions

variable {σ α : Type} {m : Emission σ} {next : σ → Emission σ} {step : α → σ → Emission σ}

/-- An emission and the next.  If the first fails, there is no next, and what it emitted stays. -/
theorem Drafted.andThen (h : Drafted m.bytes) (hnext : ∀ s, Drafted (next s).bytes) :
    Drafted (m.andThen next).bytes := by
  cases hm : m.outcome with
  | ok u =>
    rw [Emission.andThen_of_ok hm]
    exact h.append (hnext _)
  | error fault =>
    rw [Emission.andThen_of_error hm]
    exact h

/-- One emission for each of some items. -/
theorem drafted_forEach (hstep : ∀ a s, Drafted (step a s).bytes) (items : List α) :
    ∀ s, Drafted (Emission.forEach step items s).bytes := by
  induction items with
  | nil =>
    intro s
    exact drafted_nil
  | cons item items ih =>
    intro s
    rw [Emission.forEach_cons]
    exact (hstep item s).andThen ih

end Emissions

end Wire

namespace Encoder

open Wire

theorem drafted_clear (e : Encoder) : Drafted e.clear.bytes :=
  drafted_bytes .clear

/-- To start is to write a header and a `clear` record, or nothing if that was done. -/
theorem drafted_start (e : Encoder) : Drafted e.start.bytes := by
  rw [start]
  split
  · exact drafted_nil
  · exact (drafted_bytes .header).andThen drafted_clear

/-- To renew is to write a `clear` record, or nothing if the dictionary is not full. -/
theorem drafted_renew (e : Encoder) : Drafted e.renew.bytes := by
  rw [renew]
  split
  · exact drafted_clear e
  · exact drafted_nil

/-- To announce is to write one `add` record with all that is pending, or nothing. -/
theorem drafted_announce (e : Encoder) : Drafted e.announce.bytes := by
  rw [announce]
  split
  · exact drafted_bytes (.add e.backlink e.lexicon.pending)
  · exact drafted_nil

/-- A value is one record, behind what it announces.  A value that is too deep leaves no bytes. -/
theorem drafted_putValue (v : Json) (e : Encoder) : Drafted (putValue v e).bytes := by
  rw [putValue]
  split
  · exact (drafted_announce _).andThen fun e => drafted_bytes (.value e.backlink _)
  · exact drafted_nil

theorem drafted_put (v : Json) (e : Encoder) : Drafted (put v e).bytes :=
  ((drafted_start e).andThen drafted_renew).andThen (drafted_putValue v)

end Encoder

/-- What is written is records in the forms of `Wire`.  The statement forgets which, since for taking
bytes apart it does not matter. -/
theorem drafted_encodeValues {values : List Json} {options : EncodeOptions} {bytes : List UInt8}
    (h : encodeValues values options = .ok bytes) : Wire.Drafted bytes := by
  rw [encodeValues] at h
  split at h
  · cases h
    exact (Encoder.drafted_start _).andThen (Wire.drafted_forEach Encoder.drafted_put values)
  · cases h

/-! ## 2. Backlinks and what follows them -/

namespace Wire

/-- The bytes are a record with a backlink, behind which stands a varint that is not zero. -/
inductive Linked (backlink : Nat) : List UInt8 → Prop
  | intro {tag : Tag} {next : Nat} {rest : List UInt8} (htag : tag = .add ∨ tag = .value)
      (hnext : next ≠ 0) :
      Linked backlink (tag.byte :: (Varint.encode backlink ++ (Varint.encode next ++ rest)))

theorem encode_byte {tag : Tag} (h : tag = .string ∨ tag = .terminator) :
    Varint.encode tag.byte.toNat = [tag.byte] ∧ tag.byte.toNat ≠ 0 := by
  rcases h with rfl | rfl <;> exact ⟨Varint.encode_of_lt (by decide), by decide⟩

/-- Behind the backlink of an `add` record stands the tag of a string or of the terminator.  Read as
a group of a varint, neither is zero, so a backlink that runs on into it is another number. -/
theorem linked_add (backlink : Nat) (strings : List String) :
    Linked backlink (Wire.add backlink strings) := by
  have hlinked : ∀ {tag : Tag}, tag = .string ∨ tag = .terminator → ∀ rest : List UInt8,
      Linked backlink (Tag.add.byte :: (Varint.encode backlink ++ (tag.byte :: rest))) := by
    intro tag htag rest
    obtain ⟨hencode, hne⟩ := encode_byte htag
    have hbyte : tag.byte :: rest = Varint.encode tag.byte.toNat ++ rest := by
      rw [hencode]
      rfl
    rw [hbyte]
    exact .intro (.inl rfl) hne
  cases strings with
  | nil => simpa [Wire.add, Format.terminator] using hlinked (.inr rfl) [0x0A]
  | cons s strings => simpa [Wire.add, Wire.stringLiteral] using hlinked (.inl rfl) _

/-- Behind the backlink of a `value` record stands the length of its payload. -/
theorem linked_value (backlink : Nat) {payload : List UInt8} (hpayload : payload ≠ []) :
    Linked backlink (Wire.value backlink payload) := by
  have hwire : Wire.value backlink payload = Tag.value.byte :: (Varint.encode backlink ++
      (Varint.encode payload.length ++ (payload ++ Format.terminator))) := by
    simp [Wire.value]
  rw [hwire]
  exact .intro (.inr rfl) (mt List.length_eq_zero_iff.mp hpayload)

end Wire

/-! ## 3. One way to take them apart -/

namespace Grammar

variable {limits : Limits} {s t : Scope} {bs x y : List UInt8} {entry : Entry}
  {entries : List Entry} {after found strings : List String} {string : String}

/-- A string literal in front of other bytes is the one that was written.  Its length comes first,
and a varint that was written is the only one that its bytes begin with. -/
theorem StringLiteral.unique {text : String} (h : StringLiteral limits bs text)
    (heq : bs ++ x = Wire.stringLiteral string ++ y) : bs = Wire.stringLiteral string := by
  cases h with
  | @intro digits content _ spells limit decode =>
    simp only [Wire.stringLiteral, List.cons_append, List.append_assoc, List.cons.injEq,
      true_and] at heq ⊢
    obtain ⟨rfl, hlength⟩ := spells.groups.unique (Varint.groups_encode _) heq
    obtain ⟨rfl, -⟩ := List.append_inj (List.append_cancel_left heq) hlength
    rfl

/-- String literals are the ones that were written, up to the terminator.  The induction is on those
that were found; neither list can end before the other, since a literal does not begin like the
terminator. -/
theorem Sequence.unique (h : Sequence (StringLiteral limits) bs found) :
    ∀ {strings : List String},
      bs ++ (Format.terminator ++ x) =
        strings.flatMap Wire.stringLiteral ++ (Format.terminator ++ y) →
      bs = strings.flatMap Wire.stringLiteral := by
  induction h with
  | nil =>
    intro strings heq
    cases strings with
    | nil => rfl
    | cons s strings => exact absurd (List.cons.inj heq).1 (by decide)
  | @cons bs cs text texts head tail ih =>
    intro strings heq
    cases strings with
    | nil =>
      cases head
      exact absurd (List.cons.inj heq).1 (by decide)
    | cons s strings =>
      rw [List.flatMap_cons, List.append_assoc, List.append_assoc] at heq
      obtain rfl := head.unique heq
      rw [List.flatMap_cons, ih (List.append_cancel_left heq)]

/-- A record in front of others is the one that was written.  The tag says which form it is, and
every form says where it ends: by its length, by its terminator, or because a varint does. -/
theorem Record.unique {draft : Wire.Draft} (h : Record limits s bs entry after)
    (heq : bs ++ x = draft.bytes ++ y) :
    bs = draft.bytes ∧ ∀ backlink, entry.backlink = some backlink → Wire.Linked backlink bs := by
  cases h with
  | header spells =>
    -- The tag that was found is the one that was written, as the first bytes are the same.
    cases draft with
    | header =>
      refine ⟨?_, nofun⟩
      simp only [Wire.Draft.bytes, Wire.header, List.cons_append, List.append_assoc,
        List.cons.injEq, true_and] at heq ⊢
      obtain ⟨rfl, -⟩ := spells.groups.unique (Varint.groups_encode _) heq
      rfl
    | _ => exact absurd (List.cons.inj heq).1 (by decide)
  | clear =>
    cases draft with
    | clear => exact ⟨rfl, nofun⟩
    | _ => exact absurd (List.cons.inj heq).1 (by decide)
  | add spells linked literals limit =>
    cases draft with
    | add backlink strings =>
      have hdraft := Wire.linked_add backlink strings
      simp only [Wire.Draft.bytes, Wire.add, List.cons_append, List.append_assoc,
        List.cons.injEq, true_and] at heq hdraft ⊢
      obtain ⟨rfl, rfl⟩ := spells.groups.unique (Varint.groups_encode _) heq
      obtain rfl := literals.unique (List.append_cancel_left heq)
      refine ⟨rfl, ?_⟩
      rintro _ ⟨⟩
      exact hdraft
    | _ => exact absurd (List.cons.inj heq).1 (by decide)
  | value spells linked length limit denotes =>
    cases draft with
    | value backlink payload =>
      have hdraft : payload ≠ [] → _ := Wire.linked_value backlink
      simp only [Wire.Draft.bytes, Wire.value, List.cons_append, List.append_assoc,
        List.cons.injEq, true_and] at heq hdraft ⊢
      obtain ⟨rfl, rfl⟩ := spells.groups.unique (Varint.groups_encode _) heq
      have heq' := List.append_cancel_left heq
      obtain ⟨rfl, hlength⟩ := length.groups.unique (Varint.groups_encode _) heq'
      obtain ⟨rfl, -⟩ := List.append_inj (List.append_cancel_left heq') hlength
      refine ⟨rfl, ?_⟩
      rintro _ ⟨⟩
      exact hdraft denotes.opensPart.ne_nil
    | _ => exact absurd (List.cons.inj heq).1 (by decide)

end Grammar

namespace Wire.Drafted

variable {limits : Limits} {s t : Grammar.Scope} {bs rest : List UInt8} {entry : Entry}
  {entries : List Entry} {after : List String}

/-- A record in front of records that were written is one of them, and the others are behind it. -/
theorem of_record (h : Drafted (bs ++ rest)) (hrecord : Grammar.Record limits s bs entry after) :
    Drafted rest ∧ ∀ backlink, entry.backlink = some backlink → Linked backlink bs := by
  obtain ⟨drafts, hdrafts⟩ := h
  cases drafts with
  | nil => exact absurd (List.append_eq_nil_iff.mp hdrafts).1 hrecord.ne_nil
  | cons draft drafts =>
    rw [List.flatMap_cons] at hdrafts
    obtain ⟨rfl, hlinked⟩ := hrecord.unique hdrafts
    exact ⟨⟨drafts, List.append_cancel_left hdrafts⟩, hlinked⟩

/-- Behind records in front, there are the others. -/
theorem of_records (hrecords : Grammar.Records limits s bs entries t) :
    Drafted (bs ++ rest) → Drafted rest := by
  induction hrecords with
  | nil => exact id
  | cons head _ ih =>
    intro h
    rw [List.append_assoc] at h
    exact ih (h.of_record head).1

end Wire.Drafted

end DictLog
