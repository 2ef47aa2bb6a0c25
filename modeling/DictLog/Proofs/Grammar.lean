/-
# The grammar of streams

What a stream is, said without any reader or writer: which bytes are a string, a value, a record,
a stream, and what they mean.  Both sides are measured against it: the reading side accepts
exactly the streams of the grammar, and the writing side writes nothing else.

A record depends on its **scope**: the offset it stands at, the offset of the last record that changed
the dictionary, and the dictionary.  `Record limits s bytes entry dictionary` says that in the
scope `s` the bytes are a record, what a reader reports about it, and the dictionary behind it.

The grammar contains the limits that a reader enforces, so that a stream that is too deep, too
long or too rich for these limits is no stream.
-/
import DictLog.Proofs.Varint

namespace DictLog.Grammar

/-! ## 1. Sequences and strings -/

/-- Bytes that are one part after the other, each of which `P` relates to its meaning. -/
inductive Sequence {α : Type} (P : List UInt8 → α → Prop) : List UInt8 → List α → Prop
  | nil : Sequence P [] []
  | cons {bs cs : List UInt8} {a : α} {as : List α} (head : P bs a) (tail : Sequence P cs as) :
      Sequence P (bs ++ cs) (a :: as)

/-- A string in full: its length in bytes, then its bytes, which are UTF-8 and no more than the
limit allows. -/
inductive StringLiteral (limits : Limits) : List UInt8 → String → Prop
  | intro {digits content : List UInt8} {s : String}
      (length : Varint.Spells digits content.length)
      (limit : content.length ≤ limits.maxStringLength)
      (decode : Utf8.decode content = .ok s) :
      StringLiteral limits (Tag.string.byte :: (digits ++ content)) s

/-- A string in full, or a reference to a string of the dictionary. -/
inductive Text (limits : Limits) (dictionary : List String) : List UInt8 → String → Prop
  | literal {bs : List UInt8} {s : String} (h : StringLiteral limits bs s) :
      Text limits dictionary bs s
  | reference {digits : List UInt8} {index : Nat} {s : String}
      (spells : Varint.Spells digits index) (lookup : dictionary[index]? = some s) :
      Text limits dictionary (Tag.reference.byte :: digits) s

/-! ## 2. Values -/

section Values

variable (limits : Limits) (dictionary : List String)

mutual

/-- A value whose containers nest at most so deep.  The room is what is left of the depth: every
container takes one of it for its parts, and a scalar can do without. -/
inductive Value : Nat → List UInt8 → Json → Prop
  | null {room : Nat} : Value room [Tag.null.byte] .null
  | boolTrue {room : Nat} : Value room [Tag.boolTrue.byte] (.bool true)
  | boolFalse {room : Nat} : Value room [Tag.boolFalse.byte] (.bool false)
  | natural {room : Nat} {digits : List UInt8} {n : UInt64}
      (spells : Varint.Spells digits n.toNat) :
      Value room (Tag.natural.byte :: digits) (.number (.integer (.ofWord n)))
  | negative {room : Nat} {digits : List UInt8} {magnitude : Nat} {n : Integer}
      (spells : Varint.Spells digits magnitude) (opposite : n.value = -magnitude) :
      Value room (Tag.negative.byte :: digits) (.number (.integer n))
  | double {room : Nat} {content : List UInt8} {d : Double} (length : content.length = 8)
      (bits : Double.ofLittleEndian content = d.bits) :
      Value room (Tag.double.byte :: content) (.number (.double d))
  | text {room : Nat} {bs : List UInt8} {s : String} (h : Text limits dictionary bs s) :
      Value room bs (.string s)
  | array {room : Nat} {bs : List UInt8} {items : List Json} (h : Items room bs items) :
      Value (room + 1) (Tag.arrayStart.byte :: (bs ++ [Tag.arrayEnd.byte])) (.array items)
  | object {room : Nat} {bs : List UInt8} {members : List (String × Json)}
      (h : MemberList room bs members) :
      Value (room + 1) (Tag.objectStart.byte :: (bs ++ [Tag.objectEnd.byte]))
        (.object (Members.ofList members))

/-- Values one after the other. -/
inductive Items : Nat → List UInt8 → List Json → Prop
  | nil {room : Nat} : Items room [] []
  | cons {room : Nat} {bs cs : List UInt8} {v : Json} {items : List Json}
      (head : Value room bs v) (tail : Items room cs items) : Items room (bs ++ cs) (v :: items)

/-- Keys and values in turn.  A repeated key is merged only where the object ends. -/
inductive MemberList : Nat → List UInt8 → List (String × Json) → Prop
  | nil {room : Nat} : MemberList room [] []
  | cons {room : Nat} {bs cs ds : List UInt8} {k : String} {v : Json}
      {members : List (String × Json)} (key : Text limits dictionary bs k)
      (value : Value room cs v) (tail : MemberList room ds members) :
      MemberList room (bs ++ cs ++ ds) ((k, v) :: members)

end

end Values

/-! ## 3. Records -/

/-- What the meaning of a record depends on. -/
structure Scope where
  /-- The offset of the record. -/
  offset : Nat
  /-- The offset of the last record that changed the dictionary. -/
  lastDictionary : Nat
  /-- The strings added since the last `clear` record. -/
  dictionary : List String

namespace Scope

/-- The scope at the start of a stream. -/
def start : Scope where
  offset := 0
  lastDictionary := 0
  dictionary := []

/-- The scope behind a record of some bytes. -/
def after (s : Scope) (bytes : List UInt8) (entry : Entry) (dictionary : List String) : Scope where
  offset := s.offset + bytes.length
  lastDictionary :=
    match entry.record with
    | .clear => s.offset
    | .add _ => s.offset
    | _ => s.lastDictionary
  dictionary := dictionary

end Scope

/-- A record in a scope, what is reported about it, and the dictionary behind it.

A backlink says how far back the last record stands that changed the dictionary, and a record whose
backlink says anything else is no record in its scope. -/
inductive Record (limits : Limits) (s : Scope) : List UInt8 → Entry → List String → Prop
  | header {digits : List UInt8} (spells : Varint.Spells digits Format.version) :
      Record limits s (Tag.header.byte :: Tag.natural.byte :: (digits ++ Format.terminator))
        ⟨s.offset, none, .header Format.version⟩ s.dictionary
  | clear : Record limits s (Tag.clear.byte :: Format.terminator) ⟨s.offset, none, .clear⟩ []
  | add {digits bs : List UInt8} {backlink : Nat} {strings : List String}
      (spells : Varint.Spells digits backlink) (linked : s.lastDictionary + backlink = s.offset)
      (literals : Sequence (StringLiteral limits) bs strings)
      (limit : s.dictionary.length + strings.length ≤ limits.maxDictionaryEntries) :
      Record limits s (Tag.add.byte :: (digits ++ (bs ++ Format.terminator)))
        ⟨s.offset, some backlink, .add strings.length⟩ (s.dictionary ++ strings)
  | value {digits lengthDigits payload : List UInt8} {backlink : Nat} {v : Json}
      (spells : Varint.Spells digits backlink) (linked : s.lastDictionary + backlink = s.offset)
      (length : Varint.Spells lengthDigits payload.length)
      (limit : payload.length ≤ limits.maxPayloadLength)
      (denotes : Value limits s.dictionary limits.maxNestingDepth payload v) :
      Record limits s
        (Tag.value.byte :: (digits ++ lengthDigits ++ (payload ++ Format.terminator)))
        ⟨s.offset, some backlink, .value payload.length (some v)⟩ s.dictionary

/-- Records one after the other, from one scope to another. -/
inductive Records (limits : Limits) : Scope → List UInt8 → List Entry → Scope → Prop
  | nil {s : Scope} : Records limits s [] [] s
  | cons {s t : Scope} {bs cs : List UInt8} {entry : Entry} {entries : List Entry}
      {dictionary : List String} (head : Record limits s bs entry dictionary)
      (tail : Records limits (s.after bs entry dictionary) cs entries t) :
      Records limits s (bs ++ cs) (entry :: entries) t

/-- Records of which the first, if there is any, is a header.  So no bytes at all are a stream, too. -/
structure Stream (limits : Limits) (bytes : List UInt8) (entries : List Entry) (s : Scope) :
    Prop where
  records : Records limits .start bytes entries s
  headed : ∀ entry ∈ entries.head?, entry.record.kind = .header

/-! ## 4. How parts begin -/

/-- The bytes begin with a tag, and not with one that ends a container.  This is how a reader tells
whether a container goes on. -/
def OpensPart (bs : List UInt8) : Prop :=
  ∃ tag cs, bs = Tag.byte tag :: cs ∧ tag ≠ .arrayEnd ∧ tag ≠ .objectEnd

theorem OpensPart.ne_nil {bs : List UInt8} (h : OpensPart bs) : bs ≠ [] := by
  obtain ⟨_, _, rfl, -⟩ := h
  exact List.cons_ne_nil _ _

/-- A string begins with its own tag or with that of a reference. -/
theorem Text.opensPart {limits : Limits} {dictionary : List String} {bs : List UInt8} {s : String}
    (h : Text limits dictionary bs s) : OpensPart bs := by
  cases h with
  | literal h =>
    cases h
    exact ⟨.string, _, rfl, by decide, by decide⟩
  | reference _ _ => exact ⟨.reference, _, rfl, by decide, by decide⟩

/-- No value begins like the end of a container, so where the end is due no value can be meant.  This
is why one token decides whether a container goes on. -/
theorem Value.opensPart {limits : Limits} {dictionary : List String} {room : Nat}
    {bs : List UInt8} {v : Json} (h : Value limits dictionary room bs v) : OpensPart bs := by
  cases h with
  | text h => exact h.opensPart
  | null => exact ⟨.null, _, rfl, by decide, by decide⟩
  | boolTrue => exact ⟨.boolTrue, _, rfl, by decide, by decide⟩
  | boolFalse => exact ⟨.boolFalse, _, rfl, by decide, by decide⟩
  | natural _ => exact ⟨.natural, _, rfl, by decide, by decide⟩
  | negative _ _ => exact ⟨.negative, _, rfl, by decide, by decide⟩
  | double _ _ => exact ⟨.double, _, rfl, by decide, by decide⟩
  | array _ => exact ⟨.arrayStart, _, rfl, by decide, by decide⟩
  | object _ => exact ⟨.objectStart, _, rfl, by decide, by decide⟩

/-- A record takes a byte at least. -/
theorem Record.ne_nil {limits : Limits} {s : Scope} {bs : List UInt8} {entry : Entry}
    {dictionary : List String} (h : Record limits s bs entry dictionary) : bs ≠ [] := by
  cases h <;> simp

/-! ## 5. Records after records -/

/-- Records, and behind them more records from the scope that they end in. -/
theorem Records.append {limits : Limits} {s t u : Scope} {bs cs : List UInt8}
    {entries more : List Entry} (h : Records limits s bs entries t)
    (k : Records limits t cs more u) : Records limits s (bs ++ cs) (entries ++ more) u := by
  induction h with
  | nil => exact k
  | cons head _ ih =>
    rw [List.append_assoc]
    exact .cons head (ih k)

theorem Records.single {limits : Limits} {s : Scope} {bs : List UInt8} {entry : Entry}
    {dictionary : List String} (h : Record limits s bs entry dictionary) :
    Records limits s bs [entry] (s.after bs entry dictionary) := by
  have hcons := Records.cons h (@Records.nil limits _)
  rwa [List.append_nil] at hcons

end DictLog.Grammar
