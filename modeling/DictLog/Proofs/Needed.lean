/-
# What a payload needs

While a payload is written, every string that enters the lexicon is referred to.  So a dictionary in
which the payload has a meaning holds all of them (`covers_write`): it is at least as large as the
lexicon was afterwards, if the lexicon grew at all.

The way there is to take such a meaning and what was written apart side by side.  Both begin with
the same tag, and a tag says what stands behind it (`Value.behind_of_tag`).
-/
import DictLog.Proofs.Layout
import DictLog.Proofs.Payload

namespace DictLog

/-! ## 1. Values by their first tags -/

namespace Grammar

section Values

variable {limits : Limits} {dictionary : List String} {room : Nat} {bs x y : List UInt8}
  {v : Json} {s : String}

/-- What may stand behind the first tag of a value. -/
def Behind (limits : Limits) (dictionary : List String) : Tag → List UInt8 → Prop
  | .null, cs => cs = []
  | .boolTrue, cs => cs = []
  | .boolFalse, cs => cs = []
  | .natural, cs => ∃ n, Varint.Groups cs n
  | .negative, cs => ∃ n, Varint.Groups cs n
  | .double, cs => cs.length = 8
  | .string, cs => ∃ s, Text limits dictionary (Tag.string.byte :: cs) s
  | .reference, cs => ∃ s, Text limits dictionary (Tag.reference.byte :: cs) s
  | .arrayStart, cs => ∃ room bs items,
      Items limits dictionary room bs items ∧ cs = bs ++ [Tag.arrayEnd.byte]
  | .objectStart, cs => ∃ room bs members,
      MemberList limits dictionary room bs members ∧ cs = bs ++ [Tag.objectEnd.byte]
  | _, _ => False

/-- A value is a tag and what may stand behind it.  Whoever reads the same bytes as something else
has the same tag, and so the same choice of what follows. -/
theorem Value.behind (h : Value limits dictionary room bs v) :
    ∃ tag cs, bs = Tag.byte tag :: cs ∧ Behind limits dictionary tag cs := by
  cases h with
  | null => exact ⟨.null, [], rfl, rfl⟩
  | boolTrue => exact ⟨.boolTrue, [], rfl, rfl⟩
  | boolFalse => exact ⟨.boolFalse, [], rfl, rfl⟩
  | natural spells => exact ⟨.natural, _, rfl, _, spells.groups⟩
  | negative spells _ => exact ⟨.negative, _, rfl, _, spells.groups⟩
  | double length _ => exact ⟨.double, _, rfl, length⟩
  | array h => exact ⟨.arrayStart, _, rfl, _, _, _, h, rfl⟩
  | object h => exact ⟨.objectStart, _, rfl, _, _, _, h, rfl⟩
  | text h =>
    cases h with
    | literal h =>
      cases h with
      | intro length limit decode =>
        exact ⟨.string, _, rfl, _, .literal (.intro length limit decode)⟩
    | reference spells lookup => exact ⟨.reference, _, rfl, _, .reference spells lookup⟩

/-- The first tag says what stands behind it. -/
theorem Value.behind_of_tag (tag : Tag) (h : Value limits dictionary room bs v)
    (heq : bs ++ x = tag.byte :: y) :
    ∃ cs, bs = tag.byte :: cs ∧ Behind limits dictionary tag cs ∧ cs ++ x = y := by
  obtain ⟨found, cs, rfl, hbehind⟩ := h.behind
  obtain ⟨hbyte, hrest⟩ := List.cons.inj heq
  obtain rfl := Tag.byte_injective hbyte
  exact ⟨cs, rfl, hbehind, hrest⟩

/-- A reference in front of other bytes is the one that was written, and the dictionary holds the
string. -/
theorem Text.of_reference {index : Nat} (h : Text limits dictionary bs s)
    (heq : bs ++ x = Tag.reference.byte :: Varint.encode index ++ y) :
    bs = Tag.reference.byte :: Varint.encode index ∧ index < dictionary.length := by
  cases h with
  | literal h =>
    cases h
    exact absurd (List.cons.inj heq).1 (by decide)
  | reference spells lookup =>
    obtain ⟨rfl, rfl⟩ := spells.groups.unique (Varint.groups_encode _) (List.cons.inj heq).2
    exact ⟨rfl, (List.getElem?_eq_some_iff.mp lookup).1⟩

/-- A literal in front of other bytes is the one that was written. -/
theorem Text.of_literal {string : String} (h : Text limits dictionary bs s)
    (heq : bs ++ x = Wire.stringLiteral string ++ y) : bs = Wire.stringLiteral string := by
  cases h with
  | literal h => exact h.unique heq
  | reference _ _ => exact absurd (List.cons.inj heq).1 (by decide)

/-- What opens a part is no closing tag. -/
theorem OpensPart.ne_close {closing : Tag} (h : OpensPart bs)
    (hclosing : closing = .arrayEnd ∨ closing = .objectEnd) :
    bs ++ x ≠ closing.byte :: y := by
  obtain ⟨tag, cs, rfl, harray, hobject⟩ := h
  intro heq
  obtain rfl := Tag.byte_injective (List.cons.inj heq).1
  exact hclosing.elim harray hobject

end Values

end Grammar

/-! ## 2. What a payload needs -/

namespace Payload

open Grammar

variable {limits : Limits} {dictionary : List String} {depth limit room : Nat}
  {bs cs x y : List UInt8} {u : Json} {t : String} {l : Lexicon} {e : Emission Lexicon}
  {next : Lexicon → Emission Lexicon}

/-- The bytes are those that were written, and the dictionary holds every string that entered the
lexicon meanwhile. -/
structure Covers (dictionary : List String) (l : Lexicon) (e : Emission Lexicon)
    (bs : List UInt8) : Prop where
  bytes : bs = e.bytes
  size : e.state.size ≤ max l.size dictionary.length

/-- What was written in one go and then in another.  The dictionary covers both, as sizes only grow. -/
theorem Covers.andThen (h : Covers dictionary l e bs) (hok : e.outcome = .ok ())
    (k : Covers dictionary e.state (next e.state) cs) :
    Covers dictionary l (e.andThen next) (bs ++ cs) := by
  have hsize := h.size
  have hnext := k.size
  rw [Emission.andThen_of_ok hok]
  refine ⟨by rw [h.bytes, k.bytes], ?_⟩
  show (next e.state).state.size ≤ _
  omega

/-- A string that enters the dictionary is referred to, at the place that it takes.  So the
dictionary that gives the reference a meaning reaches as far. -/
theorem covers_string {role : Role} {s : String} (h : Text limits dictionary bs t)
    (heq : bs ++ x = (string role s l).bytes ++ y) :
    Covers dictionary l (string role s l) bs := by
  have hseen := Lexicon.seen_see l s role
  unfold string at heq ⊢
  revert heq hseen
  generalize l.see s role = result
  intro heq hseen
  cases hseen with
  | known hindex => exact ⟨(h.of_reference heq).1, Nat.le_max_left ..⟩
  | added =>
    obtain ⟨hbytes, hlt⟩ := h.of_reference heq
    refine ⟨hbytes, ?_⟩
    have hsize : (l.dictionary.add s).size = l.size + 1 := by
      rw [← Dictionary.length_toList, Dictionary.toList_add, List.length_append,
        Dictionary.length_toList]
      rfl
    show (l.dictionary.add s).size ≤ _
    omega
  | passed => exact ⟨h.of_literal heq, Nat.le_max_left ..⟩

/-- A value that stands where a string was written is a text. -/
theorem text_of_string {role : Role} {s : String} (h : Value limits dictionary depth bs u)
    (heq : bs ++ x = (string role s l).bytes ++ y) : ∃ t, Text limits dictionary bs t := by
  unfold string at heq
  split at heq
  · obtain ⟨cs, rfl, htext, -⟩ := h.behind_of_tag .reference heq
    exact htext
  · obtain ⟨cs, rfl, htext, -⟩ := h.behind_of_tag .string heq
    exact htext

/-- Numbers need no string, and are told apart by their tags.  So a reader that takes a number where
one was written takes the same bytes. -/
theorem covers_number (n : Number) (h : Value limits dictionary depth bs u)
    (heq : bs ++ x = number n ++ y) : Covers dictionary l (.write (number n) l) bs := by
  refine ⟨?_, Nat.le_max_left ..⟩
  show bs = number n
  cases n with
  | double d =>
    obtain ⟨cs, rfl, hlength, hcs⟩ := h.behind_of_tag _ heq
    obtain ⟨rfl, -⟩ := List.append_inj hcs (hlength.trans (Double.length_littleEndian _).symm)
    rfl
  -- The tag says the sign, and what stands behind it is one varint.
  | integer n =>
    rw [number] at heq ⊢
    split at heq <;> rename_i hsign
    · obtain ⟨cs, rfl, ⟨_, hgroups⟩, hcs⟩ := h.behind_of_tag _ heq
      obtain ⟨rfl, -⟩ := hgroups.unique (Varint.groups_encode _) hcs
      rw [if_pos hsign]
    · obtain ⟨cs, rfl, ⟨_, hgroups⟩, hcs⟩ := h.behind_of_tag _ heq
      obtain ⟨rfl, -⟩ := hgroups.unique (Varint.groups_encode _) hcs
      rw [if_neg hsign]

/-- A container that could be written is what is inside, between its tags. -/
theorem enclosed {opening closing : Tag} (next : Lexicon → Emission Lexicon)
    (h : ((tag opening l).andThen fun l => (next l).andThen (tag closing)).outcome = .ok ()) :
    (next l).outcome = .ok () ∧
      ((tag opening l).andThen fun l => (next l).andThen (tag closing)) =
        ⟨opening.byte :: ((next l).bytes ++ [closing.byte]), (next l).state, .ok ()⟩ := by
  have hok : (next l).outcome = .ok () :=
    (Emission.outcome_andThen.mp (Emission.outcome_andThen.mp h).2).1
  refine ⟨hok, ?_⟩
  rw [tag, Emission.write_andThen, Emission.andThen_of_ok hok]
  rfl

/-- A string begins with one of two tags, and neither closes anything. -/
theorem opensPart_string (role : Role) (s : String) (l : Lexicon) :
    OpensPart (string role s l).bytes := by
  unfold string
  split
  · exact ⟨.reference, _, rfl, by decide, by decide⟩
  · exact ⟨.string, _, rfl, by decide, by decide⟩

/-- A value that could be written begins with a tag that closes nothing, so it is not mistaken for
the end of the container it stands in. -/
theorem opensPart_write {v : Json} (hok : (write limit room v l).outcome = .ok ()) :
    OpensPart (write limit room v l).bytes := by
  cases v with
  | null => exact ⟨.null, _, rfl, by decide, by decide⟩
  | bool b => cases b <;> exact ⟨_, _, rfl, by decide, by decide⟩
  | number n =>
    cases n with
    | double d => exact ⟨.double, _, rfl, by decide, by decide⟩
    | integer n =>
      show OpensPart (number (.integer n))
      rw [number]
      split
      · exact ⟨.natural, _, rfl, by decide, by decide⟩
      · exact ⟨.negative, _, rfl, by decide, by decide⟩
  | string s => exact opensPart_string .value s l
  | array items =>
    cases room with
    | zero => cases hok
    | succ room => exact ⟨.arrayStart, _, congrArg Emission.bytes (enclosed _ hok).2,
        by decide, by decide⟩
  | object members =>
    cases room with
    | zero => cases hok
    | succ room => exact ⟨.objectStart, _, congrArg Emission.bytes (enclosed _ hok).2,
        by decide, by decide⟩

mutual

/-- Bytes that a value begins with, and that stand where a value was written, are those that were
written, and the dictionary holds what they need.  The recursion is on the value that was written;
the grammar's value is taken apart along with it, by its first tag. -/
theorem covers_write : ∀ (room : Nat) (v : Json) (l : Lexicon) {depth : Nat}
    {bs x y : List UInt8} {u : Json}, (write limit room v l).outcome = .ok () →
      Value limits dictionary depth bs u → bs ++ x = (write limit room v l).bytes ++ y →
        Covers dictionary l (write limit room v l) bs
  | _, .null, l, _, _, _, _, _, _, h, heq => by
    obtain ⟨cs, rfl, rfl, -⟩ := h.behind_of_tag .null heq
    exact ⟨rfl, Nat.le_max_left ..⟩
  | _, .bool true, l, _, _, _, _, _, _, h, heq => by
    obtain ⟨cs, rfl, rfl, -⟩ := h.behind_of_tag .boolTrue heq
    exact ⟨rfl, Nat.le_max_left ..⟩
  | _, .bool false, l, _, _, _, _, _, _, h, heq => by
    obtain ⟨cs, rfl, rfl, -⟩ := h.behind_of_tag .boolFalse heq
    exact ⟨rfl, Nat.le_max_left ..⟩
  | _, .number n, _, _, _, _, _, _, _, h, heq => covers_number n h heq
  | _, .string s, l, _, _, _, _, _, _, h, heq => by
    obtain ⟨t, htext⟩ := text_of_string h heq
    exact covers_string htext heq
  | 0, .array _, _, _, _, _, _, _, hok, _, _ => nomatch hok
  | room + 1, .array items, l, _, _, _, _, _, hok, h, heq => by
    obtain ⟨hinner, hall⟩ := enclosed (writeItems limit room items) hok
    rw [write, hall] at heq ⊢
    obtain ⟨cs, rfl, ⟨_, bs, _, hitems, rfl⟩, hcs⟩ := h.behind_of_tag .arrayStart heq
    obtain ⟨rfl, hsize⟩ := covers_writeItems room items l hinner hitems (by simpa using hcs)
    exact ⟨rfl, hsize⟩
  | 0, .object _, _, _, _, _, _, _, hok, _, _ => nomatch hok
  | room + 1, .object members, l, _, _, _, _, _, hok, h, heq => by
    obtain ⟨hinner, hall⟩ := enclosed (writeMembers limit room members) hok
    rw [write, hall] at heq ⊢
    obtain ⟨cs, rfl, ⟨_, bs, _, hmembers, rfl⟩, hcs⟩ := h.behind_of_tag .objectStart heq
    obtain ⟨rfl, hsize⟩ := covers_writeMembers room members l hinner hmembers (by simpa using hcs)
    exact ⟨rfl, hsize⟩

/-- Items end at the same place: whoever stops earlier meets the closing tag where a value begins.
And the dictionary has to have every string that entered the lexicon for one of them. -/
theorem covers_writeItems : ∀ (room : Nat) (items : List Json) (l : Lexicon) {depth : Nat}
    {bs x y : List UInt8} {us : List Json}, (writeItems limit room items l).outcome = .ok () →
      Items limits dictionary depth bs us →
      bs ++ (Tag.arrayEnd.byte :: x) =
        (writeItems limit room items l).bytes ++ (Tag.arrayEnd.byte :: y) →
        Covers dictionary l (writeItems limit room items l) bs
  | _, [], l, _, _, _, _, _, _, h, heq => by
    cases h with
    | nil => exact ⟨rfl, Nat.le_max_left ..⟩
    | cons head _ =>
      rw [List.append_assoc] at heq
      exact absurd heq (head.opensPart.ne_close (.inl rfl))
  | room, v :: rest, l, _, _, _, _, _, hok, h, heq => by
    rw [writeItems] at hok heq ⊢
    obtain ⟨hhead, hrest⟩ := Emission.outcome_andThen.mp hok
    rw [Emission.andThen_of_ok hhead, List.append_assoc] at heq
    cases h with
    | nil => exact absurd heq.symm ((opensPart_write hhead).ne_close (.inl rfl))
    | cons head tail =>
      rw [List.append_assoc] at heq
      have hcovers := covers_write room v l hhead head heq
      rw [hcovers.bytes] at heq
      exact hcovers.andThen hhead
        (covers_writeItems room rest _ hrest tail (List.append_cancel_left heq))

/-- So do members, each of which begins with its key.  A key is a string, in full or by its index,
and so begins like no closing tag either. -/
theorem covers_writeMembers : ∀ (room : Nat) (members : List (String × Json)) (l : Lexicon)
    {depth : Nat} {bs x y : List UInt8} {us : List (String × Json)},
      (writeMembers limit room members l).outcome = .ok () →
      MemberList limits dictionary depth bs us →
      bs ++ (Tag.objectEnd.byte :: x) =
        (writeMembers limit room members l).bytes ++ (Tag.objectEnd.byte :: y) →
        Covers dictionary l (writeMembers limit room members l) bs
  | _, [], l, _, _, _, _, _, _, h, heq => by
    cases h with
    | nil => exact ⟨rfl, Nat.le_max_left ..⟩
    | cons key _ _ =>
      rw [List.append_assoc, List.append_assoc] at heq
      exact absurd heq (key.opensPart.ne_close (.inr rfl))
  | room, (k, v) :: rest, l, _, _, _, _, _, hok, h, heq => by
    rw [writeMembers] at hok heq ⊢
    obtain ⟨hkey, hmore⟩ := Emission.outcome_andThen.mp hok
    obtain ⟨hvalue, hrest⟩ := Emission.outcome_andThen.mp hmore
    rw [Emission.andThen_of_ok hkey, Emission.andThen_of_ok hvalue, List.append_assoc,
      List.append_assoc] at heq
    cases h with
    | nil => exact absurd heq.symm ((opensPart_string .key k l).ne_close (.inr rfl))
    | cons key value tail =>
      rw [List.append_assoc, List.append_assoc] at heq
      have hfirst := covers_string key heq
      rw [hfirst.bytes] at heq
      have heq' := List.append_cancel_left heq
      have hsecond := covers_write room v _ hvalue value heq'
      rw [hsecond.bytes] at heq'
      have hthird := covers_writeMembers room rest _ hrest tail (List.append_cancel_left heq')
      rw [List.append_assoc]
      exact hfirst.andThen hkey (hsecond.andThen hvalue hthird)

end

end Payload

end DictLog
