/-
# How the strings of a value are spelled

A value holds its strings in the order in which it is written, a key in front of its value
(`Json.occurrences`), and its payload has each of them by an index or in full (`Spelling`).  `Spelt`
says which bytes a value is with its strings spelled in a given way; there is one way to find them in
the bytes (`Spelt.unique`).

A lexicon that sees one string after the other decides on the spelling of each (`Lexicon.spell`).  What
is written for a value is the value spelled like that (`spelt_write`).
-/
import DictLog.Proofs.Shape

namespace DictLog

/-! ## 1. Strings and their spellings -/

/-- A string where it stands in a value. -/
structure Occurrence where
  role : Role
  text : String
  deriving DecidableEq, Repr

/-- A string as it is written: by an index of the dictionary, or in full. -/
structure Spelling extends Occurrence where
  index : Option Nat
  deriving DecidableEq, Repr

namespace Spelling

/-- The bytes of a string that is spelled like this. -/
def bytes (s : Spelling) : List UInt8 :=
  match s.index with
  | some index => Tag.reference.byte :: Varint.encode index
  | none => Wire.stringLiteral s.text

variable {o : Occurrence} {i j : Option Nat} {x y : List UInt8}

/-- The bytes of a string say how it is spelled: the tag says whether in full or by an index, and a
varint has one reading. -/
theorem index_unique (h : bytes ⟨o, i⟩ ++ x = bytes ⟨o, j⟩ ++ y) : i = j ∧ x = y := by
  cases i with
  | none =>
    cases j with
    | none => exact ⟨rfl, List.append_cancel_left h⟩
    | some j => exact absurd (List.cons.inj h).1 (by decide)
  | some i =>
    cases j with
    | none => exact absurd (List.cons.inj h).1 (by decide)
    | some j =>
      have hdigits := (List.cons.inj h).2
      obtain ⟨-, rfl⟩ := (Varint.groups_encode i).unique (Varint.groups_encode j) hdigits
      exact ⟨rfl, List.append_cancel_left hdigits⟩

end Spelling

namespace Json

mutual

/-- The strings of a tree in the order in which they are written, a key in front of its value. -/
def occurrences : Json → List Occurrence
  | null => []
  | bool _ => []
  | number _ => []
  | string s => [⟨.value, s⟩]
  | array items => occurrencesItems items
  | object members => occurrencesMembers members

/-- `occurrences` of every item. -/
def occurrencesItems : List Json → List Occurrence
  | [] => []
  | v :: rest => occurrences v ++ occurrencesItems rest

/-- The keys, and `occurrences` of every member's value. -/
def occurrencesMembers : List (String × Json) → List Occurrence
  | [] => []
  | (k, v) :: rest => ⟨.key, k⟩ :: (occurrences v ++ occurrencesMembers rest)

end

end Json

/-! ## 2. Values with their strings spelled -/

mutual

/-- The bytes are the value, with its strings spelled like this from the first to the last. -/
inductive Spelt : Json → List Spelling → List UInt8 → Prop
  | null : Spelt .null [] [Tag.null.byte]
  | bool {b : Bool} : Spelt (.bool b) [] [(Payload.boolTag b).byte]
  | number {n : Number} : Spelt (.number n) [] (Payload.number n)
  | string {text : String} {index : Option Nat} :
      Spelt (.string text) [⟨⟨.value, text⟩, index⟩] (Spelling.bytes ⟨⟨.value, text⟩, index⟩)
  | array {items : List Json} {ss : List Spelling} {bs : List UInt8} (h : SpeltItems items ss bs) :
      Spelt (.array items) ss (Tag.arrayStart.byte :: (bs ++ [Tag.arrayEnd.byte]))
  | object {members : List (String × Json)} {ss : List Spelling} {bs : List UInt8}
      (h : SpeltMembers members ss bs) :
      Spelt (.object members) ss (Tag.objectStart.byte :: (bs ++ [Tag.objectEnd.byte]))

/-- Items one after the other. -/
inductive SpeltItems : List Json → List Spelling → List UInt8 → Prop
  | nil : SpeltItems [] [] []
  | cons {v : Json} {items : List Json} {ss more : List Spelling} {bs cs : List UInt8}
      (head : Spelt v ss bs) (tail : SpeltItems items more cs) :
      SpeltItems (v :: items) (ss ++ more) (bs ++ cs)

/-- Members one after the other, each key in front of its value. -/
inductive SpeltMembers : List (String × Json) → List Spelling → List UInt8 → Prop
  | nil : SpeltMembers [] [] []
  | cons {k : String} {index : Option Nat} {v : Json} {members : List (String × Json)}
      {ss more : List Spelling} {bs cs : List UInt8} (value : Spelt v ss bs)
      (tail : SpeltMembers members more cs) :
      SpeltMembers ((k, v) :: members) (⟨⟨.key, k⟩, index⟩ :: (ss ++ more))
        (Spelling.bytes ⟨⟨.key, k⟩, index⟩ ++ (bs ++ cs))

end

/-- Values one after the other, each with a payload of its own. -/
inductive SpeltEach : List Json → List Spelling → List (List UInt8) → Prop
  | nil : SpeltEach [] [] []
  | cons {v : Json} {values : List Json} {ss more : List Spelling} {payload : List UInt8}
      {payloads : List (List UInt8)} (head : Spelt v ss payload)
      (tail : SpeltEach values more payloads) :
      SpeltEach (v :: values) (ss ++ more) (payload :: payloads)

mutual

/-- There is one way to find the strings of a value in its bytes.

The induction is on the value as it is spelled; what stands behind it has to be found as well, since
parts stand one behind the other with nothing in between. -/
theorem Spelt.unique {v : Json} {ss ts : List Spelling} {bs cs x y : List UInt8}
    (hs : Spelt v ss bs) (ht : Spelt v ts cs) (h : bs ++ x = cs ++ y) : ss = ts ∧ x = y := by
  cases hs with
  | null | bool | number =>
    cases ht
    exact ⟨rfl, List.append_cancel_left h⟩
  | string =>
    cases ht
    obtain ⟨rfl, hrest⟩ := Spelling.index_unique h
    exact ⟨rfl, hrest⟩
  | array hs =>
    cases ht with
    | array ht =>
      rw [List.cons_append, List.cons_append, List.append_assoc, List.append_assoc] at h
      obtain ⟨rfl, hrest⟩ := hs.unique ht (List.cons.inj h).2
      exact ⟨rfl, List.append_cancel_left hrest⟩
  | object hs =>
    cases ht with
    | object ht =>
      rw [List.cons_append, List.cons_append, List.append_assoc, List.append_assoc] at h
      obtain ⟨rfl, hrest⟩ := hs.unique ht (List.cons.inj h).2
      exact ⟨rfl, List.append_cancel_left hrest⟩

/-- There is one way to find the spellings of the items of an array. -/
theorem SpeltItems.unique {items : List Json} {ss ts : List Spelling} {bs cs x y : List UInt8}
    (hs : SpeltItems items ss bs) (ht : SpeltItems items ts cs) (h : bs ++ x = cs ++ y) :
    ss = ts ∧ x = y := by
  cases hs with
  | nil =>
    cases ht
    exact ⟨rfl, h⟩
  | cons head tail =>
    cases ht with
    | cons head' tail' =>
      rw [List.append_assoc, List.append_assoc] at h
      obtain ⟨rfl, hrest⟩ := head.unique head' h
      obtain ⟨rfl, hrest⟩ := tail.unique tail' hrest
      exact ⟨rfl, hrest⟩

/-- There is one way for the members of an object, the keys of which are spelled in front of their
values. -/
theorem SpeltMembers.unique {members : List (String × Json)} {ss ts : List Spelling}
    {bs cs x y : List UInt8} (hs : SpeltMembers members ss bs) (ht : SpeltMembers members ts cs)
    (h : bs ++ x = cs ++ y) : ss = ts ∧ x = y := by
  cases hs with
  | nil =>
    cases ht
    exact ⟨rfl, h⟩
  | cons value tail =>
    cases ht with
    | cons value' tail' =>
      rw [List.append_assoc, List.append_assoc, List.append_assoc, List.append_assoc] at h
      obtain ⟨rfl, hrest⟩ := Spelling.index_unique h
      obtain ⟨rfl, hrest⟩ := value.unique value' hrest
      obtain ⟨rfl, hrest⟩ := tail.unique tail' hrest
      exact ⟨rfl, hrest⟩

end

/-- Where the payloads are known one by one, there is one way for all of them, since each is taken
apart on its own. -/
theorem SpeltEach.unique {values : List Json} {ss ts : List Spelling}
    {payloads : List (List UInt8)} (hs : SpeltEach values ss payloads)
    (ht : SpeltEach values ts payloads) : ss = ts := by
  induction hs generalizing ts with
  | nil =>
    cases ht
    rfl
  | cons head _ ih =>
    cases ht with
    | cons head' tail' =>
      obtain ⟨rfl, -⟩ := head.unique head' (rfl : _ ++ [] = _)
      rw [ih tail']

/-! ## 3. What a lexicon decides -/

namespace Lexicon

/-- The lexicon once one more string has been seen. -/
def after (l : Lexicon) (o : Occurrence) : Lexicon :=
  (l.see o.text o.role).2

/-- The lexicon once some strings have been seen, one after the other. -/
def follow (l : Lexicon) (os : List Occurrence) : Lexicon :=
  os.foldl after l

/-- How a lexicon has some strings spelled that it sees one after the other. -/
def spell (l : Lexicon) : List Occurrence → List Spelling
  | [] => []
  | o :: rest => ⟨o, (l.see o.text o.role).1⟩ :: (l.after o).spell rest

variable {l : Lexicon} {o : Occurrence} {os more : List Occurrence}

@[simp] theorem follow_nil (l : Lexicon) : l.follow [] = l := rfl

@[simp] theorem follow_cons (l : Lexicon) (o : Occurrence) (os : List Occurrence) :
    l.follow (o :: os) = (l.after o).follow os := rfl

@[simp] theorem follow_append (l : Lexicon) (os more : List Occurrence) :
    l.follow (os ++ more) = (l.follow os).follow more :=
  List.foldl_append ..

/-- Strings behind others are spelled by the lexicon that has seen those. -/
@[simp] theorem spell_append (l : Lexicon) (os more : List Occurrence) :
    l.spell (os ++ more) = l.spell os ++ (l.follow os).spell more := by
  induction os generalizing l with
  | nil => rfl
  | cons o rest ih => simp [spell, ih]

/-- The strings that are spelled are those that are seen. -/
@[simp] theorem map_spell (l : Lexicon) (os : List Occurrence) :
    (l.spell os).map Spelling.toOccurrence = os := by
  induction os generalizing l with
  | nil => rfl
  | cons o rest ih => simp [spell, ih]

/-- Each string is spelled as the lexicon decides that has seen those in front of it, whatever comes
later. -/
theorem spell_eq_append {earlier later : List Spelling} {s : Spelling}
    (h : l.spell os = earlier ++ s :: later) :
    s.index = ((l.follow (earlier.map Spelling.toOccurrence)).see s.text s.role).1 := by
  induction earlier generalizing l os with
  | nil =>
    cases os with
    | nil => cases h
    | cons o rest =>
      obtain ⟨rfl, -⟩ := List.cons.inj h
      rfl
  | cons first earlier ih =>
    cases os with
    | nil => cases h
    | cons o rest =>
      obtain ⟨rfl, hrest⟩ := List.cons.inj h
      exact ih hrest

end Lexicon

/-! ## 4. What is written is spelled -/

namespace Payload

variable {limit : Nat}

/-- A string is written as the lexicon decides. -/
theorem bytes_string (role : Role) (s : String) (l : Lexicon) :
    (string role s l).bytes = Spelling.bytes ⟨⟨role, s⟩, (l.see s role).1⟩ := by
  unfold string
  cases l.see s role with
  | mk index m => cases index <;> rfl

mutual

/-- What is written for a value is the value, its strings spelled as the lexicon decides that sees
one after the other.

The recursion is that of `write`; the state it leaves goes along with the bytes, since the next
value is spelled by it. -/
theorem spelt_write : ∀ (room : Nat) (v : Json) (l : Lexicon),
    (write limit room v l).outcome = .ok () →
      Spelt v (l.spell v.occurrences) (write limit room v l).bytes ∧
        (write limit room v l).state = l.follow v.occurrences
  | _, .null, _, _ => ⟨.null, rfl⟩
  | _, .bool _, _, _ => ⟨.bool, rfl⟩
  | _, .number _, _, _ => ⟨.number, rfl⟩
  | _, .string s, l, _ => by
    rw [write, bytes_string, state_string]
    exact ⟨.string, rfl⟩
  | 0, .array _, _, h => nomatch h
  | room + 1, .array items, l, h => by
    rw [write] at h ⊢
    obtain ⟨hitems, henclosed⟩ := enclosed (writeItems limit room items) h
    obtain ⟨hspelt, hstate⟩ := spelt_writeItems room items l hitems
    rw [henclosed]
    exact ⟨.array hspelt, hstate⟩
  | 0, .object _, _, h => nomatch h
  | room + 1, .object members, l, h => by
    rw [write] at h ⊢
    obtain ⟨hmembers, henclosed⟩ := enclosed (writeMembers limit room members) h
    obtain ⟨hspelt, hstate⟩ := spelt_writeMembers room members l hmembers
    rw [henclosed]
    exact ⟨.object hspelt, hstate⟩

/-- Items are spelled one by one, and leave the lexicon that has seen the strings of all of them. -/
theorem spelt_writeItems : ∀ (room : Nat) (items : List Json) (l : Lexicon),
    (writeItems limit room items l).outcome = .ok () →
      SpeltItems items (l.spell (Json.occurrencesItems items)) (writeItems limit room items l).bytes ∧
        (writeItems limit room items l).state = l.follow (Json.occurrencesItems items)
  | _, [], _, _ => ⟨.nil, rfl⟩
  | room, v :: rest, l, h => by
    rw [writeItems] at h ⊢
    obtain ⟨hv, hrest⟩ := Emission.outcome_andThen.mp h
    obtain ⟨hspelt, hstate⟩ := spelt_write room v l hv
    rw [Emission.andThen_of_ok hv]
    rw [hstate] at hrest ⊢
    obtain ⟨hmore, hstate'⟩ := spelt_writeItems room rest _ hrest
    simp only [Json.occurrencesItems, Lexicon.spell_append, Lexicon.follow_append]
    exact ⟨.cons hspelt hmore, hstate'⟩

/-- Members are spelled one by one, each key before its value.  This is the order in which
`occurrences` lists them. -/
theorem spelt_writeMembers : ∀ (room : Nat) (members : List (String × Json)) (l : Lexicon),
    (writeMembers limit room members l).outcome = .ok () →
      SpeltMembers members (l.spell (Json.occurrencesMembers members))
          (writeMembers limit room members l).bytes ∧
        (writeMembers limit room members l).state = l.follow (Json.occurrencesMembers members)
  | _, [], _, _ => ⟨.nil, rfl⟩
  | room, (k, v) :: rest, l, h => by
    rw [writeMembers] at h ⊢
    obtain ⟨hkey, htail⟩ := Emission.outcome_andThen.mp h
    rw [Emission.andThen_of_ok hkey, bytes_string, state_string]
    rw [state_string] at htail
    obtain ⟨hv, hrest⟩ := Emission.outcome_andThen.mp htail
    rw [Emission.andThen_of_ok hv]
    obtain ⟨hspelt, hstate⟩ := spelt_write room v _ hv
    rw [hstate] at hrest ⊢
    obtain ⟨hmore, hstate'⟩ := spelt_writeMembers room rest _ hrest
    simp only [Json.occurrencesMembers, Lexicon.spell, Lexicon.spell_append, Lexicon.follow_cons,
      Lexicon.follow_append]
    exact ⟨.cons hspelt hmore, hstate'⟩

end

end Payload

end DictLog
