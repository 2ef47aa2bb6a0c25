/-
# What happens to a lexicon while a value is written

Writing a value changes the lexicon in one way only, by seeing strings, and each of them is a key
or a string of the value (`related_write`).  Seeing a string (`see_cases`) finds it in the dictionary,
adds it at the end, or leaves the dictionary alone.  So the dictionary only grows at its end
(`entries_write`), by strings of the value (`forall_entries_write`), and what has been announced
stays announced (`announced_write`), whether or not the value turns out to be too deep.
-/
import DictLog.Payload

namespace DictLog

/-! ## 1. The strings of a value -/

namespace Json

mutual

/-- All strings and all keys in a tree. -/
def texts : Json → List String
  | null => []
  | bool _ => []
  | number _ => []
  | string s => [s]
  | array items => textsItems items
  | object members => textsMembers members

/-- `texts` of every item. -/
def textsItems : List Json → List String
  | [] => []
  | v :: rest => texts v ++ textsItems rest

/-- The keys, and `texts` of every member's value. -/
def textsMembers : List (String × Json) → List String
  | [] => []
  | (k, v) :: rest => k :: (texts v ++ textsMembers rest)

end

end Json

/-! ## 2. Seeing one string -/

namespace Lexicon

/-- What seeing a string comes to. -/
inductive Seen (l : Lexicon) (s : String) : Option Nat × Lexicon → Prop
  | known {index : Nat} (h : l.entries[index]? = some s) : Seen l s (some index, l)
  | added {sightings : Sightings} :
      Seen l s (some l.size, { l with dictionary := l.dictionary.add s, sightings })
  | passed {sightings : Sightings} : Seen l s (none, { l with sightings })

/-- A string that was looked up stands where it was found. -/
theorem getElem?_of_lookup {l : Lexicon} {s : String} {index : Nat} (h : l.lookup s = some index) :
    l.entries[index]? = some s := by
  unfold lookup Dictionary.indexOf? at h
  rw [List.idxOf?, List.findIdx?_eq_some_iff_getElem] at h
  obtain ⟨hlt, heq, -⟩ := h
  rw [entries, List.getElem?_eq_getElem hlt, eq_of_beq heq]

/-- **What seeing a string comes to.**  It is in the dictionary, and nothing changes; or it enters
the dictionary; or it is written in full.  Whether it enters is for the role and the counts to say
(`judge`), and is asked only if it is not known. -/
theorem see_cases (l : Lexicon) (s : String) (role : Role) :
    (∃ i, l.lookup s = some i ∧ l.see s role = (some i, l)) ∨
      (l.lookup s = none ∧ (l.judge s role).1 = true ∧ l.see s role = (some l.size, { l with
        dictionary := l.dictionary.add s
        sightings := (l.judge s role).2 })) ∨
      (l.lookup s = none ∧ (l.judge s role).1 = false ∧
        l.see s role = (none, { l with sightings := (l.judge s role).2 })) := by
  unfold see
  cases hlookup : l.lookup s with
  | some i => exact .inl ⟨i, rfl, rfl⟩
  | none =>
    cases hadmitted : (l.judge s role).1 with
    | true => exact .inr (.inl ⟨rfl, rfl, by simp [hadmitted]⟩)
    | false => exact .inr (.inr ⟨rfl, rfl, by simp [hadmitted]⟩)

/-- What seeing a string comes to, with no regard to why. -/
theorem seen_see (l : Lexicon) (s : String) (role : Role) : Seen l s (l.see s role) := by
  rcases see_cases l s role with ⟨i, hlookup, hsee⟩ | ⟨-, -, hsee⟩ | ⟨-, -, hsee⟩
  · rw [hsee]
    exact .known (getElem?_of_lookup hlookup)
  · rw [hsee]
    exact .added
  · rw [hsee]
    exact .passed

variable {l m : Lexicon} {s : String} {role : Role}

/-- Seeing a string keeps those that are there, at their indices.  References that have been written
go on to mean what they meant. -/
theorem entries_see (l : Lexicon) (s : String) (role : Role) :
    l.entries <+: (l.see s role).2.entries := by
  have hseen := seen_see l s role
  revert hseen
  generalize l.see s role = result
  intro hseen
  cases hseen with
  | known _ => exact List.prefix_rfl
  | added =>
    rw [entries, entries, Dictionary.toList_add]
    exact List.prefix_append _ _
  | passed => exact List.prefix_rfl

/-- No other string than the one that was seen enters, so the dictionary holds strings of the values
only. -/
theorem mem_entries_see {t : String} (h : t ∈ (l.see s role).2.entries) :
    t ∈ l.entries ∨ t = s := by
  have hseen := seen_see l s role
  revert h hseen
  generalize l.see s role = result
  intro h hseen
  cases hseen with
  | known _ => exact .inl h
  | added =>
    rw [entries, Dictionary.toList_add, List.mem_append, List.mem_singleton] at h
    exact h
  | passed => exact .inl h

/-- Nothing is announced by it. -/
theorem announced_see (l : Lexicon) (s : String) (role : Role) :
    (l.see s role).2.announced = l.announced := by
  have hseen := seen_see l s role
  revert hseen
  generalize l.see s role = result
  intro hseen
  cases hseen <;> rfl

theorem length_entries (l : Lexicon) : l.entries.length = l.size :=
  Dictionary.length_toList _

theorem take_size (l : Lexicon) : l.entries.take l.size = l.entries :=
  List.take_of_length_le (Nat.le_of_eq l.length_entries)

/-- What has been announced, and then what is pending. -/
theorem take_append_pending (l : Lexicon) : l.entries.take l.announced ++ l.pending = l.entries :=
  List.take_append_drop _ _

end Lexicon

/-! ## 3. Writing a value -/

namespace Payload

variable {R : Lexicon → Lexicon → Prop} {limit room : Nat}

/-- A preorder that relates the states of two steps relates those of both, since what comes after a
state is related to it, too. -/
theorem related_andThen (htrans : ∀ {l m n}, R l m → R m n → R l n) {l : Lexicon}
    {e : Emission Lexicon} {next : Lexicon → Emission Lexicon} (he : R l e.state)
    (hnext : ∀ m, R m (next m).state) : R l (e.andThen next).state :=
  Emission.state_andThen (P := R l) he fun m hm => htrans hm (hnext m)

/-- Writing a string changes the lexicon as seeing it does. -/
theorem state_string (role : Role) (s : String) (l : Lexicon) :
    (string role s l).state = (l.see s role).2 := by
  unfold string
  cases h : l.see s role with
  | mk index m => cases index <;> rfl

mutual

/-- Writing a value relates the lexicon before to the lexicon after by every preorder that seeing
its strings does.  This is the one induction on values in this module; whatever else it says of them
is a choice of the preorder. -/
theorem related_write (hrefl : ∀ l, R l l) (htrans : ∀ {l m n}, R l m → R m n → R l n) :
    ∀ (room : Nat) (v : Json) (l : Lexicon),
      (∀ s ∈ v.texts, ∀ l role, R l (l.see s role).2) → R l (write limit room v l).state
  | _, .null, l, _ => hrefl l
  | _, .bool _, l, _ => hrefl l
  | _, .number _, l, _ => hrefl l
  | _, .string s, l, h => by
    rw [write, state_string]
    exact h s (List.mem_singleton.mpr rfl) l .value
  | 0, .array _, l, _ => hrefl l
  | room + 1, .array items, l, h => by
    refine related_andThen (R := R) (e := tag .arrayStart l) htrans (hrefl l) fun l => ?_
    exact related_andThen (R := R) htrans (related_writeItems hrefl htrans room items l h) hrefl
  | 0, .object _, l, _ => hrefl l
  | room + 1, .object members, l, h => by
    refine related_andThen (R := R) (e := tag .objectStart l) htrans (hrefl l) fun l => ?_
    exact related_andThen (R := R) htrans (related_writeMembers hrefl htrans room members l h) hrefl

theorem related_writeItems (hrefl : ∀ l, R l l) (htrans : ∀ {l m n}, R l m → R m n → R l n) :
    ∀ (room : Nat) (items : List Json) (l : Lexicon),
      (∀ s ∈ Json.textsItems items, ∀ l role, R l (l.see s role).2) →
        R l (writeItems limit room items l).state
  | _, [], l, _ => hrefl l
  | room, v :: rest, l, h => by
    rw [writeItems]
    have hhead := related_write hrefl htrans room v l fun s hs => h s (List.mem_append_left _ hs)
    refine related_andThen (R := R) htrans hhead fun m => ?_
    exact related_writeItems hrefl htrans room rest m fun s hs => h s (List.mem_append_right _ hs)

theorem related_writeMembers (hrefl : ∀ l, R l l) (htrans : ∀ {l m n}, R l m → R m n → R l n) :
    ∀ (room : Nat) (members : List (String × Json)) (l : Lexicon),
      (∀ s ∈ Json.textsMembers members, ∀ l role, R l (l.see s role).2) →
        R l (writeMembers limit room members l).state
  | _, [], l, _ => hrefl l
  | room, (k, v) :: rest, l, h => by
    rw [writeMembers]
    have hkey : R l (string .key k l).state := by
      rw [state_string]
      exact h k (List.mem_cons_self ..) l .key
    refine related_andThen (R := R) htrans hkey fun m => ?_
    have hvalue := related_write hrefl htrans room v m fun s hs =>
      h s (List.mem_cons_of_mem _ (List.mem_append_left _ hs))
    refine related_andThen (R := R) htrans hvalue fun m => ?_
    exact related_writeMembers hrefl htrans room rest m fun s hs =>
      h s (List.mem_cons_of_mem _ (List.mem_append_right _ hs))

end

variable {v : Json} {l : Lexicon}

theorem entries_andThen {e : Emission Lexicon} {next : Lexicon → Emission Lexicon}
    (he : l.entries <+: e.state.entries) (hnext : ∀ m, m.entries <+: (next m).state.entries) :
    l.entries <+: (e.andThen next).state.entries :=
  related_andThen (R := fun l m => l.entries <+: m.entries) (fun h k => h.trans k) he hnext

/-- The dictionary only grows at its end. -/
theorem entries_write (limit room : Nat) (v : Json) (l : Lexicon) :
    l.entries <+: (write limit room v l).state.entries :=
  related_write (R := fun l m => l.entries <+: m.entries) (fun _ => List.prefix_rfl)
    (fun h k => h.trans k) room v l fun s _ l role => Lexicon.entries_see l s role

theorem entries_writeItems (limit room : Nat) (items : List Json) (l : Lexicon) :
    l.entries <+: (writeItems limit room items l).state.entries :=
  related_writeItems (R := fun l m => l.entries <+: m.entries) (fun _ => List.prefix_rfl)
    (fun h k => h.trans k) room items l fun s _ l role => Lexicon.entries_see l s role

theorem entries_writeMembers (limit room : Nat) (members : List (String × Json)) (l : Lexicon) :
    l.entries <+: (writeMembers limit room members l).state.entries :=
  related_writeMembers (R := fun l m => l.entries <+: m.entries) (fun _ => List.prefix_rfl)
    (fun h k => h.trans k) room members l fun s _ l role => Lexicon.entries_see l s role

/-- What has been announced stays so. -/
theorem announced_write (limit room : Nat) (v : Json) (l : Lexicon) :
    (write limit room v l).state.announced = l.announced :=
  related_write (R := fun l m => m.announced = l.announced) (fun _ => rfl)
    (fun h k => k.trans h) room v l fun s _ l role => Lexicon.announced_see l s role

/-- What holds of the strings of the dictionary and of the value holds of the strings of the
dictionary afterwards: no string comes from anywhere else. -/
theorem forall_entries_write {P : String → Prop} (hl : ∀ s ∈ l.entries, P s)
    (hv : ∀ s ∈ v.texts, P s) : ∀ s ∈ (write limit room v l).state.entries, P s := by
  refine related_write (R := fun l m => (∀ s ∈ l.entries, P s) → ∀ s ∈ m.entries, P s)
    (fun _ h => h) (fun h k hl => k (h hl)) room v l (fun s hs l role hl t ht => ?_) hl
  rcases Lexicon.mem_entries_see ht with ht | rfl
  · exact hl t ht
  · exact hv _ hs

end Payload

end DictLog
