/-
# JSON values

A value is a tree; the members of an object keep the order in which they were written.  The type
also holds trees in which an object repeats a key, because that is what a *text* may say.  Putting
a member into an object by `Members.put` keeps the place of a key and replaces its value, and
`Json.merge` does that throughout a tree, so that afterwards every object's keys are distinct
(`distinct_merge`), and a tree without repeated keys is left alone (`merge_eq_self`).
-/
import DictLog.Number.Double
import DictLog.Number.Integer

namespace DictLog

/-- A JSON number: an integer that 64 bits hold, or a double. -/
inductive Number where
  | integer (n : Integer)
  | double (d : Double)
  deriving DecidableEq

/-- A JSON value. -/
inductive Json where
  | null
  | bool (b : Bool)
  | number (n : Number)
  | string (s : String)
  | array (items : List Json)
  | object (members : List (String × Json))

/-- The members of an object, in order. -/
abbrev Members := List (String × Json)

/-! ## 1. Members -/

namespace Members

/-- Put a member: a new key goes to the end, a known key keeps its place and takes the value. -/
def put (key : String) (value : Json) : Members → Members
  | [] => [(key, value)]
  | (k, v) :: rest => if k = key then (key, value) :: rest else (k, v) :: put key value rest

/-- The members of an object, put one after the other. -/
def ofList (members : List (String × Json)) : Members :=
  members.foldl (fun object member => put member.1 member.2 object) []

theorem lookup_cons_eq {α : Type} (k key : String) (v : α) (rest : List (String × α)) :
    ((key, v) :: rest).lookup k = if k = key then some v else rest.lookup k := by
  rw [List.lookup_cons]
  by_cases h : k = key
  · simp [h]
  · simp [h, beq_false_of_ne h]

/-- Putting a member adds its key at the end, or no key at all.  So the order of the keys is the one
in which each of them came first. -/
theorem keys_put (key : String) (value : Json) (ms : Members) :
    (put key value ms).map Prod.fst =
      if key ∈ ms.map Prod.fst then ms.map Prod.fst else ms.map Prod.fst ++ [key] := by
  induction ms with
  | nil => rfl
  | cons m rest ih =>
    obtain ⟨k, v⟩ := m
    by_cases h : k = key
    · simp [put, h]
    · have h' : key ≠ k := fun e => h e.symm
      simp only [put, if_neg h, List.map_cons, ih, List.mem_cons, h', false_or]
      split <;> simp

/-- So putting a member repeats no key. -/
theorem nodup_keys_put {ms : Members} (h : (ms.map Prod.fst).Nodup) (key : String) (value : Json) :
    ((put key value ms).map Prod.fst).Nodup := by
  rw [keys_put]
  split
  · exact h
  · rename_i hk
    refine List.nodup_append.mpr ⟨h, by simp, ?_⟩
    intro a ha b hb e
    simp only [List.mem_singleton] at hb
    exact hk (hb ▸ e ▸ ha)

theorem nodup_keys_ofList (ms : List (String × Json)) : ((ofList ms).map Prod.fst).Nodup := by
  suffices ∀ acc : Members, (acc.map Prod.fst).Nodup →
      ((ms.foldl (fun object member => put member.1 member.2 object) acc).map Prod.fst).Nodup from
    this [] List.nodup_nil
  induction ms with
  | nil => intro acc h; exact h
  | cons m rest ih => intro acc h; exact ih _ (nodup_keys_put h _ _)

/-- A member with a new key goes to the end. -/
theorem put_of_not_mem {ms : Members} {key : String} (value : Json)
    (h : key ∉ ms.map Prod.fst) : put key value ms = ms ++ [(key, value)] := by
  induction ms with
  | nil => rfl
  | cons m rest ih =>
    obtain ⟨k, v⟩ := m
    simp only [List.map_cons, List.mem_cons, not_or] at h
    rw [put, if_neg (fun e => h.1 e.symm), ih h.2, List.cons_append]

/-- Members with distinct keys are put as they are, each behind the others. -/
theorem ofList_eq_self {ms : List (String × Json)} (h : (ms.map Prod.fst).Nodup) :
    ofList ms = ms := by
  suffices ∀ acc : Members, ((acc ++ ms).map Prod.fst).Nodup →
      ms.foldl (fun object member => put member.1 member.2 object) acc = acc ++ ms by
    simpa [ofList] using this [] (by simpa using h)
  clear h
  induction ms with
  | nil => intro acc _; simp
  | cons m rest ih =>
    intro acc hacc
    have hm : m.1 ∉ acc.map Prod.fst := by
      intro hmem
      rw [List.map_append, List.map_cons, List.nodup_append] at hacc
      exact hacc.2.2 _ hmem _ (List.mem_cons_self ..) rfl
    have hnext : ((acc ++ [m] ++ rest).map Prod.fst).Nodup := by simpa using hacc
    have hput : put m.1 m.2 acc = acc ++ [m] := put_of_not_mem m.2 hm
    rw [List.foldl_cons, hput, ih (acc ++ [m]) hnext, List.append_assoc, List.singleton_append]

end Members

/-! ## 2. Trees -/

namespace Json

mutual

/-- Whether no object in a tree repeats a key. -/
def Distinct : Json → Prop
  | null => True
  | bool _ => True
  | number _ => True
  | string _ => True
  | array items => DistinctItems items
  | object members => (members.map Prod.fst).Nodup ∧ DistinctMembers members

/-- `Distinct` of every item. -/
def DistinctItems : List Json → Prop
  | [] => True
  | v :: rest => Distinct v ∧ DistinctItems rest

/-- `Distinct` of every member's value. -/
def DistinctMembers : List (String × Json) → Prop
  | [] => True
  | (_, v) :: rest => Distinct v ∧ DistinctMembers rest

end

mutual

/-- Merge repeated keys throughout a tree. -/
def merge : Json → Json
  | null => null
  | bool b => bool b
  | number n => number n
  | string s => string s
  | array items => array (mergeItems items)
  | object members => object (Members.ofList (mergeMembers members))

/-- `merge` on every item. -/
def mergeItems : List Json → List Json
  | [] => []
  | v :: rest => merge v :: mergeItems rest

/-- `merge` on every member's value. -/
def mergeMembers : List (String × Json) → List (String × Json)
  | [] => []
  | (k, v) :: rest => (k, merge v) :: mergeMembers rest

end

/-- Where no value repeats a key, none does after putting one more of that kind. -/
theorem distinctMembers_put {ms : Members} (h : DistinctMembers ms) (key : String) {value : Json}
    (hv : value.Distinct) : DistinctMembers (Members.put key value ms) := by
  induction ms with
  | nil => exact ⟨hv, trivial⟩
  | cons m rest ih =>
    obtain ⟨k, v⟩ := m
    rw [Members.put]
    split
    · exact ⟨hv, h.2⟩
    · exact ⟨h.1, ih h.2⟩

/-- The same for members that are put one after the other. -/
theorem distinctMembers_ofList {ms : List (String × Json)} (h : DistinctMembers ms) :
    DistinctMembers (Members.ofList ms) := by
  suffices ∀ acc : Members, DistinctMembers acc → DistinctMembers
      (ms.foldl (fun object member => Members.put member.1 member.2 object) acc) from
    this [] trivial
  induction ms with
  | nil => intro acc hacc; exact hacc
  | cons m rest ih => intro acc hacc; exact ih h.2 _ (distinctMembers_put hacc _ h.1)

mutual

/-- After merging, no object repeats a key. -/
theorem distinct_merge : ∀ v : Json, (merge v).Distinct
  | null => trivial
  | bool _ => trivial
  | number _ => trivial
  | string _ => trivial
  | array items => distinct_mergeItems items
  | object members =>
    ⟨Members.nodup_keys_ofList _, distinctMembers_ofList (distinct_mergeMembers members)⟩

theorem distinct_mergeItems : ∀ items : List Json, DistinctItems (mergeItems items)
  | [] => trivial
  | v :: rest => ⟨distinct_merge v, distinct_mergeItems rest⟩

theorem distinct_mergeMembers :
    ∀ members : List (String × Json), DistinctMembers (mergeMembers members)
  | [] => trivial
  | (_, v) :: rest => ⟨distinct_merge v, distinct_mergeMembers rest⟩

end

mutual

/-- A tree without repeated keys is left alone. -/
theorem merge_eq_self : ∀ v : Json, v.Distinct → merge v = v
  | null, _ => rfl
  | bool _, _ => rfl
  | number _, _ => rfl
  | string _, _ => rfl
  | array items, h => by rw [merge, mergeItems_eq_self items h]
  | object members, h => by
    rw [merge, mergeMembers_eq_self members h.2, Members.ofList_eq_self h.1]

theorem mergeItems_eq_self : ∀ items : List Json, DistinctItems items → mergeItems items = items
  | [], _ => rfl
  | v :: rest, h => by rw [mergeItems, merge_eq_self v h.1, mergeItems_eq_self rest h.2]

theorem mergeMembers_eq_self :
    ∀ members : List (String × Json), DistinctMembers members → mergeMembers members = members
  | [], _ => rfl
  | (_, v) :: rest, h => by rw [mergeMembers, merge_eq_self v h.1, mergeMembers_eq_self rest h.2]

end

mutual

/-- How deep the containers of a tree nest: 0 for a scalar, and for a container one more than
the deepest of its parts. -/
def depth : Json → Nat
  | null => 0
  | bool _ => 0
  | number _ => 0
  | string _ => 0
  | array items => 1 + depthItems items
  | object members => 1 + depthMembers members

/-- The deepest of some items. -/
def depthItems : List Json → Nat
  | [] => 0
  | v :: rest => max (depth v) (depthItems rest)

/-- The deepest of some members' values. -/
def depthMembers : List (String × Json) → Nat
  | [] => 0
  | (_, v) :: rest => max (depth v) (depthMembers rest)

end

/-- An object with the members that are there. -/
def record (members : List (String × Option Json)) : Json :=
  object (members.filterMap fun m => m.2.map (m.1, ·))

/-- A count as a value. -/
def count (n : Nat) : Json :=
  match Integer.ofNat? n with
  | some i => number (.integer i)
  | none => null

/-! ## 3. Equality -/

mutual

/-- Whether two trees are the same.  Trees nest through lists, which deriving does not see through, so
their equality is decided here by hand, in step with the three functions above. -/
def same : Json → Json → Bool
  | null, null => true
  | bool b, bool c => b == c
  | number m, number n => decide (m = n)
  | string s, string t => s == t
  | array items, array others => sameItems items others
  | object members, object others => sameMembers members others
  | _, _ => false

/-- `same`, item by item. -/
def sameItems : List Json → List Json → Bool
  | [], [] => true
  | v :: rest, w :: others => same v w && sameItems rest others
  | _, _ => false

/-- `same`, member by member, and with the same keys. -/
def sameMembers : List (String × Json) → List (String × Json) → Bool
  | [], [] => true
  | (k, v) :: rest, (l, w) :: others => k == l && same v w && sameMembers rest others
  | _, _ => false

end

mutual

/-- Trees are the same exactly if they are equal. -/
theorem same_iff : ∀ v w : Json, same v w = true ↔ v = w
  | null, w => by cases w <;> simp [same]
  | bool _, w => by cases w <;> simp [same]
  | number _, w => by cases w <;> simp [same]
  | string _, w => by cases w <;> simp [same]
  | array items, w => by cases w <;> simp [same, sameItems_iff items]
  | object members, w => by cases w <;> simp [same, sameMembers_iff members]

theorem sameItems_iff : ∀ items others : List Json, sameItems items others = true ↔ items = others
  | [], others => by cases others <;> simp [sameItems]
  | v :: rest, others => by cases others <;> simp [sameItems, same_iff v, sameItems_iff rest]

theorem sameMembers_iff : ∀ members others : List (String × Json),
    sameMembers members others = true ↔ members = others
  | [], others => by cases others <;> simp [sameMembers]
  | (_, v) :: rest, others => by
    cases others <;> simp [sameMembers, same_iff v, sameMembers_iff rest, Prod.ext_iff]

end

/-- Equality of trees is decided by comparing them part by part. -/
instance : DecidableEq Json := fun v w => decidable_of_iff _ (same_iff v w)

end Json

end DictLog
