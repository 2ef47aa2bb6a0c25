/-
# A value is no larger than its payload

What the grammar lets a payload denote is bounded three ways (`Value.sized`): the value nests no
deeper than there is room, every string in it is within the limit for strings, and it has no more
parts than the payload has bytes.  The last is why a reader need not fear a short payload that
builds a large tree: every value and every key takes at least one byte, and merging repeated keys
only drops some of them.
-/
import DictLog.Proofs.Framing
import DictLog.Proofs.Nesting

namespace DictLog

/-! ## 1. Counting the parts of a tree -/

namespace Json

mutual

/-- The number of values and keys in a tree. -/
def nodes : Json → Nat
  | null => 1
  | bool _ => 1
  | number _ => 1
  | string _ => 1
  | array items => 1 + nodesItems items
  | object members => 1 + nodesMembers members

/-- `nodes` of all items. -/
def nodesItems : List Json → Nat
  | [] => 0
  | v :: rest => nodes v + nodesItems rest

/-- The keys, and `nodes` of all members' values. -/
def nodesMembers : List (String × Json) → Nat
  | [] => 0
  | (_, v) :: rest => 1 + nodes v + nodesMembers rest

end

mutual

/-- The doubles in a tree. -/
def doubles : Json → List Double
  | number (.double d) => [d]
  | array items => doublesItems items
  | object members => doublesMembers members
  | _ => []

/-- `doubles` of all items. -/
def doublesItems : List Json → List Double
  | [] => []
  | v :: rest => doubles v ++ doublesItems rest

/-- `doubles` of all members' values. -/
def doublesMembers : List (String × Json) → List Double
  | [] => []
  | (_, v) :: rest => doubles v ++ doublesMembers rest

end

/-- A member that is put adds itself, or takes the place of another one. -/
theorem nodesMembers_put (key : String) (v : Json) (ms : Members) :
    nodesMembers (Members.put key v ms) ≤ 1 + v.nodes + nodesMembers ms := by
  induction ms with
  | nil => simp [Members.put, nodesMembers]
  | cons m rest ih =>
    obtain ⟨k, w⟩ := m
    rw [Members.put]
    split <;> simp only [nodesMembers] <;> omega

/-- Putting members one after the other makes no more of them.  A member whose key is repeated takes
the place of the one before. -/
theorem nodesMembers_ofList (ms : List (String × Json)) :
    nodesMembers (Members.ofList ms) ≤ nodesMembers ms := by
  suffices ∀ acc : Members, nodesMembers
      (ms.foldl (fun object member => Members.put member.1 member.2 object) acc) ≤
        nodesMembers acc + nodesMembers ms by
    simpa [Members.ofList, nodesMembers] using this []
  induction ms with
  | nil => simp [nodesMembers]
  | cons m rest ih =>
    intro acc
    have hput := nodesMembers_put m.1 m.2 acc
    have hrest := ih (Members.put m.1 m.2 acc)
    simp only [List.foldl_cons, nodesMembers] at hrest ⊢
    omega

/-- A property of all strings is kept where a member is put that has it, whether the key is new or
not. -/
theorem textsMembers_put {P : String → Prop} {key : String} {v : Json} {ms : Members}
    (hkey : P key) (hv : ∀ s ∈ v.texts, P s) (hms : ∀ s ∈ textsMembers ms, P s) :
    ∀ s ∈ textsMembers (Members.put key v ms), P s := by
  induction ms with
  | nil =>
    simp only [Members.put, textsMembers, List.append_nil, List.forall_mem_cons]
    exact ⟨hkey, hv⟩
  | cons m rest ih =>
    obtain ⟨k, w⟩ := m
    simp only [textsMembers, List.forall_mem_cons, List.forall_mem_append] at hms
    obtain ⟨hk, hw, hrest⟩ := hms
    rw [Members.put]
    split <;> simp only [textsMembers, List.forall_mem_cons, List.forall_mem_append]
    · exact ⟨hkey, hv, hrest⟩
    · exact ⟨hk, hw, ih hrest⟩

/-- What holds of all strings of some members holds of those that are left when they are put. -/
theorem textsMembers_ofList {P : String → Prop} {ms : List (String × Json)}
    (h : ∀ s ∈ textsMembers ms, P s) : ∀ s ∈ textsMembers (Members.ofList ms), P s := by
  suffices ∀ acc : Members, (∀ s ∈ textsMembers acc, P s) → ∀ s ∈ textsMembers
      (ms.foldl (fun object member => Members.put member.1 member.2 object) acc), P s from
    this [] nofun
  induction ms with
  | nil => exact fun _ hacc => hacc
  | cons m rest ih =>
    obtain ⟨k, v⟩ := m
    simp only [textsMembers, List.forall_mem_cons, List.forall_mem_append] at h
    exact fun acc hacc => ih h.2.2 _ (textsMembers_put h.1 h.2.1 hacc)

end Json

/-! ## 2. What a payload denotes -/

namespace Grammar

open Encoder

/-- So deep, with so many parts and these strings: it fits where there is so much room, into so
many bytes, under these limits. -/
structure Sized (limits : Limits) (room length depth nodes : Nat) (texts : List String) : Prop where
  depth : depth ≤ room
  nodes : nodes ≤ length
  texts : Short limits texts

variable {limits : Limits} {dictionary : List String} {room : Nat} {bs : List UInt8}

/-- Two parts one after the other: the deeper one counts, and the rest adds up. -/
theorem Sized.append {length more depth other nodes further : Nat} {texts strings : List String}
    (h : Sized limits room length depth nodes texts)
    (k : Sized limits room more other further strings) :
    Sized limits room (length + more) (max depth other) (nodes + further) (texts ++ strings) where
  depth := Nat.max_le.mpr ⟨h.depth, k.depth⟩
  nodes := Nat.add_le_add h.nodes k.nodes
  texts := List.forall_mem_append.mpr ⟨h.texts, k.texts⟩

theorem sized_leaf (limits : Limits) (room : Nat) (tag : UInt8) (bs : List UInt8) :
    Sized limits room (tag :: bs).length 0 1 [] :=
  ⟨Nat.zero_le _, Nat.succ_le_succ (Nat.zero_le _), nofun⟩

/-- Brackets around it: one level deeper, and one node for at least one byte. -/
theorem Sized.brackets {first last : UInt8} {depth nodes : Nat} {texts : List String}
    (h : Sized limits room bs.length depth nodes texts) :
    Sized limits (room + 1) (first :: (bs ++ [last])).length (1 + depth) (1 + nodes) texts where
  depth := by
    have hdepth := h.depth
    omega
  nodes := by
    have hnodes := h.nodes
    simp only [List.length_cons, List.length_append, List.length_nil]
    omega
  texts := h.texts

/-- A string that was read is within its limit if those of the dictionary are. -/
theorem Text.short {s : String} (hdict : Short limits dictionary)
    (h : Text limits dictionary bs s) : (Utf8.encode s).length ≤ limits.maxStringLength := by
  cases h with
  | literal h =>
    obtain ⟨-, hlimit, hdecode⟩ := h
    rwa [Utf8.encode_of_decode hdecode]
  | reference _ lookup => exact hdict s (List.mem_of_getElem? lookup)

/-- A string, be it literal or a reference, is one node. -/
theorem Text.sized {s : String} (hdict : Short limits dictionary)
    (h : Text limits dictionary bs s) : Sized limits room bs.length 0 1 [s] where
  depth := Nat.zero_le _
  nodes := List.length_pos_iff.mpr h.opensPart.ne_nil
  texts := by
    intro t ht
    rw [List.mem_singleton.mp ht]
    exact h.short hdict

mutual

/-- **A value is no larger than its payload.**  It is no deeper than there is room, it has no more
parts than it has bytes, and its strings are within the limit if those of the dictionary are.

The induction is on how the payload denotes it, over values, items and members together. -/
theorem Value.sized (hdict : Short limits dictionary) : ∀ {room : Nat} {bs : List UInt8} {v : Json},
    Value limits dictionary room bs v → Sized limits room bs.length v.depth v.nodes v.texts
  | _, _, _, .null => sized_leaf ..
  | _, _, _, .boolTrue => sized_leaf ..
  | _, _, _, .boolFalse => sized_leaf ..
  | _, _, _, .natural _ => sized_leaf ..
  | _, _, _, .negative _ _ => sized_leaf ..
  | _, _, _, .double _ _ => sized_leaf ..
  | _, _, _, .text h => h.sized hdict
  | _, _, _, .array h => (Items.sized hdict h).brackets
  | _, _, _, .object h => by
    obtain ⟨hdepth, hnodes, htexts⟩ := MemberList.sized hdict h
    have hmerged : Sized limits _ _ _ _ _ :=
      ⟨Nat.le_trans (Json.depthMembers_ofList _) hdepth,
        Nat.le_trans (Json.nodesMembers_ofList _) hnodes, Json.textsMembers_ofList htexts⟩
    exact hmerged.brackets

/-- The items of an array, one after the other. -/
theorem Items.sized (hdict : Short limits dictionary) :
    ∀ {room : Nat} {bs : List UInt8} {items : List Json}, Items limits dictionary room bs items →
      Sized limits room bs.length (Json.depthItems items) (Json.nodesItems items)
        (Json.textsItems items)
  | _, _, _, .nil => ⟨Nat.zero_le _, Nat.le_refl _, nofun⟩
  | _, _, _, .cons head tail => by
    rw [List.length_append]
    exact (Value.sized hdict head).append (Items.sized hdict tail)

/-- The members of an object, before repeated keys are merged.  Each counts as one node more than its
value, for the bytes that its key takes; a key nests nothing. -/
theorem MemberList.sized (hdict : Short limits dictionary) :
    ∀ {room : Nat} {bs : List UInt8} {members : List (String × Json)},
      MemberList limits dictionary room bs members →
      Sized limits room bs.length (Json.depthMembers members) (Json.nodesMembers members)
        (Json.textsMembers members)
  | _, _, _, .nil => ⟨Nat.zero_le _, Nat.le_refl _, nofun⟩
  | _, _, _, .cons key value tail => by
    have hall := ((key.sized hdict).append (Value.sized hdict value)).append
      (MemberList.sized hdict tail)
    rw [Nat.zero_max] at hall
    rw [List.length_append, List.length_append]
    exact hall

end

end Grammar

end DictLog
