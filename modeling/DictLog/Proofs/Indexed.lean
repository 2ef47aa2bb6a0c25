/-
# A lexicon and its index

A lexicon changes by being asked to see a string, to announce what is pending, or to begin an epoch.
Whatever it is asked, in whatever order, its parts stay in step (`Coherent.serve`): its strings are
distinct, it has announced no more than there are, it counts no string that is in the dictionary, and its
counts are within their bounds.  The two cases that need care are a key that was being counted, which
has to leave the counts when it enters the dictionary, and a new epoch that keeps the counts while the
dictionary is emptied.

A look-up may go through the strings, or ask a hash index that is kept beside them.  Such an index is in
step with the strings, too, so there is no difference in what is answered (`Represents.serve`).
-/
import DictLog.Proofs.Counting

namespace DictLog

/-! ## 1. Counts within bounds -/

namespace Sightings

variable {threshold capacity n : Nat} {t : Sightings} {s u : String}

/-- Counts with this threshold and with room for so many: no string is counted twice, and every count
is one at least and at most the threshold, or one where the threshold is zero. -/
structure Bounded (threshold capacity : Nat) (t : Sightings) : Prop where
  due : t.threshold = threshold
  places : t.capacity = capacity
  nodup : t.strings.Nodup
  few : t.size ≤ capacity
  counts : ∀ entry ∈ t.counts, 1 ≤ entry.2 ∧ entry.2 ≤ max 1 threshold

/-- Counts stay within bounds when a string is forgotten. -/
theorem Bounded.forget (h : Bounded threshold capacity t) (s : String) :
    Bounded threshold capacity (t.forget s) where
  due := h.due
  places := h.places
  nodup := by
    rw [strings_forget]
    exact h.nodup.filter _
  few := Nat.le_trans (List.length_filter_le _ _) h.few
  counts entry hentry := h.counts entry (List.mem_of_mem_filter hentry)

theorem Bounded.clear (h : Bounded threshold capacity t) : Bounded threshold capacity t.clear where
  due := h.due
  places := h.places
  nodup := List.nodup_nil
  few := Nat.zero_le _
  counts _ hentry := absurd hentry List.not_mem_nil

/-- A count that is below the threshold may go up by one. -/
theorem Bounded.bump (h : Bounded threshold capacity t) (hn : t.count? s = some n)
    (hless : n < t.threshold) : Bounded threshold capacity (t.bump s) where
  due := h.due
  places := h.places
  nodup := by
    rw [strings_bump]
    exact h.nodup
  few := by
    rw [← length_strings, strings_bump, length_strings]
    exact h.few
  counts := by
    intro entry hentry
    obtain ⟨⟨u, m⟩, hold, rfl⟩ := List.mem_map.mp hentry
    by_cases hu : u = s
    · subst hu
      have hm : (u, m) = (u, n) := List.inj_on_of_nodup_map h.nodup hold (mem_of_count? hn) rfl
      cases hm
      have hdue := h.due
      simp only [if_true]
      omega
    · simp only [hu, if_false]
      exact h.counts _ hold

/-- A string that was not counted may begin to be; the oldest leaves for it if all places are taken. -/
theorem Bounded.begin (h : Bounded threshold capacity t) (hcapacity : t.capacity ≠ 0)
    (hnew : t.count? s = none) : Bounded threshold capacity (t.begin s) where
  due := h.due
  places := h.places
  nodup := nodup_begin h.nodup hnew
  few := h.places ▸ size_begin_le hcapacity (h.places.symm ▸ h.few) s
  counts := by
    intro entry hentry
    rw [begin_eq] at hentry
    rcases List.mem_append.mp hentry with hold | hself
    · exact h.counts entry (counts_kept t hold)
    · obtain rfl := List.mem_singleton.mp hself
      exact ⟨Nat.le_refl 1, Nat.le_max_left ..⟩

/-- So seeing a string keeps the counts within bounds, whichever of the three it comes to. -/
theorem Bounded.see (h : Bounded threshold capacity t) (s : String) :
    Bounded threshold capacity (t.see s).2 := by
  by_cases hcapacity : t.capacity = 0
  · rwa [Sightings.see, if_pos hcapacity]
  · rcases see_cases hcapacity s with ⟨n, -, -, hsee⟩ | ⟨n, hn, hless, hsee⟩ | ⟨hnew, hsee⟩
    · rw [hsee]
      exact h.forget s
    · rw [hsee]
      exact h.bump hn hless
    · rw [hsee]
      exact h.begin hcapacity hnew

/-- Seeing a string makes no other string counted. -/
theorem mem_strings_of_see (hne : u ≠ s) (hu : u ∈ (t.see s).2.strings) : u ∈ t.strings := by
  by_cases hcapacity : t.capacity = 0
  · rwa [see, if_pos hcapacity] at hu
  · rw [mem_strings_see hcapacity] at hu
    split at hu
    · exact hu.1
    · split at hu
      · exact hu
      · exact (sublist_kept t).subset (hu.resolve_right hne)

/-- A string that was due is not counted any more. -/
theorem not_mem_strings_see (hdue : (t.see s).1 = true) : s ∉ (t.see s).2.strings := by
  by_cases hcapacity : t.capacity = 0
  · rw [see, if_pos hcapacity] at hdue
    cases hdue
  · rw [mem_strings_see hcapacity, if_pos hdue]
    exact fun hmem => hmem.2 rfl

end Sightings

/-! ## 2. Operations -/

/-- What a lexicon may be asked to do: see a string, announce what is pending, or begin an epoch. -/
inductive Lexicon.Operation where
  | see (s : String) (role : Role)
  | announce
  | clear (resetUsage : Bool)
  deriving DecidableEq, Repr

/-- What is answered to one operation after the other, and the state behind them. -/
def serveAll {σ : Type} (serve : σ → Lexicon.Operation → Option Nat × σ) :
    List Lexicon.Operation → σ → List (Option Nat) × σ
  | [], s => ([], s)
  | operation :: rest, s =>
    let (answer, s) := serve s operation
    let (answers, s) := serveAll serve rest s
    (answer :: answers, s)

namespace Lexicon

variable {threshold capacity i : Nat} {l : Lexicon} {s u : String} {role : Role}
  {operations : List Operation}

/-- The index of a string that was seen, or how many strings were announced, and the lexicon then. -/
def serve (l : Lexicon) : Operation → Option Nat × Lexicon
  | .see s role => l.see s role
  | .announce => (some l.announce.1, l.announce.2)
  | .clear resetUsage => (none, l.clear resetUsage)

/-- The lexicon after some operations. -/
def served (l : Lexicon) (operations : List Operation) : Lexicon :=
  (serveAll serve operations l).2

/-- The parts of a lexicon are in step. -/
structure Coherent (threshold capacity : Nat) (l : Lexicon) : Prop where
  nodup : l.entries.Nodup
  announced : l.announced ≤ l.size
  apart : ∀ s ∈ l.entries, s ∉ l.sightings.strings
  bounded : l.sightings.Bounded threshold capacity

theorem coherent_new (threshold capacity : Nat) : Coherent threshold capacity (new threshold capacity) :=
  ⟨List.nodup_nil, Nat.le_refl 0, nofun, rfl, rfl, List.nodup_nil, Nat.zero_le _, nofun⟩

/-- Judging a string makes no other one counted. -/
theorem mem_strings_of_judge (hne : u ≠ s) (hu : u ∈ (l.judge s role).2.strings) :
    u ∈ l.sightings.strings := by
  cases role with
  | value => exact Sightings.mem_strings_of_see hne hu
  | key =>
    change u ∈ (l.sightings.forget s).strings at hu
    rw [Sightings.strings_forget] at hu
    exact List.mem_of_mem_filter hu

/-- A string that is admitted is not counted any more, be it as a key or for the last count it
needed. -/
theorem not_mem_strings_judge (hadmitted : (l.judge s role).1 = true) :
    s ∉ (l.judge s role).2.strings := by
  cases role with
  | value => exact Sightings.not_mem_strings_see hadmitted
  | key =>
    change s ∉ (l.sightings.forget s).strings
    simp [Sightings.strings_forget]

theorem bounded_judge (h : l.sightings.Bounded threshold capacity) (s : String) (role : Role) :
    (l.judge s role).2.Bounded threshold capacity := by
  cases role with
  | key => exact h.forget s
  | value => exact h.see s

/-- No more is announced than there is, since the strings only become more. -/
theorem announced_le_see (h : l.announced ≤ l.size) (s : String) (role : Role) :
    (l.see s role).2.announced ≤ (l.see s role).2.size := by
  have hgrow := (entries_see l s role).length_le
  rw [length_entries, length_entries] at hgrow
  rw [announced_see]
  exact Nat.le_trans h hgrow

/-- A string that enters the dictionary is not counted any more, and a string that is counted is not in
the dictionary, since it was looked for there. -/
theorem Coherent.see (h : Coherent threshold capacity l) (s : String) (role : Role) :
    Coherent threshold capacity (l.see s role).2 := by
  have hnodup := @nodup_see l s role h.nodup
  have hannounced := announced_le_see h.announced s role
  have hbounded := bounded_judge h.bounded s role
  -- It was known, or is admitted, or is counted only.
  rcases see_cases l s role with ⟨i, -, hsee⟩ | ⟨-, hadmitted, hsee⟩ | ⟨hlookup, -, hsee⟩
  · rw [hsee]
    exact h
  · rw [hsee] at hnodup hannounced ⊢
    refine ⟨hnodup, hannounced, fun u hu hcounted => ?_, hbounded⟩
    have hold : u ∈ l.entries ∨ u = s := by simpa [entries] using hu
    by_cases heq : u = s
    · exact not_mem_strings_judge hadmitted (heq ▸ hcounted)
    · exact h.apart u (hold.resolve_right heq) (mem_strings_of_judge heq hcounted)
  · rw [hsee]
    refine ⟨h.nodup, h.announced, fun u hu hcounted => ?_, hbounded⟩
    have hne : u ≠ s := fun heq => not_mem_of_lookup hlookup (heq ▸ hu)
    exact h.apart u hu (mem_strings_of_judge hne hcounted)

theorem Coherent.announce (h : Coherent threshold capacity l) :
    Coherent threshold capacity l.announce.2 :=
  ⟨h.nodup, Nat.le_refl _, h.apart, h.bounded⟩

/-- Whether or not the counts are kept, no string is left that might be counted. -/
theorem Coherent.clear (h : Coherent threshold capacity l) (resetUsage : Bool) :
    Coherent threshold capacity (l.clear resetUsage) := by
  refine ⟨List.nodup_nil, Nat.le_refl 0, nofun, ?_⟩
  cases resetUsage with
  | true => exact h.bounded.clear
  | false => exact h.bounded

/-- Whatever a lexicon is asked, its parts stay in step. -/
theorem Coherent.serve (h : Coherent threshold capacity l) (operation : Operation) :
    Coherent threshold capacity (l.serve operation).2 := by
  cases operation with
  | see s role => exact h.see s role
  | announce => exact h.announce
  | clear resetUsage => exact h.clear resetUsage

theorem Coherent.served (h : Coherent threshold capacity l) (operations : List Operation) :
    Coherent threshold capacity (l.served operations) := by
  induction operations generalizing l with
  | nil => exact h
  | cons operation rest ih => exact ih (h.serve operation)

-- A string that was counted leaves the counts when it is a key; the other count outlives the epoch.
example : (new 2 2).served [.see "a" .value, .see "b" .value, .see "a" .key, .announce, .clear false] =
    { sightings := { threshold := 2, capacity := 2, counts := [("b", 1)] } } := by
  decide

/-! ## 3. Indices -/

/-- Where the strings are distinct, looking a string up is looking where it stands. -/
theorem lookup_eq_some (h : l.entries.Nodup) : l.lookup s = some i ↔ l.entries[i]? = some s := by
  refine ⟨getElem?_of_lookup, fun hi => ?_⟩
  cases hlookup : l.lookup s with
  | none => exact absurd (List.mem_of_getElem? hi) (not_mem_of_lookup hlookup)
  | some j =>
    have hj := getElem?_of_lookup hlookup
    have hlt : j < l.entries.length := (List.getElem?_eq_some_iff.mp hj).1
    rw [(List.getElem?_inj hlt h).mp (hj.trans hi.symm)]

/-- A string that enters the dictionary is found behind all others, which are found where they were.
So an index that knew of the others has to be told of this one only. -/
theorem lookup_add (hnew : l.lookup s = none) (sightings : Sightings) (u : String) :
    lookup { l with dictionary := l.dictionary.add s, sightings } u =
      if s == u then some l.size else l.lookup u := by
  have happend : (l.entries ++ [s]).idxOf? u =
      (l.lookup u).or (if s == u then some l.size else none) := by
    rw [List.idxOf?, List.findIdx?_append, length_entries]
    congr 1
    by_cases hsu : s = u <;> simp [hsu]
  rw [lookup, Dictionary.indexOf?, Dictionary.toList_add]
  change (l.entries ++ [s]).idxOf? u = _
  rw [happend]
  by_cases hsu : s = u
  · subst hsu
    simp [hnew]
  · simp [hsu]

/-- An index that was returned is the index of its string from there on.  It was found there, or the
string has just been put there. -/
theorem lookup_of_see (h : l.entries.Nodup) (hi : (l.see s role).1 = some i) :
    (l.see s role).2.lookup s = some i := by
  rw [lookup_eq_some (nodup_see h)]
  rcases see_cases l s role with ⟨j, hlookup, hsee⟩ | ⟨-, -, hsee⟩ | ⟨-, -, hsee⟩
  · rw [hsee] at hi ⊢
    cases hi
    exact getElem?_of_lookup hlookup
  · rw [hsee] at hi ⊢
    cases hi
    simp [entries, ← Dictionary.length_toList, size]
  · rw [hsee] at hi
    cases hi

/-- Operations within one epoch. -/
def Lasting (operations : List Operation) : Prop :=
  ∀ resetUsage, .clear resetUsage ∉ operations

/-- Within an epoch the dictionary only grows at its end. -/
theorem entries_served (h : Lasting operations) : l.entries <+: (l.served operations).entries := by
  induction operations generalizing l with
  | nil => exact List.prefix_rfl
  | cons operation rest ih =>
    have hrest : Lasting rest := fun resetUsage hmem => h resetUsage (List.mem_cons_of_mem _ hmem)
    have hhead : l.entries <+: (l.serve operation).2.entries := by
      cases operation with
      | see s role => exact entries_see l s role
      | announce => exact List.prefix_rfl
      | clear resetUsage => exact absurd List.mem_cons_self (h resetUsage)
    exact hhead.trans (ih hrest)

/-- The string has this index, and whenever it is seen, this index is returned and nothing changes. -/
structure Names (l : Lexicon) (i : Nat) (s : String) : Prop where
  entry : l.entries[i]? = some s
  lookup : l.lookup s = some i
  see : ∀ role, l.see s role = (some i, l)

/-- A string that stands at an index has that index. -/
theorem names_of_getElem? (h : l.entries.Nodup) (hi : l.entries[i]? = some s) : Names l i s := by
  have hlookup := (lookup_eq_some h).mpr hi
  refine ⟨hi, hlookup, fun role => ?_⟩
  unfold see
  rw [hlookup]

/-- A string that was found keeps its index until the next epoch. -/
theorem Coherent.names_served (h : Coherent threshold capacity l) (hi : l.lookup s = some i)
    (hlasting : Lasting operations) : Names (l.served operations) i s := by
  obtain ⟨later, heq⟩ := @entries_served l operations hlasting
  have hentry := getElem?_of_lookup hi
  refine names_of_getElem? (h.served operations).nodup ?_
  rw [← heq, List.getElem?_append_left (List.getElem?_eq_some_iff.mp hentry).1]
  exact hentry

/-! ## 4. What is kept -/

/-- The books of a lexicon are kept: a string is looked up where it stands, the strings are distinct, and
the indices are those below their number; the strings that are pending are the last ones, and announcing
them announces all; no string of the dictionary is counted, there are no more counts than there is room
for, and each is one at least and at most the threshold, or one where the threshold is zero. -/
structure WellKept (threshold capacity : Nat) (l : Lexicon) : Prop where
  lookup : ∀ s i, l.lookup s = some i ↔ l.entries[i]? = some s
  distinct : l.entries.Nodup
  indices : ∀ i, (∃ s, l.lookup s = some i) ↔ i < l.size
  announced : l.announced ≤ l.size
  pending : l.entries.take l.announced ++ l.pending = l.entries
  announce : l.announce.1 = l.pending.length ∧ l.announced + l.announce.1 = l.size
  apart : ∀ s ∈ l.entries, l.sightings.count? s = none
  few : l.sightings.size ≤ capacity
  counts : ∀ s n, l.sightings.count? s = some n → 1 ≤ n ∧ n ≤ max 1 threshold

/-- What is in step is well kept.  `Coherent` is what every operation preserves, and all that is said
of a lexicon follows from it. -/
theorem Coherent.wellKept (h : Coherent threshold capacity l) : WellKept threshold capacity l where
  lookup _ _ := lookup_eq_some h.nodup
  distinct := h.nodup
  indices i := by
    rw [← length_entries]
    constructor
    · rintro ⟨s, hs⟩
      exact (List.getElem?_eq_some_iff.mp (getElem?_of_lookup hs)).1
    · intro hi
      exact ⟨_, (lookup_eq_some h.nodup).mpr (List.getElem?_eq_getElem hi)⟩
  announced := h.announced
  pending := take_append_pending l
  announce := by
    have hle := h.announced
    have hpending : l.pending.length = l.size - l.announced := by
      rw [Lexicon.pending, List.length_drop, length_entries]
    exact ⟨hpending.symm, Nat.add_sub_cancel' hle⟩
  apart s hs := Sightings.count?_eq_none.mpr (h.apart s hs)
  few := h.bounded.few
  counts _ _ hn := h.bounded.counts _ (Sightings.mem_of_count? hn)

end Lexicon

/-! ## 5. A hash index -/

/-- A lexicon with a hash index beside its strings. -/
structure IndexedLexicon where
  entries : Array String := #[]
  index : Std.HashMap String Nat := {}
  announced : Nat := 0
  sightings : Sightings

namespace IndexedLexicon

/-- A lexicon that has seen nothing. -/
def new (threshold capacity : Nat) : IndexedLexicon where
  sightings := { threshold, capacity }

/-- Whether a string enters the dictionary, and the counts then, as in a lexicon without an index. -/
def judge (x : IndexedLexicon) (s : String) : Role → Bool × Sightings
  | .key => (true, x.sightings.forget s)
  | .value => x.sightings.see s

/-- See a string, which is looked up in the index and enters both. -/
def see (x : IndexedLexicon) (s : String) (role : Role) : Option Nat × IndexedLexicon :=
  match x.index[s]? with
  | some i => (some i, x)
  | none =>
    let (admitted, sightings) := x.judge s role
    if admitted then
      (some x.entries.size, { x with
        entries := x.entries.push s
        index := x.index.insert s x.entries.size
        sightings })
    else (none, { x with sightings })

/-- How many strings were pending; none is any more. -/
def announce (x : IndexedLexicon) : Nat × IndexedLexicon :=
  (x.entries.size - x.announced, { x with announced := x.entries.size })

/-- A new epoch: the strings and the index are emptied together, the counts only if that is asked
for. -/
def clear (x : IndexedLexicon) (resetUsage : Bool) : IndexedLexicon where
  sightings := if resetUsage then x.sightings.clear else x.sightings

/-- What is answered to an operation, and the state then. -/
def serve (x : IndexedLexicon) : Lexicon.Operation → Option Nat × IndexedLexicon
  | .see s role => x.see s role
  | .announce => (some x.announce.1, x.announce.2)
  | .clear resetUsage => (none, x.clear resetUsage)

/-- The index knows of every string where it is looked up, and all else is the same. -/
structure Represents (x : IndexedLexicon) (l : Lexicon) : Prop where
  entries : x.entries = l.dictionary.entries
  index : ∀ s, x.index[s]? = l.lookup s
  announced : x.announced = l.announced
  sightings : x.sightings = l.sightings

variable {x : IndexedLexicon} {l : Lexicon}

theorem represents_new (threshold capacity : Nat) :
    Represents (new threshold capacity) (.new threshold capacity) :=
  ⟨rfl, fun _ => Std.HashMap.getElem?_empty, rfl, rfl⟩

/-- Seeing a string is answered alike, and what was in step stays so.  A string that is new enters
the index with the place at which it enters the strings. -/
theorem Represents.see (h : Represents x l) (s : String) (role : Role) :
    (x.see s role).1 = (l.see s role).1 ∧ Represents (x.see s role).2 (l.see s role).2 := by
  have hjudge : x.judge s role = l.judge s role := by
    cases role <;> simp [judge, Lexicon.judge, h.sightings]
  have hsize : x.entries.size = l.size := congrArg Array.size h.entries
  unfold IndexedLexicon.see
  rw [h.index s, hjudge, hsize]
  rcases l.see_cases s role with ⟨i, hlookup, hsee⟩ | ⟨hnew, hadmitted, hsee⟩ |
    ⟨hnew, hpassed, hsee⟩
  · rw [hsee, hlookup]
    exact ⟨rfl, h⟩
  · simp only [hsee, hnew, hadmitted, if_true]
    refine ⟨trivial, congrArg (Array.push · s) h.entries, fun u => ?_, h.announced, rfl⟩
    rw [Std.HashMap.getElem?_insert, Lexicon.lookup_add hnew, h.index u]
  · simp only [hsee, hnew, hpassed, Bool.false_eq_true, if_false]
    exact ⟨trivial, h.entries, h.index, h.announced, rfl⟩

/-- Any operation is answered alike, and what was in step stays so. -/
theorem Represents.serve (h : Represents x l) (operation : Lexicon.Operation) :
    (x.serve operation).1 = (l.serve operation).1 ∧
      Represents (x.serve operation).2 (l.serve operation).2 := by
  have hsize : x.entries.size = l.size := congrArg Array.size h.entries
  cases operation with
  | see s role => exact h.see s role
  | announce =>
    refine ⟨?_, h.entries, h.index, hsize, h.sightings⟩
    simp [IndexedLexicon.serve, Lexicon.serve, announce, Lexicon.announce, hsize, h.announced]
  | clear resetUsage =>
    refine ⟨rfl, rfl, fun _ => Std.HashMap.getElem?_empty, rfl, ?_⟩
    simp [IndexedLexicon.serve, Lexicon.serve, clear, Lexicon.clear, h.sightings]

/-- So are any operations, one after the other. -/
theorem Represents.serveAll (h : Represents x l) (operations : List Lexicon.Operation) :
    (DictLog.serveAll IndexedLexicon.serve operations x).1 =
        (DictLog.serveAll Lexicon.serve operations l).1 ∧
      Represents (DictLog.serveAll IndexedLexicon.serve operations x).2 (l.served operations) := by
  induction operations generalizing x l with
  | nil => exact ⟨rfl, h⟩
  | cons operation rest ih =>
    obtain ⟨hanswer, hnext⟩ := h.serve operation
    obtain ⟨hanswers, hfinal⟩ := ih hnext
    exact ⟨congrArg₂ List.cons hanswer hanswers, hfinal⟩

end IndexedLexicon

/-- **The books of a lexicon are kept**, whatever it is asked, with any threshold and any room for
counts.

* The strings, the mark of what is announced and the counts are in step.
* Until the next epoch the strings stay where they are, and an index, whether it was found or was just
  returned, goes on to name its string, and is returned whenever the string is seen.
* With a hash index beside the strings, the answers are the same, and so is everything else; and the
  index knows of every string where it is looked up. -/
theorem Lexicon.books_kept (threshold capacity : Nat) (operations : List Operation) :
    let l := (new threshold capacity).served operations
    let indexed := serveAll IndexedLexicon.serve operations (.new threshold capacity)
    WellKept threshold capacity l ∧
    (∀ more, Lasting more → l.entries <+: (l.served more).entries ∧
      ∀ s i, l.lookup s = some i → Names (l.served more) i s) ∧
    (∀ s role i, (l.see s role).1 = some i →
      ∀ more, Lasting more → Names ((l.see s role).2.served more) i s) ∧
    indexed.1 = (serveAll serve operations (new threshold capacity)).1 ∧
    indexed.2.Represents l := by
  intro l indexed
  have h : Coherent threshold capacity l := (coherent_new threshold capacity).served operations
  obtain ⟨hanswers, hrepresents⟩ :=
    (IndexedLexicon.represents_new threshold capacity).serveAll operations
  refine ⟨h.wellKept, fun more hmore => ⟨entries_served hmore, fun s i hi => ?_⟩,
    fun s role i hi more hmore => ?_, hanswers, hrepresents⟩
  · exact h.names_served hi hmore
  · exact (h.see s role).names_served (lookup_of_see h.nodup hi) hmore

end DictLog
