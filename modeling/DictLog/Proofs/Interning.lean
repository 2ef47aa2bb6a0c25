/-
# What was seen of a stream decides how its strings are spelled

As long as no epoch is begun anew and there is room to count every string that occurs at value
position, a lexicon is what the strings that it has seen make of it (`Remembers`): its dictionary has
the keys among them and what has been seen at value position more often than the threshold says, and
of all others it counts the sightings.  What seeing one more string comes to is said once
(`Remembers.see_cases`); that it keeps the invariant, and when a string is written in full, both follow.

Which index is written needs no history (`Indexes`): the strings of a dictionary are distinct, and a
string that enters it is referred to at once, so the indices appear in the order in which they are
handed out.

Put together along a stream, these say how every string in it is spelled (`spelled_by_history`).
-/
import Mathlib.Data.Finset.Card
import DictLog.Proofs.Compatible
import DictLog.Proofs.Spelling

namespace DictLog

/-! ## 1. Counting with room for all -/

namespace Sightings

/-- The strings being counted. -/
def strings (t : Sightings) : List String :=
  t.counts.map Prod.fst

/-- What is counted of a string that has been seen so many times. -/
def tally : Nat → Option Nat
  | 0 => none
  | n + 1 => some (n + 1)

/-- Nothing is counted twice, only these strings are counted, and there is room for all of them. -/
structure Within (texts : Finset String) (t : Sightings) : Prop where
  room : texts.card ≤ t.capacity
  nodup : t.strings.Nodup
  known : ∀ s ∈ t.strings, s ∈ texts

variable {texts : Finset String} {t : Sightings} {s u : String} {n : Nat}

/-- Forgetting a string changes no other count. -/
theorem count?_forget_of_ne (h : u ≠ s) : (t.forget s).count? u = t.count? u := by
  show (t.counts.filter _).lookup u = t.counts.lookup u
  induction t.counts with
  | nil => rfl
  | cons entry rest ih =>
    obtain ⟨v, n⟩ := entry
    by_cases hv : v = s
    · simp [hv, ih, Members.lookup_cons_eq, h]
    · simp [hv, ih, Members.lookup_cons_eq]

/-- Counting a string once more changes no other count. -/
theorem count?_bump_of_ne (h : u ≠ s) : (t.bump s).count? u = t.count? u := by
  show (t.counts.map _).lookup u = t.counts.lookup u
  induction t.counts with
  | nil => rfl
  | cons entry rest ih =>
    obtain ⟨v, n⟩ := entry
    by_cases hv : v = s
    · simp [hv, ih, Members.lookup_cons_eq, h]
    · simp [hv, ih, Members.lookup_cons_eq]

/-- Its own count goes up by one, whatever stands in front of it. -/
theorem count?_bump (h : t.count? s = some n) : (t.bump s).count? s = some (n + 1) := by
  have hmap : ∀ counts : List (String × Nat), counts.lookup s = some n →
      (counts.map fun entry => if entry.1 = s then (s, entry.2 + 1) else entry).lookup s =
        some (n + 1) := by
    intro counts
    induction counts with
    | nil => exact nofun
    | cons entry rest ih =>
      obtain ⟨v, m⟩ := entry
      by_cases hv : v = s
      · simp [hv]
      · simpa [hv, Members.lookup_cons_eq, Ne.symm hv] using ih
  exact hmap t.counts h

theorem Within.forget (h : t.Within texts) (s : String) : (t.forget s).Within texts := by
  have hsub : (t.forget s).strings.Sublist t.strings := List.filter_sublist.map _
  exact ⟨h.room, h.nodup.sublist hsub, fun u hu => h.known u (hsub.subset hu)⟩

/-- Counting once more neither adds a string nor moves one. -/
theorem strings_bump (t : Sightings) (s : String) : (t.bump s).strings = t.strings := by
  unfold strings Sightings.bump
  rw [List.map_map]
  refine List.map_congr_left fun entry _ => ?_
  by_cases hs : entry.1 = s <;> simp [hs]

theorem Within.bump (h : t.Within texts) (s : String) : (t.bump s).Within texts := by
  have hsame := strings_bump t s
  exact ⟨h.room, hsame ▸ h.nodup, hsame ▸ h.known⟩

theorem not_mem_strings (h : t.count? s = none) : s ∉ t.strings := by
  intro hmem
  obtain ⟨entry, hentry, rfl⟩ := List.mem_map.mp hmem
  simpa using List.lookup_eq_none_iff.mp h entry hentry

/-- There is room for one more of the strings that may be counted. -/
theorem Within.size_lt (h : t.Within texts) (hs : s ∈ texts) (hnew : s ∉ t.strings) :
    t.size < t.capacity := by
  have hnodup : (s :: t.strings).Nodup := List.nodup_cons.mpr ⟨hnew, h.nodup⟩
  have hsub : (s :: t.strings).toFinset ⊆ texts := by
    intro u hu
    rcases List.mem_cons.mp (List.mem_toFinset.mp hu) with rfl | hu
    · exact hs
    · exact h.known u hu
  have hcard := Finset.card_le_card hsub
  rw [List.toFinset_card_of_nodup hnodup, List.length_cons, strings, List.length_map] at hcard
  exact Nat.lt_of_lt_of_le hcard h.room

/-- So a string whose counting begins displaces no other.  There is room for all strings that can
ever be counted, and this one was not counted yet. -/
theorem Within.begin (h : t.Within texts) (hs : s ∈ texts) (hnew : s ∉ t.strings) :
    t.begin s = { t with counts := t.counts ++ [(s, 1)] } ∧ (t.begin s).Within texts := by
  have hlt : t.counts.length < t.capacity := h.size_lt hs hnew
  have heq : t.begin s = { t with counts := t.counts ++ [(s, 1)] } := by
    simp [Sightings.begin, hlt]
  have hstrings : (t.begin s).strings = t.strings ++ [s] := by
    simp [heq, strings]
  refine ⟨heq, heq ▸ h.room, ?_, ?_⟩
  · rw [hstrings, List.nodup_append]
    refine ⟨h.nodup, List.nodup_singleton s, fun u hu v hv => ?_⟩
    rw [List.mem_singleton.mp hv]
    exact fun heq => hnew (heq ▸ hu)
  · intro u hu
    rw [hstrings, List.mem_append, List.mem_singleton] at hu
    rcases hu with hu | rfl
    · exact h.known u hu
    · exact hs

/-- **What seeing a string comes to** that has been seen `n` times.  It is due, or it is counted once
more. -/
theorem Within.see_cases (h : t.Within texts) (hs : s ∈ texts) (hn : t.count? s = tally n) :
    max 1 t.threshold ≤ n ∧ t.see s = (true, t.forget s) ∨
      n < max 1 t.threshold ∧ ∃ t', t.see s = (false, t') ∧ t'.Within texts ∧
        t'.threshold = t.threshold ∧ t'.count? s = tally (n + 1) ∧
        ∀ u, u ≠ s → t'.count? u = t.count? u := by
  have hcapacity : t.capacity ≠ 0 := by
    have hpos := Finset.card_pos.mpr ⟨s, hs⟩
    have hroom := h.room
    omega
  unfold see
  rw [if_neg hcapacity, hn]
  cases n with
  | zero =>
    obtain ⟨hbegin, hwithin⟩ := h.begin hs (not_mem_strings hn)
    refine .inr ⟨by omega, _, rfl, hwithin, ?_, ?_, fun u hu => ?_⟩
    · rw [hbegin]
    · have hnone : t.counts.lookup s = none := hn
      simp [hbegin, count?, List.lookup_append, hnone, tally]
    · simp [hbegin, count?, List.lookup_append, Members.lookup_cons_eq, hu]
  | succ n =>
    by_cases hdue : t.threshold ≤ n + 1
    · refine .inl ⟨by omega, ?_⟩
      simp [tally, hdue]
    · refine .inr ⟨by omega, t.bump s, ?_, h.bump s, rfl, count?_bump hn, fun u hu =>
        count?_bump_of_ne hu⟩
      simp [tally, hdue]

end Sightings

/-! ## 2. What a lexicon remembers -/

namespace Occurrence

/-- The strings at value position, without repetitions. -/
def valueTexts (os : List Occurrence) : Finset String :=
  ((os.filter fun o => o.role = .value).map Occurrence.text).toFinset

/-- How often a string has been seen at value position. -/
def timesSeen (os : List Occurrence) (s : String) : Nat :=
  os.count ⟨.value, s⟩

variable {os : List Occurrence} {o : Occurrence} {u : String}

theorem mem_valueTexts (ho : o ∈ os) (hvalue : o.role = .value) : o.text ∈ valueTexts os := by
  refine List.mem_toFinset.mpr (List.mem_map_of_mem (List.mem_filter.mpr ⟨ho, ?_⟩))
  simpa using hvalue

theorem seen_snoc_of_ne (h : u ≠ o.text) :
    (⟨.key, u⟩ ∈ os ++ [o] ↔ ⟨.key, u⟩ ∈ os) ∧ timesSeen (os ++ [o]) u = timesSeen os u := by
  obtain ⟨role, text⟩ := o
  simp [timesSeen, List.count_append, h, Ne.symm h]

/-- A string has been a key if it has been one before, or is one now. -/
theorem key_mem_snoc (os : List Occurrence) (o : Occurrence) :
    ⟨.key, o.text⟩ ∈ os ++ [o] ↔ ⟨.key, o.text⟩ ∈ os ∨ o.role = .key := by
  obtain ⟨role, text⟩ := o
  simp [eq_comm]

/-- A string has been seen once more if it is at value position now. -/
theorem timesSeen_snoc (os : List Occurrence) (o : Occurrence) :
    timesSeen (os ++ [o]) o.text = timesSeen os o.text + if o.role = .value then 1 else 0 := by
  obtain ⟨role, text⟩ := o
  cases role <;> simp [timesSeen, List.count_append]

end Occurrence

namespace Lexicon

open Occurrence

/-- Of the strings that were seen, a lexicon has in its dictionary the keys and those that recurred at
value position; the others it counts. -/
structure Remembers (threshold : Nat) (texts : Finset String) (os : List Occurrence) (l : Lexicon) :
    Prop where
  due : l.sightings.threshold = threshold
  within : l.sightings.Within texts
  mem : ∀ s, s ∈ l.entries ↔ ⟨.key, s⟩ ∈ os ∨ max 1 threshold < timesSeen os s
  counted : ∀ s, s ∉ l.entries → l.sightings.count? s = Sightings.tally (timesSeen os s)

variable {threshold : Nat} {texts : Finset String} {os : List Occurrence} {l : Lexicon}
  {o : Occurrence}

theorem remembers_new {capacity : Nat} (h : texts.card ≤ capacity) :
    Remembers threshold texts [] (new threshold capacity) where
  due := rfl
  within := ⟨h, List.nodup_nil, nofun⟩
  mem s := by simp [entries, new, Dictionary.empty, Dictionary.toList, timesSeen]
  counted s _ := rfl

/-- **What seeing one more string comes to.**  It is in the dictionary; or it is a key, or has been
seen often enough, and enters the dictionary; or it is counted once more. -/
theorem Remembers.see_cases (h : Remembers threshold texts os l)
    (ho : o.role = .value → o.text ∈ texts) :
    (o.text ∈ l.entries ∧ ∃ index, l.see o.text o.role = (some index, l)) ∨
    (o.text ∉ l.entries ∧ (o.role = .value → max 1 threshold ≤ timesSeen os o.text) ∧
      l.see o.text o.role = (some l.size, { l with
        dictionary := l.dictionary.add o.text
        sightings := l.sightings.forget o.text })) ∨
    (o.text ∉ l.entries ∧ o.role = .value ∧ timesSeen os o.text < max 1 threshold ∧
      ∃ t, l.see o.text o.role = (none, { l with sightings := t }) ∧ t.Within texts ∧
        t.threshold = threshold ∧ t.count? o.text = Sightings.tally (timesSeen os o.text + 1) ∧
        ∀ u, u ≠ o.text → t.count? u = l.sightings.count? u) := by
  obtain ⟨role, s⟩ := o
  unfold see
  cases hlookup : l.lookup s with
  | some index =>
    exact .inl ⟨List.mem_of_getElem? (getElem?_of_lookup hlookup), index, rfl⟩
  | none =>
    have hnew := not_mem_of_lookup hlookup
    right
    cases role with
    | key => exact .inl ⟨hnew, nofun, by simp [judge]⟩
    | value =>
      have hcases := h.within.see_cases (ho rfl) (h.counted s hnew)
      rw [h.due] at hcases
      rcases hcases with ⟨hdue, hsee⟩ | ⟨hless, t, hsee, hwithin, hsame, hcount, hothers⟩
      · exact .inl ⟨hnew, fun _ => hdue, by simp [judge, hsee]⟩
      · exact .inr ⟨hnew, rfl, hless, t, by simp [judge, hsee], hwithin, hsame, hcount, hothers⟩

/-- A string is written in full if it is at value position, has not been a key, and has not been seen
at value position often enough. -/
theorem Remembers.see_eq_none (h : Remembers threshold texts os l)
    (ho : o.role = .value → o.text ∈ texts) :
    (l.see o.text o.role).1 = none ↔
      o.role = .value ∧ ⟨.key, o.text⟩ ∉ os ∧ timesSeen os o.text < max 1 threshold := by
  have hmem := h.mem o.text
  rcases h.see_cases ho with ⟨hold, index, hsee⟩ | ⟨hnew, hdue, hsee⟩ | ⟨hnew, hrole, hless, t, hsee, -⟩
  · rw [hsee]
    refine ⟨nofun, fun ⟨_, hkey, hless⟩ => ?_⟩
    rcases hmem.mp hold with hk | hmore
    · exact absurd hk hkey
    · omega
  · rw [hsee]
    refine ⟨nofun, fun ⟨hrole, _, hless⟩ => ?_⟩
    have := hdue hrole
    omega
  · rw [hsee]
    exact ⟨fun _ => ⟨hrole, fun hkey => hnew (hmem.mpr (.inl hkey)), hless⟩, fun _ => rfl⟩

/-- Nothing but the string that was seen has changed, so it alone has to be accounted for. -/
theorem Remembers.of_text (h : Remembers threshold texts os l) {m : Lexicon}
    (hdue : m.sightings.threshold = threshold) (hwithin : m.sightings.Within texts)
    (hentries : ∀ u, u ≠ o.text → (u ∈ m.entries ↔ u ∈ l.entries))
    (hcounts : ∀ u, u ≠ o.text → m.sightings.count? u = l.sightings.count? u)
    (hmem : o.text ∈ m.entries ↔
      ⟨.key, o.text⟩ ∈ os ++ [o] ∨ max 1 threshold < timesSeen (os ++ [o]) o.text)
    (hcount : o.text ∉ m.entries →
      m.sightings.count? o.text = Sightings.tally (timesSeen (os ++ [o]) o.text)) :
    Remembers threshold texts (os ++ [o]) m := by
  refine ⟨hdue, hwithin, fun u => ?_, fun u hu => ?_⟩
  · by_cases heq : u = o.text
    · rw [heq]
      exact hmem
    · rw [(seen_snoc_of_ne heq).1, (seen_snoc_of_ne heq).2, hentries u heq]
      exact h.mem u
  · by_cases heq : u = o.text
    · rw [heq] at hu ⊢
      exact hcount hu
    · rw [(seen_snoc_of_ne heq).2, hcounts u heq]
      exact h.counted u fun hold => hu ((hentries u heq).mpr hold)

/-- Seeing one more string keeps what a lexicon remembers in step with what was seen.  There are
three cases: it was in the dictionary, it enters it, or it is counted. -/
theorem Remembers.after (h : Remembers threshold texts os l)
    (ho : o.role = .value → o.text ∈ texts) :
    Remembers threshold texts (os ++ [o]) (l.after o) := by
  have hmem := h.mem o.text
  have htimes := timesSeen_snoc os o
  unfold Lexicon.after
  -- In each case the string that was seen is accounted for, and `of_text` has the others.
  rcases h.see_cases ho with ⟨hold, index, hsee⟩ | ⟨hnew, hdue, hsee⟩ |
    ⟨hnew, hrole, hless, t, hsee, hwithin, hsame, hcount, hothers⟩
  · rw [hsee]
    refine h.of_text h.due h.within (fun _ _ => Iff.rfl) (fun _ _ => rfl) ?_ (absurd hold)
    refine iff_of_true hold ((hmem.mp hold).imp (List.mem_append_left _) fun hmore => ?_)
    omega
  · rw [hsee]
    have hadded : ∀ u, u ∈ (l.dictionary.add o.text).toList ↔ u ∈ l.entries ∨ u = o.text := by
      simp [entries]
    refine h.of_text h.due (h.within.forget _) (fun u hu => ?_)
      (fun u hu => Sightings.count?_forget_of_ne hu) ?_ ?_
    · simp only [entries, hadded, hu, or_false]
    · refine iff_of_true ((hadded _).mpr (.inr rfl)) ?_
      rw [key_mem_snoc, htimes]
      cases hrole : o.role with
      | key => exact .inl (.inr rfl)
      | value =>
        have hoften := hdue hrole
        simp only [if_true]
        omega
    · exact absurd ((hadded _).mpr (.inr rfl))
  · rw [hsee]
    refine h.of_text hsame hwithin (fun _ _ => Iff.rfl) hothers ?_ fun _ => ?_
    · refine iff_of_false hnew ?_
      rw [key_mem_snoc, htimes, if_pos hrole, hrole]
      have hkey : ⟨.key, o.text⟩ ∉ os := fun hkey => hnew (hmem.mpr (.inl hkey))
      simp only [hkey, reduceCtorEq, or_false, false_or]
      omega
    · rw [hcount, htimes, if_pos hrole]

/-- Seeing some more strings keeps it in step as well, by induction on them. -/
theorem Remembers.follow {more : List Occurrence} : ∀ {os : List Occurrence} {l : Lexicon},
    Remembers threshold texts os l → (∀ o ∈ more, o.role = .value → o.text ∈ texts) →
      Remembers threshold texts (os ++ more) (l.follow more) := by
  induction more with
  | nil =>
    intro os l h _
    rwa [List.append_nil]
  | cons o more ih =>
    intro os l h hmore
    obtain ⟨ho, hrest⟩ := List.forall_mem_cons.mp hmore
    have hnext := ih (h.after ho) hrest
    rwa [List.append_assoc] at hnext

/-! ## 3. Which index is written -/

/-- The index that is written is the place of the string in the dictionary then, be it an old place
or the one at the end. -/
theorem getElem?_see {s : String} {role : Role} {index : Nat}
    (h : (l.see s role).1 = some index) : (l.see s role).2.entries[index]? = some s := by
  have hseen := seen_see l s role
  revert h hseen
  generalize l.see s role = result
  intro h hseen
  cases hseen with
  | known hindex => exact Option.some.inj h ▸ hindex
  | added =>
    obtain rfl := Option.some.inj h
    simp [entries, ← length_entries]
  | passed => cases h

/-- The index of a string is an old one, and the dictionary stays as large as it is, or it is the
next one.  So the indices that are written appear in order. -/
theorem size_see (l : Lexicon) (s : String) (role : Role) :
    (l.see s role).2.size = l.size ∧ (∀ index, (l.see s role).1 = some index → index < l.size) ∨
      (l.see s role).2.size = l.size + 1 ∧ (l.see s role).1 = some l.size := by
  have hseen := seen_see l s role
  revert hseen
  generalize l.see s role = result
  intro hseen
  cases hseen with
  | known hindex =>
    refine .inl ⟨rfl, fun index heq => ?_⟩
    rw [← Option.some.inj heq, ← length_entries]
    exact (List.getElem?_eq_some_iff.mp hindex).1
  | added => exact .inr ⟨by simp [← length_entries, entries], rfl⟩
  | passed => exact .inl ⟨rfl, by simp⟩

/-- The strings of the dictionary are distinct, an index that was written is the place of its string,
and the indices were first written in order, up to the last. -/
structure Indexes (l : Lexicon) (spelled : List Spelling) : Prop where
  nodup : l.entries.Nodup
  lookup : ∀ s ∈ spelled, ∀ index, s.index = some index → l.entries[index]? = some s.text
  order : (spelled.filterMap Spelling.index).eraseDups = List.range l.size

variable {spelled : List Spelling}

theorem indexes_new (threshold capacity : Nat) : Indexes (new threshold capacity) [] :=
  ⟨List.nodup_nil, nofun, rfl⟩

/-- One more index: one that was written before, or the next one. -/
theorem eraseDups_snoc {indices : List Nat} {size index : Nat}
    (h : indices.eraseDups = List.range size) :
    (indices ++ [index]).eraseDups =
      if index < size then List.range size else List.range size ++ [index] := by
  have hmem : index ∈ indices ↔ index < size := by
    rw [← List.mem_eraseDups, h, List.mem_range]
  rw [List.eraseDups_append, h]
  by_cases hlt : index < size
  · simp [List.removeAll, hmem.mpr hlt, hlt]
  · simp [List.removeAll, mt hmem.mp hlt, hlt, List.eraseDups_cons]

/-- Spelling one more string keeps the indices in order.  Those from before stay where they are, as
the dictionary grows at its end. -/
theorem Indexes.after (h : Indexes l spelled) (o : Occurrence) :
    Indexes (l.after o) (spelled ++ [⟨o, (l.see o.text o.role).1⟩]) := by
  refine ⟨nodup_see h.nodup, fun s hs index hindex => ?_, ?_⟩
  · rcases List.mem_append.mp hs with hs | hs
    · obtain ⟨more, hmore⟩ : l.entries <+: (l.after o).entries := entries_see l o.text o.role
      have hlookup := h.lookup s hs index hindex
      rw [← hmore, List.getElem?_append_left (List.getElem?_eq_some_iff.mp hlookup).1, hlookup]
    · obtain rfl := List.mem_singleton.mp hs
      exact getElem?_see hindex
  · rw [List.filterMap_append, Lexicon.after]
    rcases size_see l o.text o.role with ⟨hsize, hold⟩ | ⟨hsize, hnext⟩
    · rw [hsize]
      cases hindex : (l.see o.text o.role).1 with
      | none => simpa using h.order
      | some index =>
        have hlt := hold index hindex
        simp [eraseDups_snoc h.order, hlt]
    · rw [hsize, hnext]
      simp [eraseDups_snoc h.order, List.range_succ]

/-- Spelling some more strings keeps them in order as well. -/
theorem Indexes.follow {os : List Occurrence} : ∀ {l : Lexicon} {spelled : List Spelling},
    Indexes l spelled → Indexes (l.follow os) (spelled ++ l.spell os) := by
  induction os with
  | nil =>
    intro l spelled h
    rwa [spell, List.append_nil]
  | cons o os ih =>
    intro l spelled h
    have hnext := ih (h.after o)
    rwa [List.append_assoc] at hnext

/-- Strings that are written by an index have the same if they are the same, since no string is in
the dictionary twice. -/
theorem Indexes.same_iff (h : Indexes l spelled) {s t : Spelling} (hs : s ∈ spelled)
    (ht : t ∈ spelled) {i j : Nat} (hi : s.index = some i) (hj : t.index = some j) :
    s.text = t.text ↔ i = j := by
  have hleft := h.lookup s hs i hi
  have hright := h.lookup t ht j hj
  constructor
  · intro heq
    rw [← heq] at hright
    have hlt := (List.getElem?_eq_some_iff.mp hleft).1
    exact (List.getElem?_inj hlt h.nodup).mp (hleft.trans hright.symm)
  · rintro rfl
    exact Option.some.inj (hleft.symm.trans hright)

/-! ## 4. Along a stream -/

/-- What has been announced has no say in how strings are spelled.  It only decides what the next
`add` record has to say. -/
theorem see_announced (l : Lexicon) (a : Nat) (s : String) (role : Role) :
    ({ l with announced := a } : Lexicon).see s role =
      ((l.see s role).1, { (l.see s role).2 with announced := a }) := by
  unfold see
  have hlookup : ({ l with announced := a } : Lexicon).lookup s = l.lookup s := rfl
  have hjudge : ({ l with announced := a } : Lexicon).judge s role = l.judge s role := by
    cases role <;> rfl
  rw [hlookup, hjudge]
  cases l.lookup s with
  | some index => rfl
  | none =>
    dsimp only
    split <;> rfl

/-- So the same strings are spelled the same. -/
theorem spell_announced (a : Nat) : ∀ (os : List Occurrence) (l : Lexicon),
    ({ l with announced := a } : Lexicon).spell os = l.spell os
  | [], _ => rfl
  | o :: os, l => by
    rw [spell, spell, after, see_announced]
    exact congrArg _ (spell_announced a os _)

end Lexicon

namespace Encoder

variable {e : Encoder} {v : Json}

/-- Announcing strings changes nothing else of a lexicon. -/
theorem exists_announced (e : Encoder) :
    ∃ a, e.announce.state.lexicon = { e.lexicon with announced := a } := by
  rw [announce]
  split
  · exact ⟨_, rfl⟩
  · exact ⟨_, rfl⟩

/-- A value that is not too deep, where no epoch ever ends: its payload has its strings spelled as the
lexicon decides, which remembers them. -/
theorem put_spelt (hstarted : e.started = true) (hepoch : e.options.clearThreshold = none)
    (hv : v.depth ≤ e.options.maxNestingDepth) :
    (∃ payload, (Call.put v).payloads e = [payload] ∧
        Spelt v (e.lexicon.spell v.occurrences) payload) ∧
      (e.put v).state.started = true ∧
      ∃ a, (e.put v).state.lexicon = { e.lexicon.follow v.occurrences with announced := a } := by
  have hrenew : e.renew = .skip e := by simp [renew, isFull, hepoch]
  have hpayload : (e.payload v).outcome = .ok () := (Payload.outcome_write _ v e.lexicon).mpr hv
  have hput : e.put v = (e.seen v).announce.andThen (emitValue (e.payload v).bytes) := by
    rw [put_eq hstarted, hrenew, Emission.skip_andThen, putValue_eq, hpayload]
  obtain ⟨hspelt, hstate⟩ := Payload.spelt_write _ v e.lexicon hpayload
  have hok : (e.put v).outcome = .ok () := (put_of_le hv).1
  obtain ⟨a, ha⟩ := exists_announced (e.seen v)
  refine ⟨⟨_, ?_, hspelt⟩, ?_, a, ?_⟩
  · rw [Call.payloads, hok, hrenew]
    rfl
  · rw [hput, Emission.andThen_of_ok (outcome_announce _)]
    exact (started_announce _).trans hstarted
  · rw [hput, Emission.andThen_of_ok (outcome_announce _)]
    show (e.seen v).announce.state.lexicon = _
    rw [ha, ← hstate]
    rfl

/-- The payloads of some values, one after the other, have all strings spelled as the lexicon decides
that sees one after the other. -/
theorem puts_spelt {values : List Json} : ∀ {e : Encoder}, e.started = true →
    e.options.clearThreshold = none → (∀ v ∈ values, v.depth ≤ e.options.maxNestingDepth) →
      SpeltEach values (e.lexicon.spell (values.flatMap Json.occurrences))
        (Call.allPayloads e (values.map .put)) := by
  induction values with
  | nil => exact fun _ _ _ => .nil
  | cons v values ih =>
    intro e hstarted hepoch hdepth
    obtain ⟨hv, hrest⟩ := List.forall_mem_cons.mp hdepth
    obtain ⟨⟨payload, hpayload, hspelt⟩, hnext, a, ha⟩ := put_spelt hstarted hepoch hv
    have hoptions := (put_of_le hv).2
    have htail := ih hnext (hoptions ▸ hepoch) (hoptions ▸ hrest)
    rw [ha, Lexicon.spell_announced] at htail
    rw [List.flatMap_cons, Lexicon.spell_append, List.map_cons, Call.allPayloads, hpayload]
    exact .cons hspelt htail

end Encoder

/-- A stream starts with a lexicon to which nothing has happened. -/
theorem Output.lexicon_start (options : EncodeOptions) :
    (start options).encoder.lexicon = .ofOptions options := by
  show (Lexicon.ofOptions options).clear options.resetUsageOnClear = _
  unfold Lexicon.clear
  split <;> rfl

/-- How the strings of a stream are spelled: a key always by an index; a string at value position in
full exactly if it has not been a key, and has been at value position less often than the threshold
says; the same string by the same index; and the indices are 0, 1, 2 and so on, in the order in which
they are first written. -/
structure SpelledByHistory (threshold : Nat) (spelled : List Spelling) : Prop where
  key : ∀ s ∈ spelled, s.role = .key → s.index ≠ none
  value : ∀ earlier s later, spelled = earlier ++ s :: later → s.role = .value →
    (s.index = none ↔ ⟨.key, s.text⟩ ∉ earlier.map Spelling.toOccurrence ∧
      Occurrence.timesSeen (earlier.map Spelling.toOccurrence) s.text < max 1 threshold)
  same : ∀ s ∈ spelled, ∀ t ∈ spelled, ∀ i j, s.index = some i → t.index = some j →
    (s.text = t.text ↔ i = j)
  order : ∃ size, (spelled.filterMap Spelling.index).eraseDups = List.range size

section Spelled

variable {threshold : Nat} {ss ts front : List Spelling} {s t : Spelling}

/-- What a lexicon decides, from the start of a stream, is told by the history: both what it
remembers and its indices are kept in step. -/
theorem Lexicon.spelledByHistory {texts : Finset String} {os : List Occurrence} {l : Lexicon}
    (hremembers : l.Remembers threshold texts []) (hindexes : l.Indexes [])
    (hos : ∀ o ∈ os, o.role = .value → o.text ∈ texts) :
    SpelledByHistory threshold (l.spell os) := by
  have hindexed : (l.follow os).Indexes (l.spell os) := hindexes.follow
  have hfull : ∀ earlier s later, l.spell os = earlier ++ s :: later →
      (s.index = none ↔ s.role = .value ∧
        ⟨.key, s.text⟩ ∉ earlier.map Spelling.toOccurrence ∧
          Occurrence.timesSeen (earlier.map Spelling.toOccurrence) s.text < max 1 threshold) := by
    intro earlier s later heq
    have hsplit : os = earlier.map Spelling.toOccurrence ++
        s.toOccurrence :: later.map Spelling.toOccurrence := by
      rw [← map_spell l os, heq, List.map_append, List.map_cons]
    rw [hsplit] at hos
    have hbefore := hremembers.follow fun o ho => hos o (List.mem_append_left _ ho)
    rw [spell_eq_append heq]
    exact hbefore.see_eq_none (hos _ (List.mem_append_right _ (List.mem_cons_self ..)))
  refine ⟨fun s hs hkey hnone => ?_, fun earlier s later heq hvalue => ?_,
    fun s hs t ht i j hi hj => hindexed.same_iff hs ht hi hj, _, hindexed.order⟩
  · obtain ⟨earlier, later, heq⟩ := List.append_of_mem hs
    have hvalue := ((hfull earlier s later heq).mp hnone).1
    rw [hkey] at hvalue
    cases hvalue
  · rw [hfull earlier s later heq, and_iff_right hvalue]

/-- Where numbers first appear in order, one that has not appeared is the next.  So the index of a
new string is told by the ones before it. -/
theorem eq_length_of_eraseDups {xs ys : List Nat} {i size : Nat}
    (h : (xs ++ i :: ys).eraseDups = List.range size) (hnew : i ∉ xs) :
    i = xs.eraseDups.length := by
  have hkept : (i :: ys).removeAll xs = i :: ys.removeAll xs := by
    simp [List.removeAll, hnew]
  rw [List.eraseDups_append, hkept, List.eraseDups_cons] at h
  have hlt : xs.eraseDups.length < size := by
    have hlength := congrArg List.length h
    simp only [List.length_append, List.length_cons, List.length_range] at hlength
    omega
  have hat := congrArg (fun all => all[xs.eraseDups.length]?) h
  simpa [List.getElem?_range hlt] using hat

/-- The same string behind the same strings, spelled by history, is spelled the same.  This is the
step by which two spellings of the same strings are seen to be one. -/
theorem SpelledByHistory.eq_behind (hs : SpelledByHistory threshold (front ++ s :: ss))
    (ht : SpelledByHistory threshold (front ++ t :: ts))
    (h : s.toOccurrence = t.toOccurrence) : s = t := by
  obtain ⟨o, i⟩ := s
  obtain ⟨_, j⟩ := t
  obtain rfl : o = _ := h
  have hmem : ∀ {s : Spelling} {ss : List Spelling}, s ∈ front ++ s :: ss :=
    List.mem_append_right _ (List.mem_cons_self ..)
  have hnone : i = none ↔ j = none := by
    cases hrole : o.role with
    | key => exact iff_of_false (hs.key _ hmem hrole) (ht.key _ hmem hrole)
    | value => exact (hs.value _ _ _ rfl hrole).trans (ht.value _ _ _ rfl hrole).symm
  cases i with
  | none => rw [hnone.mp rfl]
  | some i =>
    cases j with
    | none => cases hnone.mpr rfl
    | some j =>
      by_cases hold : ∃ s ∈ front, s.text = o.text ∧ ∃ k, s.index = some k
      · -- The string was referred to before, and both keep to that.
        obtain ⟨s, hfront, htext, k, hk⟩ := hold
        have hboth := fun {ts : List Spelling} => List.mem_append_left ts hfront
        rw [← (hs.same s hboth _ hmem k i hk rfl).mp htext,
          ← (ht.same s hboth _ hmem k j hk rfl).mp htext]
      · -- It was not, so both are the first index that no other string has.
        have hnew : ∀ {index : Nat} {ts : List Spelling},
            SpelledByHistory threshold (front ++ ⟨o, some index⟩ :: ts) →
              index = (front.filterMap Spelling.index).eraseDups.length := by
          intro index ts h
          obtain ⟨size, horder⟩ := h.order
          rw [List.filterMap_append,
            List.filterMap_cons_some (show Spelling.index ⟨o, some index⟩ = some index from rfl)]
            at horder
          refine eq_length_of_eraseDups horder fun hmemb => ?_
          obtain ⟨s, hfront, hk⟩ := List.mem_filterMap.mp hmemb
          have htext := (h.same s (List.mem_append_left _ hfront) _ hmem index index hk rfl).mpr rfl
          exact hold ⟨s, hfront, htext, index, hk⟩
        rw [hnew hs, hnew ht]

/-- What was seen leaves nothing open: there is one way to spell some strings by history.

The induction is on the strings that are still to come, behind any that are spelled already. -/
theorem SpelledByHistory.unique (hs : SpelledByHistory threshold ss)
    (ht : SpelledByHistory threshold ts)
    (h : ss.map Spelling.toOccurrence = ts.map Spelling.toOccurrence) : ss = ts := by
  suffices hfront : ∀ {front ss ts : List Spelling}, SpelledByHistory threshold (front ++ ss) →
      SpelledByHistory threshold (front ++ ts) →
        ss.map Spelling.toOccurrence = ts.map Spelling.toOccurrence → ss = ts from
    @hfront [] _ _ hs ht h
  intro front ss
  induction ss generalizing front with
  | nil =>
    intro ts _ _ h
    exact (List.map_eq_nil_iff.mp h.symm).symm
  | cons s ss ih =>
    intro ts hs ht h
    cases ts with
    | nil => cases h
    | cons t ts =>
      obtain ⟨hhead, htail⟩ := List.cons.inj h
      obtain rfl := hs.eq_behind ht hhead
      rw [List.append_cons] at hs ht
      rw [ih hs ht htail]

end Spelled

open Wire in
/-- **How the strings of a stream are spelled.**  Some values that are not too deep are encoded,
where no epoch ends before the stream does and there is room to count every string that occurs at
value position.  They can be, as a header, a clear record, and further records; there is one way to
find the strings of the values in the payloads of these, and it is the one way to spell them by
history. -/
theorem spelled_by_history {values : List Json} {options : EncodeOptions}
    (hepoch : options.clearThreshold = none)
    (hdepth : ∀ v ∈ values, v.depth ≤ options.maxNestingDepth)
    (hroom : (Occurrence.valueTexts (values.flatMap Json.occurrences)).card ≤
      options.internCacheSize) :
    ∃ (drafts : List Draft) (spelled : List Spelling),
      encodeValues values options =
        .ok ((Draft.header :: Draft.clear :: drafts).flatMap Draft.bytes) ∧
      (∀ ss, SpeltEach values ss (drafts.filterMap Draft.payload?) ↔ ss = spelled) ∧
      (∀ ss, ss.map Spelling.toOccurrence = values.flatMap Json.occurrences ∧
        SpelledByHistory options.internThreshold ss ↔ ss = spelled) := by
  obtain ⟨drafts, hbytes, -, hpayloads⟩ :=
    Output.shapes_run (values.map .put) (Output.sound_start options)
  have hencoded : encodeValues values options = .ok (stream options values) :=
    encodeValues_eq_ok.mpr ⟨hdepth, rfl⟩
  have hspelt := @Encoder.puts_spelt values (Output.start options).encoder rfl hepoch hdepth
  rw [Output.lexicon_start] at hspelt
  have hhistory : SpelledByHistory options.internThreshold
      ((Lexicon.ofOptions options).spell (values.flatMap Json.occurrences)) :=
    Lexicon.spelledByHistory (Lexicon.remembers_new hroom) (Lexicon.indexes_new _ _)
      fun o => Occurrence.mem_valueTexts
  have hmap := Lexicon.map_spell (.ofOptions options) (values.flatMap Json.occurrences)
  refine ⟨drafts, (Lexicon.ofOptions options).spell (values.flatMap Json.occurrences), ?_,
    fun ss => ⟨fun h => ?_, ?_⟩, fun ss => ⟨fun ⟨hss, h⟩ => ?_, ?_⟩⟩
  · rw [hencoded, bytes_of_encoded hencoded, hbytes, bytes_start]
    simp
  · rw [hpayloads] at h
    exact h.unique hspelt
  · rintro rfl
    rw [hpayloads]
    exact hspelt
  · exact h.unique hhistory (hss.trans hmap.symm)
  · rintro rfl
    exact ⟨hmap, hhistory⟩

/-- Two strings at value position, one of them also a key, and room to count two. -/
theorem spelled_by_history_two :
    let values : List Json := [.object [("k", .string "a")],
      .array [.string "a", .string "a", .string "k", .string "a"]]
    let options : EncodeOptions := { internThreshold := 2, internCacheSize := 2 }
    (Occurrence.valueTexts (values.flatMap Json.occurrences)).card = options.internCacheSize ∧
    ∃ (drafts : List Wire.Draft) (spelled : List Spelling),
      encodeValues values options =
        .ok ((Wire.Draft.header :: Wire.Draft.clear :: drafts).flatMap Wire.Draft.bytes) ∧
      (∀ ss, SpeltEach values ss (drafts.filterMap Wire.Draft.payload?) ↔ ss = spelled) ∧
      (∀ ss, ss.map Spelling.toOccurrence = values.flatMap Json.occurrences ∧
        SpelledByHistory options.internThreshold ss ↔ ss = spelled) :=
  ⟨by decide, spelled_by_history rfl (by decide) (by decide)⟩

end DictLog
