/-
# Which strings are counted, told from what happened

Counting forgets the string whose counting began first, however often it was seen since.  Here the
counts are told from the history alone: a string is **live** since the last time that it was seen while
it was not counted (`LiveSince`), its count is how often it was seen from then on, and where there
is no room, the string that is live for longest goes (`ByHistory`).

What carries this is that the list of counts is in the order in which the strings became live
(`Dated`), and that every event keeps it so (`Dated.after`): whoever is bumped stays where it is,
whoever leaves disturbs no other, and whoever comes goes to the end.

The counts may be kept in any **cache** that drops what was used least recently, as long as looking at a
count is no use of it (`LawfulCache`): such counts are those of `Sightings` (`Shows.after`).
-/
import DictLog.Proofs.Interning

namespace DictLog

namespace Sightings

/-! ## 1. Histories -/

/-- What may happen to the strings being counted. -/
inductive Event where
  | see (s : String)
  | forget (s : String)
  | clear
  deriving DecidableEq, Repr

/-- The counts after an event. -/
def on (t : Sightings) : Event → Sightings
  | .see s => (t.see s).2
  | .forget s => t.forget s
  | .clear => t.clear

/-- The counts after some events. -/
def after (t : Sightings) (events : List Event) : Sightings :=
  events.foldl on t

/-- The last time that the string was seen while it was not counted was event number `i`. -/
structure LiveSince (start : Sightings) (events : List Event) (s : String) (i : Nat) : Prop where
  seen : events[i]? = some (.see s)
  fresh : (start.after (events.take i)).count? s = none
  last : ∀ j, i < j → events[j]? = some (.see s) → (start.after (events.take j)).count? s ≠ none

/-- How often the string was seen, from event number `i` on. -/
def seenFrom (events : List Event) (s : String) (i : Nat) : Nat :=
  (events.drop i).count (.see s)

/-- The string is counted, and is live for longer than any other that is counted. -/
structure Oldest (start : Sightings) (events : List Event) (s : String) : Prop where
  counted : (start.after events).count? s ≠ none
  first : ∀ u, u ≠ s → (start.after events).count? u ≠ none → ∀ i j,
    LiveSince start events s i → LiveSince start events u j → i < j

/-- What is counted after some events, and what becomes of it at the next, told from the events. -/
structure ByHistory (start : Sightings) (events : List Event) : Prop where
  /-- No string is counted twice, and there are no more than there is room for. -/
  nodup : (start.after events).strings.Nodup
  few : (start.after events).size ≤ start.capacity
  /-- A count is how often the string was seen since it is live. -/
  count : ∀ s n, (start.after events).count? s = some n →
    ∃ i, LiveSince start events s i ∧ n = seenFrom events s i
  /-- A string is due once it was seen often enough, -/
  due : ∀ s, ((start.after events).see s).1 = true ↔ (start.after events).count? s ≠ none ∧
    ∃ i, LiveSince start events s i ∧ max 1 start.threshold ≤ seenFrom events s i
  /-- and then it is no longer counted. -/
  done : ∀ s, ((start.after events).see s).1 = true →
    ((start.after events).see s).2.count? s = none
  /-- A string begins to be counted by being seen. -/
  enters : ∀ s event, (start.after events).count? s = none →
    (((start.after events).on event).count? s ≠ none ↔ event = .see s)
  /-- It ceases to be counted when it is due, or forgotten, or with all others, or when it is the
  oldest and another needs its place. -/
  leaves : ∀ s event, (start.after events).count? s ≠ none →
    (((start.after events).on event).count? s = none ↔
      (event = .see s ∧ ((start.after events).see s).1 = true) ∨ event = .forget s ∨
        event = .clear ∨
        ∃ u, event = .see u ∧ (start.after events).count? u = none ∧
          (start.after events).size = start.capacity ∧ Oldest start events s)
  /-- Where all places are taken, a string that comes takes one. -/
  evicts : ∀ u, (start.after events).count? u = none →
    (start.after events).size = start.capacity → ∃ s, Oldest start events s

variable {start t : Sightings} {events : List Event} {event : Event} {s u : String} {i j n : Nat}

theorem after_snoc (start : Sightings) (events : List Event) (event : Event) :
    start.after (events ++ [event]) = (start.after events).on event := by
  simp [after]

theorem LiveSince.lt_length (h : LiveSince start events s i) : i < events.length :=
  (List.getElem?_eq_some_iff.mp h.seen).1

/-- There is one such number at most, since each of two would be the last. -/
theorem LiveSince.unique (h : LiveSince start events s i) (k : LiveSince start events s j) :
    i = j := by
  rcases Nat.lt_trichotomy i j with hlt | heq | hlt
  · exact absurd k.fresh (h.last j hlt k.seen)
  · exact heq
  · exact absurd h.fresh (k.last i hlt h.seen)

/-- One more event makes no difference to when a string became live, unless the string is seen while
it is not counted. -/
theorem liveSince_snoc (h : event = .see s → (start.after events).count? s ≠ none) :
    LiveSince start (events ++ [event]) s i ↔ LiveSince start events s i := by
  have hfront : ∀ j ≤ events.length, (events ++ [event]).take j = events.take j := fun j hj =>
    List.take_append_of_le_length hj
  constructor
  · intro hlive
    have hlt : i < events.length := by
      have hle := hlive.lt_length
      rw [List.length_append, List.length_singleton] at hle
      rcases Nat.lt_or_ge i events.length with hlt | hge
      · exact hlt
      · obtain rfl : i = events.length := by omega
        have hseen := hlive.seen
        have hfresh := hlive.fresh
        rw [List.getElem?_concat_length, Option.some.injEq] at hseen
        rw [List.take_left] at hfresh
        exact absurd hfresh (h hseen)
    refine ⟨?_, ?_, fun j hij hj => ?_⟩
    · rw [← hlive.seen, List.getElem?_append_left hlt]
    · rw [← hlive.fresh, hfront i (Nat.le_of_lt hlt)]
    · have hj' := (List.getElem?_eq_some_iff.mp hj).1
      rw [← hfront j (Nat.le_of_lt hj')]
      exact hlive.last j hij (by rwa [List.getElem?_append_left hj'])
  · intro hlive
    have hlt := hlive.lt_length
    refine ⟨?_, ?_, fun j hij hj => ?_⟩
    · rw [List.getElem?_append_left hlt]
      exact hlive.seen
    · rw [hfront i (Nat.le_of_lt hlt)]
      exact hlive.fresh
    · rcases Nat.lt_or_ge j events.length with hj' | hj'
      · rw [hfront j (Nat.le_of_lt hj')]
        rw [List.getElem?_append_left hj'] at hj
        exact hlive.last j hij hj
      · have hle := (List.getElem?_eq_some_iff.mp hj).1
        rw [List.length_append, List.length_singleton] at hle
        obtain rfl : j = events.length := by omega
        rw [List.getElem?_concat_length, Option.some.injEq] at hj
        rw [List.take_left]
        exact h hj

/-- A string that is seen while it is not counted is live from here on.  No earlier sighting counts
for it any more. -/
theorem liveSince_see (h : (start.after events).count? s = none) :
    LiveSince start (events ++ [.see s]) s i ↔ i = events.length := by
  have hself : LiveSince start (events ++ [.see s]) s events.length := by
    refine ⟨List.getElem?_concat_length .., ?_, fun j hij hj => ?_⟩
    · rw [List.take_left]
      exact h
    · have hle := (List.getElem?_eq_some_iff.mp hj).1
      rw [List.length_append, List.length_singleton] at hle
      omega
  constructor
  · exact fun hlive => hlive.unique hself
  · rintro rfl
    exact hself

/-- One more event counts if the string is seen in it. -/
theorem seenFrom_snoc (h : i ≤ events.length) (event : Event) :
    seenFrom (events ++ [event]) s i =
      seenFrom events s i + if event = .see s then 1 else 0 := by
  rw [seenFrom, List.drop_append_of_le_length h, List.count_append, List.count_singleton]
  by_cases heq : event = .see s <;> simp [seenFrom, heq]

/-! ## 2. The counts are in the order of becoming live -/

/-- Counts as they are after some events: each string was seen so often since it is live, and those
that stand in front are live for longer. -/
structure Dated (start : Sightings) (events : List Event) (t : Sightings) : Prop where
  threshold : t.threshold = start.threshold
  capacity : t.capacity = start.capacity
  nodup : t.strings.Nodup
  few : t.size ≤ t.capacity
  live : ∀ entry ∈ t.counts, ∃ i, LiveSince start events entry.1 i ∧
    entry.2 = seenFrom events entry.1 i
  ordered : t.strings.Pairwise fun s u => ∀ i j,
    LiveSince start events s i → LiveSince start events u j → i < j

theorem count?_eq_none : t.count? s = none ↔ s ∉ t.strings := by
  refine ⟨not_mem_strings, fun h => List.lookup_eq_none_iff.mpr fun entry hentry => ?_⟩
  rw [bne_iff_ne]
  rintro rfl
  exact h (List.mem_map_of_mem hentry)

theorem count?_ne_none : t.count? s ≠ none ↔ s ∈ t.strings := by
  rw [Ne, count?_eq_none, not_not]

theorem mem_of_count? (h : t.count? s = some n) : (s, n) ∈ t.counts := by
  obtain ⟨front, back, heq, -⟩ := List.lookup_eq_some_iff.mp h
  rw [heq]
  exact List.mem_append_right _ (List.mem_cons_self ..)

theorem length_strings (t : Sightings) : t.strings.length = t.size :=
  List.length_map _

theorem strings_forget (t : Sightings) (s : String) :
    (t.forget s).strings = t.strings.filter (· != s) := by
  simp [strings, Sightings.forget, List.filter_map, Function.comp_def]

/-- The strings that keep their places where one begins to be counted. -/
def kept (t : Sightings) : Sightings :=
  { t with counts := if t.counts.length < t.capacity then t.counts else t.counts.drop 1 }

theorem begin_eq (t : Sightings) (s : String) :
    t.begin s = { t with counts := t.kept.counts ++ [(s, 1)] } := rfl

theorem strings_begin (t : Sightings) (s : String) :
    (t.begin s).strings = t.kept.strings ++ [s] := by
  simp [begin_eq, strings]

theorem strings_kept (t : Sightings) :
    t.kept.strings = if t.size < t.capacity then t.strings else t.strings.drop 1 := by
  unfold kept strings size
  split
  · rfl
  · exact List.map_drop

theorem sublist_kept (t : Sightings) : t.kept.strings.Sublist t.strings := by
  rw [strings_kept]
  split
  · exact List.Sublist.refl _
  · exact List.drop_sublist ..

theorem counts_kept (t : Sightings) : t.kept.counts ⊆ t.counts := by
  intro entry hentry
  unfold kept at hentry
  split at hentry
  · exact hentry
  · exact List.mem_of_mem_drop hentry

theorem nodup_begin (hnodup : t.strings.Nodup) (hnew : t.count? s = none) :
    (t.begin s).strings.Nodup := by
  have hsub := sublist_kept t
  rw [strings_begin, List.nodup_append]
  refine ⟨hnodup.sublist hsub, List.nodup_singleton s, fun u hu v hv heq => ?_⟩
  obtain rfl := List.mem_singleton.mp hv
  exact count?_eq_none.mp hnew (hsub.subset (heq ▸ hu))

/-- Beginning a count finds room: where all places are taken, the oldest leaves. -/
theorem size_begin_le (hcapacity : t.capacity ≠ 0) (hfew : t.size ≤ t.capacity) (s : String) :
    (t.begin s).size ≤ t.capacity := by
  have hlength := congrArg List.length (strings_kept t)
  rw [← length_strings, strings_begin, List.length_append, List.length_singleton, hlength]
  split
  · rw [length_strings]
    omega
  · rw [List.length_drop, length_strings]
    omega

/-- What seeing a string comes to: it is due, or it is counted once more, or for the first time.  All
that is shown of sightings is shown for these three cases. -/
theorem see_cases (hcapacity : t.capacity ≠ 0) (s : String) :
    (∃ n, t.count? s = some n ∧ t.threshold ≤ n ∧ t.see s = (true, t.forget s)) ∨
      (∃ n, t.count? s = some n ∧ n < t.threshold ∧ t.see s = (false, t.bump s)) ∨
      (t.count? s = none ∧ t.see s = (false, t.begin s)) := by
  unfold see
  rw [if_neg hcapacity]
  cases hcount : t.count? s with
  | none => exact .inr (.inr ⟨rfl, rfl⟩)
  | some n =>
    rcases Nat.lt_or_ge n t.threshold with hless | hdue
    · exact .inr (.inl ⟨n, rfl, hless, if_neg (Nat.not_le.mpr hless)⟩)
    · exact .inl ⟨n, rfl, hdue, if_pos hdue⟩

/-- Strings that were counted before, in the same order, and once more if they were seen.  This is
every event but one that begins a count, which drops a string or none and then adds one. -/
theorem Dated.keep (h : Dated start events (start.after events))
    (hthreshold : t.threshold = start.threshold) (hcapacity : t.capacity = start.capacity)
    (hsub : t.strings.Sublist (start.after events).strings)
    (hcounts : ∀ entry ∈ t.counts, ∃ n, (entry.1, n) ∈ (start.after events).counts ∧
      entry.2 = n + if event = .see entry.1 then 1 else 0) :
    Dated start (events ++ [event]) t := by
  have hsame : ∀ {s : String} {i : Nat}, s ∈ t.strings →
      (LiveSince start (events ++ [event]) s i ↔ LiveSince start events s i) := fun hs =>
    liveSince_snoc fun _ => count?_ne_none.mpr (hsub.subset hs)
  refine ⟨hthreshold, hcapacity, h.nodup.sublist hsub, ?_, fun entry hentry => ?_, ?_⟩
  · have hlength := hsub.length_le
    rw [length_strings, length_strings] at hlength
    rw [hcapacity, ← h.capacity]
    exact Nat.le_trans hlength h.few
  · obtain ⟨n, hold, hn⟩ := hcounts entry hentry
    obtain ⟨i, hlive, hseen⟩ := h.live _ hold
    refine ⟨i, (hsame (List.mem_map_of_mem hentry)).mpr hlive, ?_⟩
    rw [seenFrom_snoc (Nat.le_of_lt hlive.lt_length), hn, ← hseen]
  · refine (h.ordered.sublist hsub).imp_of_mem fun hs hu hlt i j hi hj => ?_
    exact hlt i j ((hsame hs).mp hi) ((hsame hu).mp hj)

/-- A string that leaves disturbs no other. -/
theorem Dated.forget (h : Dated start events (start.after events)) (s : String)
    (hevent : ∀ u, event = .see u → u = s) :
    Dated start (events ++ [event]) ((start.after events).forget s) := by
  refine h.keep h.threshold h.capacity ?_ fun entry hentry => ?_
  · rw [strings_forget]
    exact List.filter_sublist
  · obtain ⟨hold, hne⟩ := List.mem_filter.mp hentry
    refine ⟨entry.2, hold, ?_⟩
    rw [if_neg fun hsee => (bne_iff_ne.mp hne) (hevent _ hsee), Nat.add_zero]

/-- One that is counted once more stays where it is. -/
theorem Dated.bump (h : Dated start events (start.after events)) (s : String) :
    Dated start (events ++ [.see s]) ((start.after events).bump s) := by
  refine h.keep h.threshold h.capacity ?_ fun entry hentry => ?_
  · rw [strings_bump]
  · obtain ⟨⟨u, n⟩, hold, rfl⟩ := List.mem_map.mp hentry
    refine ⟨n, ?_⟩
    by_cases hu : u = s
    · subst hu
      simpa using hold
    · simpa [hu, Ne.symm hu] using hold

/-- A string that begins to be counted goes to the end, where it is live for the shortest time.  If
another lost its place for it, the rest keep theirs and their order. -/
theorem Dated.begin (h : Dated start events (start.after events)) (hcapacity : start.capacity ≠ 0)
    (hnew : (start.after events).count? s = none) :
    Dated start (events ++ [.see s]) ((start.after events).begin s) := by
  have hsub := sublist_kept (start.after events)
  have hsnot : s ∉ (start.after events).kept.strings := fun hs =>
    count?_eq_none.mp hnew (hsub.subset hs)
  have hkept : Dated start (events ++ [.see s]) (start.after events).kept := by
    refine h.keep h.threshold h.capacity hsub fun entry hentry =>
      ⟨entry.2, counts_kept _ hentry, ?_⟩
    have hne : s ≠ entry.1 := fun heq => hsnot (heq ▸ List.mem_map_of_mem hentry)
    simp [hne]
  refine ⟨h.threshold, h.capacity, nodup_begin h.nodup hnew,
    size_begin_le (h.capacity ▸ hcapacity) h.few s, fun entry hentry => ?_, ?_⟩
  · rw [begin_eq] at hentry
    rcases List.mem_append.mp hentry with hold | hself
    · exact hkept.live entry hold
    · obtain rfl := List.mem_singleton.mp hself
      refine ⟨events.length, (liveSince_see hnew).mpr rfl, ?_⟩
      rw [seenFrom_snoc (Nat.le_refl _)]
      simp [seenFrom]
  · rw [strings_begin, List.pairwise_append]
    refine ⟨hkept.ordered, List.pairwise_singleton _ _, fun u hu v hv i j hi hj => ?_⟩
    obtain rfl := List.mem_singleton.mp hv
    rw [liveSince_see hnew] at hj
    rw [liveSince_snoc fun _ => count?_ne_none.mpr (hsub.subset hu)] at hi
    rw [hj]
    exact hi.lt_length

/-- Every event keeps the counts in order.  Only one that begins a count puts anything new among
them. -/
theorem Dated.on (h : Dated start events (start.after events)) (hcapacity : start.capacity ≠ 0)
    (event : Event) : Dated start (events ++ [event]) ((start.after events).on event) := by
  cases event with
  | forget s => exact h.forget s fun _ => nofun
  | clear => exact h.keep h.threshold h.capacity (List.nil_sublist _) nofun
  | see s =>
    change Dated start _ ((start.after events).see s).2
    rcases see_cases (h.capacity ▸ hcapacity) s with
      ⟨n, -, -, hsee⟩ | ⟨n, -, -, hsee⟩ | ⟨hnew, hsee⟩
    · rw [hsee]
      exact h.forget s fun u hu => (Event.see.inj hu).symm
    · rw [hsee]
      exact h.bump s
    · rw [hsee]
      exact h.begin hcapacity hnew

/-- So they are in order after any events. -/
theorem dated_after (hcapacity : start.capacity ≠ 0) (hempty : start.counts = [])
    (events : List Event) : Dated start events (start.after events) := by
  induction events using List.reverseRecOn with
  | nil =>
    have hnone : start.strings = [] := by simp [strings, hempty]
    refine ⟨rfl, rfl, ?_, ?_, ?_, ?_⟩ <;> simp [after, hnone, hempty, size]
  | append_singleton events event ih =>
    rw [after_snoc]
    exact ih.on hcapacity event

/-! ## 3. What is told from the events -/

/-- The oldest is the one in front.  The strings are in the order in which they began to be counted,
and no two began with the same event. -/
theorem Dated.oldest_iff (h : Dated start events (start.after events)) :
    Oldest start events s ↔ (start.after events).strings.head? = some s := by
  have hlive : ∀ u ∈ (start.after events).strings, ∃ i, LiveSince start events u i := by
    intro u hu
    obtain ⟨entry, hentry, rfl⟩ := List.mem_map.mp hu
    obtain ⟨i, hi, -⟩ := h.live entry hentry
    exact ⟨i, hi⟩
  have hordered := h.ordered
  have hnodup := h.nodup
  cases hstrings : (start.after events).strings with
  | nil =>
    refine iff_of_false (fun hold => ?_) nofun
    have hmem := count?_ne_none.mp hold.counted
    rw [hstrings] at hmem
    cases hmem
  | cons first others =>
    rw [hstrings] at hordered hnodup hlive
    rw [List.head?_cons, Option.some.injEq]
    have hfirst := (List.pairwise_cons.mp hordered).1
    constructor
    · intro hold
      have hmem := count?_ne_none.mp hold.counted
      rw [hstrings] at hmem
      rcases List.mem_cons.mp hmem with heq | hmem
      · exact heq.symm
      · -- The first string and this one cannot each be live for longer than the other.
        have hne : first ≠ s := fun heq => (List.nodup_cons.mp hnodup).1 (heq ▸ hmem)
        have hcounted : (start.after events).count? first ≠ none :=
          count?_ne_none.mpr (hstrings ▸ List.mem_cons_self ..)
        obtain ⟨i, hi⟩ := hlive s (List.mem_cons_of_mem _ hmem)
        obtain ⟨j, hj⟩ := hlive first (List.mem_cons_self ..)
        have hlt := hold.first first hne hcounted i j hi hj
        have hgt := hfirst s hmem j i hj hi
        omega
    · rintro rfl
      refine ⟨count?_ne_none.mpr (hstrings ▸ List.mem_cons_self ..), fun u hu hcounted => ?_⟩
      have hmem := count?_ne_none.mp hcounted
      rw [hstrings] at hmem
      exact hfirst u ((List.mem_cons.mp hmem).resolve_left hu)

/-- A string that is live has been seen. -/
theorem LiveSince.seenFrom_pos (h : LiveSince start events s i) : 1 ≤ seenFrom events s i := by
  refine List.count_pos_iff.mpr (List.mem_of_getElem? (i := 0) ?_)
  rw [List.getElem?_drop]
  exact h.seen

/-- A string is due exactly if it is counted, and its count has reached the threshold. -/
theorem see_eq_true (hcapacity : t.capacity ≠ 0) :
    (t.see s).1 = true ↔ ∃ n, t.count? s = some n ∧ t.threshold ≤ n := by
  rcases see_cases hcapacity s with ⟨n, hn, hdue, hsee⟩ | ⟨n, hn, hless, hsee⟩ | ⟨hnone, hsee⟩
  · simp [hsee, hn, hdue]
  · simp [hsee, hn, hless]
  · simp [hsee, hnone]

/-- Which strings are counted once a string has been seen. -/
theorem mem_strings_see (hcapacity : t.capacity ≠ 0) :
    s ∈ (t.see u).2.strings ↔
      if (t.see u).1 then s ∈ t.strings ∧ s ≠ u
      else if u ∈ t.strings then s ∈ t.strings
      else s ∈ t.kept.strings ∨ s = u := by
  rcases see_cases hcapacity u with ⟨n, -, -, hsee⟩ | ⟨n, hn, -, hsee⟩ | ⟨hnone, hsee⟩
  · simp [hsee, strings_forget]
  · have hmem : u ∈ t.strings := count?_ne_none.mp (by simp [hn])
    simp [hsee, strings_bump, hmem]
  · simp [hsee, strings_begin, count?_eq_none.mp hnone]

/-- The strings are distinct, so the one that loses its place is the one in front, the oldest. -/
theorem Dated.not_mem_kept (h : Dated start events (start.after events))
    (hs : s ∈ (start.after events).strings) :
    s ∉ (start.after events).kept.strings ↔
      (start.after events).size = start.capacity ∧ Oldest start events s := by
  have hfew := h.few
  have hnodup := h.nodup
  rw [h.oldest_iff, strings_kept]
  rw [h.capacity] at hfew ⊢
  split
  case isTrue hroom =>
    refine iff_of_false (fun hnot => hnot hs) fun hfull => ?_
    omega
  case isFalse hfull =>
    have hsize : (start.after events).size = start.capacity := by omega
    obtain ⟨first, others, hstrings⟩ := List.exists_cons_of_ne_nil (List.ne_nil_of_mem hs)
    rw [hstrings] at hs hnodup ⊢
    simp only [hsize, true_and, List.drop_succ_cons, List.drop_zero, List.head?_cons,
      Option.some.injEq]
    constructor
    · exact fun hnot => ((List.mem_cons.mp hs).resolve_right hnot).symm
    · rintro rfl
      exact (List.nodup_cons.mp hnodup).1

/-- A count is how often the string was seen since it is live. -/
theorem Dated.live_of_count? (h : Dated start events t) (hn : t.count? s = some n) :
    ∃ i, LiveSince start events s i ∧ n = seenFrom events s i :=
  h.live _ (mem_of_count? hn)

/-- When a string is due, told from the events: it is counted, and was seen often enough since it
has been.  A threshold of zero asks for one sighting all the same. -/
theorem Dated.due_iff (h : Dated start events (start.after events)) (hcapacity : start.capacity ≠ 0)
    (s : String) :
    ((start.after events).see s).1 = true ↔ (start.after events).count? s ≠ none ∧
      ∃ i, LiveSince start events s i ∧ max 1 start.threshold ≤ seenFrom events s i := by
  rw [see_eq_true (h.capacity ▸ hcapacity), h.threshold]
  constructor
  · rintro ⟨n, hn, hdue⟩
    obtain ⟨i, hlive, rfl⟩ := h.live_of_count? hn
    exact ⟨by simp [hn], i, hlive, Nat.max_le.mpr ⟨hlive.seenFrom_pos, hdue⟩⟩
  · rintro ⟨hcounted, i, hlive, hseen⟩
    obtain ⟨n, hn⟩ := Option.ne_none_iff_exists'.mp hcounted
    obtain ⟨j, hlive', rfl⟩ := h.live_of_count? hn
    obtain rfl := hlive.unique hlive'
    exact ⟨_, hn, (Nat.max_le.mp hseen).2⟩

/-- When a string begins to be counted: when it is seen, and at no other event.  It is not due then,
since it was not counted before. -/
theorem Dated.enters_iff (h : Dated start events (start.after events))
    (hcapacity : start.capacity ≠ 0) (event : Event) (hs : s ∉ (start.after events).strings) :
    s ∈ ((start.after events).on event).strings ↔ event = .see s := by
  cases event with
  | forget u => simp [Sightings.on, strings_forget, hs]
  | clear => simp [Sightings.on, Sightings.clear, strings]
  | see u =>
    have hkept : s ∉ (start.after events).kept.strings := fun hmem =>
      hs ((sublist_kept _).subset hmem)
    change s ∈ ((start.after events).see u).2.strings ↔ _
    rw [mem_strings_see (h.capacity ▸ hcapacity), Event.see.injEq]
    split
    case isTrue hdue =>
      have hu := count?_ne_none.mp ((h.due_iff hcapacity u).mp hdue).1
      exact iff_of_false (fun hmem => hs hmem.1) fun heq => hs (heq ▸ hu)
    case isFalse =>
      split
      case isTrue hu => exact iff_of_false hs fun heq => hs (heq ▸ hu)
      case isFalse hu => simp [hkept, eq_comm]

/-- When a string ceases to be counted, one case for each event: it was due, it was forgotten, all
were cleared, or it was the oldest when another one needed its place. -/
theorem Dated.leaves_iff (h : Dated start events (start.after events))
    (hcapacity : start.capacity ≠ 0) (event : Event) (hs : s ∈ (start.after events).strings) :
    s ∉ ((start.after events).on event).strings ↔
      (event = .see s ∧ ((start.after events).see s).1 = true) ∨ event = .forget s ∨
        event = .clear ∨
        ∃ u, event = .see u ∧ (start.after events).count? u = none ∧
          (start.after events).size = start.capacity ∧ Oldest start events s := by
  cases event with
  | forget u => simp [Sightings.on, strings_forget, hs, eq_comm (a := u)]
  | clear => simp [Sightings.on, Sightings.clear, strings]
  | see u =>
    have hkept := h.not_mem_kept hs
    change s ∉ ((start.after events).see u).2.strings ↔ _
    rw [mem_strings_see (h.capacity ▸ hcapacity)]
    split
    case isTrue hdue =>
      -- What is due is counted, so no other has to go.
      have hu := ((h.due_iff hcapacity u).mp hdue).1
      have hself : (u = s ∧ ((start.after events).see s).1 = true) ↔ s = u :=
        ⟨fun hboth => hboth.1.symm, fun heq => ⟨heq.symm, heq ▸ hdue⟩⟩
      simp [hs, hu, hself]
    case isFalse hdue =>
      have hself : ¬ (u = s ∧ ((start.after events).see s).1 = true) := fun hboth =>
        hdue (hboth.1 ▸ hboth.2)
      split
      case isTrue hu => simp [hs, count?_eq_none, hu, hself]
      case isFalse hu =>
        have hne : s ≠ u := fun heq => hu (heq ▸ hs)
        -- Another comes, and the string leaves exactly if it does not keep its place.
        simp [count?_eq_none, hu, hself, hne, hkept]

/-- What is counted is told from the events alone.  Each part was shown for counts that are `Dated`,
and all that can be reached are. -/
theorem byHistory (hcapacity : start.capacity ≠ 0) (hempty : start.counts = [])
    (events : List Event) : ByHistory start events := by
  have h := dated_after hcapacity hempty events
  refine ⟨h.nodup, h.capacity ▸ h.few, fun _ _ => h.live_of_count?,
    h.due_iff hcapacity, fun s hdue => ?_, fun s event hnew => ?_, fun s event hcounted => ?_,
    fun u hnew hfull => ?_⟩
  · obtain ⟨n, hn, hn'⟩ := (see_eq_true (h.capacity ▸ hcapacity)).mp hdue
    rw [count?_eq_none, mem_strings_see (h.capacity ▸ hcapacity), if_pos hdue]
    exact fun hmem => hmem.2 rfl
  · rw [count?_ne_none]
    exact h.enters_iff hcapacity event (count?_eq_none.mp hnew)
  · rw [count?_eq_none]
    exact h.leaves_iff hcapacity event (count?_ne_none.mp hcounted)
  · have hlength := length_strings (start.after events)
    obtain ⟨s, others, hstrings⟩ := List.exists_cons_of_length_pos
      (l := (start.after events).strings) (by omega)
    exact ⟨s, h.oldest_iff.mpr (by rw [hstrings]; rfl)⟩

end Sightings

/-! ## 4. Counts in a cache -/

/-- What a cache holds, in the order of use: what was used least recently stands in front. -/
structure RecencyList where
  places : Nat
  entries : List (String × Nat)
  deriving DecidableEq, Repr

namespace RecencyList

/-- A cache of some places that holds nothing. -/
def empty (places : Nat) : RecencyList :=
  ⟨places, []⟩

/-- Look at an entry, which is no use of it. -/
def peek (r : RecencyList) (s : String) : Option Nat :=
  r.entries.lookup s

/-- Change an entry where it is, which is no use of it either. -/
def modify (r : RecencyList) (s : String) (f : Nat → Nat) : RecencyList :=
  { r with entries := r.entries.map fun entry => if entry.1 = s then (s, f entry.2) else entry }

/-- Take an entry out.  The others stay in order. -/
def pop (r : RecencyList) (s : String) : RecencyList :=
  { r with entries := r.entries.filter fun entry => entry.1 != s }

/-- Put an entry, as the one used last.  It takes the place of an entry of the same name; where
there is none and all places are taken, what was used least recently goes. -/
def push (r : RecencyList) (s : String) (n : Nat) : RecencyList :=
  let others :=
    if (r.peek s).isSome then (r.pop s).entries
    else if r.entries.length < r.places then r.entries
    else r.entries.drop 1
  { r with entries := others ++ [(s, n)] }

/-- Take all entries out. -/
def clear (r : RecencyList) : RecencyList :=
  { r with entries := [] }

/-- How many entries there are. -/
def size (r : RecencyList) : Nat :=
  r.entries.length

end RecencyList

/-- The operations of a cache, and what it holds. -/
class Cache (κ : Type) where
  empty : Nat → κ
  peek : κ → String → Option Nat
  modify : κ → String → (Nat → Nat) → κ
  pop : κ → String → κ
  push : κ → String → Nat → κ
  clear : κ → κ
  size : κ → Nat
  held : κ → RecencyList

/-- A cache does with what it holds what its operations say. -/
class LawfulCache (κ : Type) [Cache κ] : Prop where
  held_empty : ∀ places ≠ 0, Cache.held (Cache.empty places : κ) = .empty places
  peek_eq : ∀ (c : κ) (s : String), Cache.peek c s = (Cache.held c).peek s
  held_modify : ∀ (c : κ) (s : String) (f : Nat → Nat),
    Cache.held (Cache.modify c s f) = (Cache.held c).modify s f
  held_pop : ∀ (c : κ) (s : String), Cache.held (Cache.pop c s) = (Cache.held c).pop s
  held_push : ∀ (c : κ) (s : String) (n : Nat),
    Cache.held (Cache.push c s n) = (Cache.held c).push s n
  held_clear : ∀ c : κ, Cache.held (Cache.clear c) = (Cache.held c).clear
  size_eq : ∀ c : κ, Cache.size c = (Cache.held c).size

/-- What a cache holds is one itself. -/
instance : Cache RecencyList where
  empty := RecencyList.empty
  peek := RecencyList.peek
  modify := RecencyList.modify
  pop := RecencyList.pop
  push := RecencyList.push
  clear := RecencyList.clear
  size := RecencyList.size
  held := id

/-- It is lawful by definition. -/
instance : LawfulCache RecencyList where
  held_empty _ _ := rfl
  peek_eq _ _ := rfl
  held_modify _ _ _ := rfl
  held_pop _ _ := rfl
  held_push _ _ _ := rfl
  held_clear _ := rfl
  size_eq _ := rfl

/-- The strings being counted, their counts in a cache; without room there is no cache. -/
structure CachedSightings (κ : Type) where
  threshold : Nat
  counts : Option κ

namespace CachedSightings

variable {κ : Type} [Cache κ]

/-- Nothing is counted yet.  Only where there is room is there a cache. -/
def new (threshold capacity : Nat) : CachedSightings κ :=
  ⟨threshold, if capacity = 0 then none else some (Cache.empty capacity)⟩

/-- What is counted of a string, which is looked at without being used. -/
def count? (t : CachedSightings κ) (s : String) : Option Nat :=
  t.counts.bind fun counts => Cache.peek counts s

/-- How many strings are counted. -/
def size (t : CachedSightings κ) : Nat :=
  t.counts.elim 0 Cache.size

/-- Count a string no longer. -/
def forget (t : CachedSightings κ) (s : String) : CachedSightings κ :=
  { t with counts := t.counts.map fun counts => Cache.pop counts s }

/-- Count nothing any longer. -/
def clear (t : CachedSightings κ) : CachedSightings κ :=
  { t with counts := t.counts.map Cache.clear }

/-- See a string: its count is looked at, and changed, without being used. -/
def see (t : CachedSightings κ) (s : String) : Bool × CachedSightings κ :=
  match t.counts with
  | none => (false, t)
  | some counts =>
    match Cache.peek counts s with
    | some n =>
      if t.threshold ≤ n then (true, { t with counts := some (Cache.pop counts s) })
      else (false, { t with counts := some (Cache.modify counts s (· + 1)) })
    | none => (false, { t with counts := some (Cache.push counts s 1) })

/-- The counts after an event. -/
def on (t : CachedSightings κ) : Sightings.Event → CachedSightings κ
  | .see s => (t.see s).2
  | .forget s => t.forget s
  | .clear => t.clear

/-- The counts after some events. -/
def after (t : CachedSightings κ) (events : List Sightings.Event) : CachedSightings κ :=
  events.foldl on t

/-- The cache holds the counts, in the order in which their counting began. -/
structure Shows (cached : CachedSightings κ) (t : Sightings) : Prop where
  threshold : cached.threshold = t.threshold
  counts : cached.counts.map Cache.held =
    if t.capacity = 0 then none else some ⟨t.capacity, t.counts⟩

variable {cached : CachedSightings κ} {t : Sightings}

/-- There is a cache where there is room. -/
theorem Shows.exists_held (h : Shows cached t) (hcapacity : t.capacity ≠ 0) :
    ∃ c, cached.counts = some c ∧ Cache.held c = ⟨t.capacity, t.counts⟩ := by
  have hcounts := h.counts
  rw [if_neg hcapacity] at hcounts
  exact Option.map_eq_some_iff.mp hcounts

variable [LawfulCache κ]

theorem shows_new (threshold capacity : Nat) :
    Shows (new threshold capacity : CachedSightings κ) ⟨threshold, capacity, []⟩ := by
  refine ⟨rfl, ?_⟩
  unfold new
  split
  case isTrue => rfl
  case isFalse hcapacity => simp [LawfulCache.held_empty _ hcapacity, RecencyList.empty]

theorem Shows.count? (h : Shows cached t) (hcapacity : t.capacity ≠ 0) (s : String) :
    cached.count? s = t.count? s := by
  obtain ⟨c, hcached, hheld⟩ := h.exists_held hcapacity
  simp [CachedSightings.count?, hcached, LawfulCache.peek_eq, hheld, RecencyList.peek,
    Sightings.count?]

theorem Shows.size (h : Shows cached t) (hcapacity : t.capacity ≠ 0) : cached.size = t.size := by
  obtain ⟨c, hcached, hheld⟩ := h.exists_held hcapacity
  simp [CachedSightings.size, hcached, LawfulCache.size_eq, hheld, RecencyList.size, Sightings.size]

theorem Shows.forget (h : Shows cached t) (hcapacity : t.capacity ≠ 0) (s : String) :
    Shows (cached.forget s) (t.forget s) := by
  obtain ⟨c, hcached, hheld⟩ := h.exists_held hcapacity
  refine ⟨h.threshold, ?_⟩
  simp [CachedSightings.forget, hcached, LawfulCache.held_pop, hheld, RecencyList.pop,
    Sightings.forget, hcapacity]

theorem Shows.clear (h : Shows cached t) (hcapacity : t.capacity ≠ 0) :
    Shows cached.clear t.clear := by
  obtain ⟨c, hcached, hheld⟩ := h.exists_held hcapacity
  refine ⟨h.threshold, ?_⟩
  simp [CachedSightings.clear, hcached, LawfulCache.held_clear, hheld, RecencyList.clear,
    Sightings.clear, hcapacity]

/-- A count goes up where it stands, and a string that comes goes to the end.  Pushing to a full
cache drops the string that has not been pushed for the longest time, and peeking and modifying do
not renew any, so that is the oldest. -/
theorem Shows.see (h : Shows cached t) (hcapacity : t.capacity ≠ 0) (s : String) :
    (cached.see s).1 = (t.see s).1 ∧ Shows (cached.see s).2 (t.see s).2 := by
  obtain ⟨c, hcached, hheld⟩ := h.exists_held hcapacity
  have hpeek : Cache.peek c s = t.count? s := by
    rw [LawfulCache.peek_eq, hheld]
    rfl
  unfold CachedSightings.see Sightings.see
  rw [if_neg hcapacity, hcached]
  simp only [hpeek]
  cases hcount : t.count? s with
  | none =>
    have hnone : (Cache.held c).peek s = none := by rw [← LawfulCache.peek_eq, hpeek, hcount]
    refine ⟨rfl, h.threshold, ?_⟩
    rw [hheld] at hnone
    simp [LawfulCache.held_push, hheld, RecencyList.push, hnone, Sightings.begin, hcapacity]
  | some n =>
    simp only [h.threshold]
    split
    · refine ⟨rfl, rfl, ?_⟩
      simp [LawfulCache.held_pop, hheld, RecencyList.pop, Sightings.forget, hcapacity]
    · refine ⟨rfl, rfl, ?_⟩
      simp [LawfulCache.held_modify, hheld, RecencyList.modify, Sightings.bump, hcapacity]

/-- No event changes how much room there is. -/
theorem capacity_on (hcapacity : t.capacity ≠ 0) (event : Sightings.Event) :
    (t.on event).capacity = t.capacity := by
  cases event with
  | forget s => rfl
  | clear => rfl
  | see s =>
    change (t.see s).2.capacity = _
    rcases Sightings.see_cases hcapacity s with ⟨n, -, -, hsee⟩ | ⟨n, -, -, hsee⟩ | ⟨-, hsee⟩ <;>
      rw [hsee] <;> rfl

/-- Every event finds the same counts in the cache, and leaves the same. -/
theorem Shows.on (h : Shows cached t) (hcapacity : t.capacity ≠ 0) (event : Sightings.Event) :
    Shows (cached.on event) (t.on event) := by
  cases event with
  | see s => exact (h.see hcapacity s).2
  | forget s => exact h.forget hcapacity s
  | clear => exact h.clear hcapacity

theorem Shows.after (h : Shows cached t) (hcapacity : t.capacity ≠ 0)
    (events : List Sightings.Event) : Shows (cached.after events) (t.after events) := by
  induction events generalizing cached t with
  | nil => exact h
  | cons event events ih =>
    exact ih (h.on hcapacity event) ((capacity_on hcapacity event).symm ▸ hcapacity)

end CachedSightings

open Sightings CachedSightings in
/-- **What is counted is told by the history.**  With counts in any cache that drops what was used
least recently, the strings that are counted, their counts and which string is due are those that
the events tell, and where there is no room for one more, the string that is live for longest goes,
however often and however recently it was seen. -/
theorem counted_by_history (κ : Type) [Cache κ] [LawfulCache κ] (threshold capacity : Nat)
    (hcapacity : 1 ≤ capacity) (events : List Event) :
    ByHistory ⟨threshold, capacity, []⟩ events ∧
      (∀ s, (after (new threshold capacity : CachedSightings κ) events).count? s =
          (Sightings.after ⟨threshold, capacity, []⟩ events).count? s ∧
        ((after (new threshold capacity : CachedSightings κ) events).see s).1 =
          ((Sightings.after ⟨threshold, capacity, []⟩ events).see s).1) ∧
      (after (new threshold capacity : CachedSightings κ) events).size =
        (Sightings.after ⟨threshold, capacity, []⟩ events).size := by
  have hroom : capacity ≠ 0 := Nat.pos_iff_ne_zero.mp hcapacity
  have hdated := @dated_after ⟨threshold, capacity, []⟩ hroom rfl events
  have hshows : Shows (after (new threshold capacity : CachedSightings κ) events) _ :=
    (shows_new threshold capacity).after hroom events
  have hplaces := hdated.capacity.trans_ne hroom
  exact ⟨byHistory hroom rfl events,
    fun s => ⟨hshows.count? hplaces s, (hshows.see hplaces s).1⟩, hshows.size hplaces⟩

open Sightings CachedSightings in
/-- With room for two, the first string goes when a third one comes, although it was seen again
since. -/
theorem counted_by_history_two :
    let events : List Event := [.see "a", .see "b", .see "a", .see "c"]
    LawfulCache RecencyList ∧ 1 ≤ 2 ∧
      (after (new 3 2 : CachedSightings RecencyList) events).counts =
        some ⟨2, [("b", 1), ("c", 1)]⟩ ∧
      ByHistory ⟨3, 2, []⟩ events ∧
      (∀ s, (after (new 3 2 : CachedSightings RecencyList) events).count? s =
          (Sightings.after ⟨3, 2, []⟩ events).count? s ∧
        ((after (new 3 2 : CachedSightings RecencyList) events).see s).1 =
          ((Sightings.after ⟨3, 2, []⟩ events).see s).1) ∧
      (after (new 3 2 : CachedSightings RecencyList) events).size =
        (Sightings.after ⟨3, 2, []⟩ events).size :=
  ⟨inferInstance, by decide, by decide, counted_by_history RecencyList 3 2 (by decide) _⟩

end DictLog
