/-
# A threshold of zero is a threshold of one

A string that is counted has been seen, so its count is one at least, and the threshold is only held
against counts.  Whether it is zero or one, the second sighting is enough, and since that ends the
counting no count gets past one.

`least_threshold`: encoders whose options differ in nothing else show the same for any calls, failed
ones included: the same bytes and outcomes, the same dictionaries, pending strings and counts.

What carries it is a relation on lexicons, `Twins`: the second is the first with the other threshold,
and whatever is counted has been counted once.  Seeing a string gives the same on both and keeps them
twins (`Twins.see`).  Any relation of which this is true goes through the writing of a value
(`alike_write`); from there it is carried through the records and over the calls.
-/
import DictLog.Proofs.Books
import DictLog.Proofs.Counting

namespace DictLog

/-! ## 1. One value on two lexicons -/

namespace Payload

open Emission

variable {R : Lexicon → Lexicon → Prop} {l m : Lexicon} {limit : Nat}

/-- Seeing a string on two lexicons gives the same and keeps them related. -/
def SeesAlike (R : Lexicon → Lexicon → Prop) : Prop :=
  ∀ {l m : Lexicon}, R l m → ∀ s role,
    (l.see s role).1 = (m.see s role).1 ∧ R (l.see s role).2 (m.see s role).2

/-- A string is written alike where it is seen alike: in full where neither lexicon gives an index,
and as the same reference where both do. -/
theorem alike_string (hsee : SeesAlike R) (role : Role) (s : String) (h : R l m) :
    Alike R (string role s l) (string role s m) := by
  obtain ⟨hindex, hstate⟩ := hsee h s role
  unfold string
  rcases hl : l.see s role with ⟨_ | index, l'⟩
  all_goals
    rcases hm : m.see s role with ⟨_ | index', m'⟩
    all_goals
      rw [hl, hm] at hindex hstate
      cases hindex
  · exact .write hstate _
  · exact .write hstate _

mutual

/-- Writing a value shows the same on two lexicons if seeing strings does, and leaves them related,
also where a container is too deep. -/
theorem alike_write (hsee : SeesAlike R) : ∀ (room : Nat) (v : Json) {l m : Lexicon}, R l m →
    Alike R (write limit room v l) (write limit room v m)
  | _, .null, _, _, h => .write h _
  | _, .bool _, _, _, h => .write h _
  | _, .number _, _, _, h => .write h _
  | _, .string s, _, _, h => alike_string hsee .value s h
  | 0, .array _, _, _, h => .fail h _
  | room + 1, .array items, _, _, h =>
    (Alike.write h [Tag.arrayStart.byte]).andThen fun h =>
      (alike_writeItems hsee room items h).andThen fun h => .write h _
  | 0, .object _, _, _, h => .fail h _
  | room + 1, .object members, _, _, h =>
    (Alike.write h [Tag.objectStart.byte]).andThen fun h =>
      (alike_writeMembers hsee room members h).andThen fun h => .write h _

theorem alike_writeItems (hsee : SeesAlike R) : ∀ (room : Nat) (items : List Json)
    {l m : Lexicon}, R l m →
      Alike R (writeItems limit room items l) (writeItems limit room items m)
  | _, [], _, _, h => .write h _
  | room, v :: rest, _, _, h => by
    rw [writeItems, writeItems]
    exact (alike_write hsee room v h).andThen fun h => alike_writeItems hsee room rest h

/-- The members of an object, in the same way. -/
theorem alike_writeMembers (hsee : SeesAlike R) : ∀ (room : Nat)
    (members : List (String × Json)) {l m : Lexicon}, R l m →
      Alike R (writeMembers limit room members l) (writeMembers limit room members m)
  | _, [], _, _, h => .write h _
  | room, (k, v) :: rest, _, _, h => by
    rw [writeMembers, writeMembers]
    exact (alike_string hsee .key k h).andThen fun h =>
      (alike_write hsee room v h).andThen fun h => alike_writeMembers hsee room rest h

end

end Payload

/-! ## 2. Twins -/

/-- The same counts, all of them one, with thresholds of zero and of one. -/
structure Sightings.Twins (t u : Sightings) : Prop where
  threshold : t.threshold = 0
  same : u = { t with threshold := 1 }
  once : ∀ entry ∈ t.counts, entry.2 = 1

namespace Sightings.Twins

variable {t u : Sightings}

theorem forget (h : Twins t u) (s : String) : Twins (t.forget s) (u.forget s) where
  threshold := h.threshold
  same := by rw [h.same]; rfl
  once entry hentry := h.once entry (List.mem_of_mem_filter hentry)

theorem clear (h : Twins t u) : Twins t.clear u.clear where
  threshold := h.threshold
  same := by rw [h.same]; rfl
  once _ hentry := absurd hentry (List.not_mem_nil)

/-- A string that begins to be counted is counted once. -/
theorem begin (h : Twins t u) (s : String) : Twins (t.begin s) (u.begin s) where
  threshold := h.threshold
  same := by rw [h.same]; rfl
  once entry hentry := by
    rw [begin_eq] at hentry
    rcases List.mem_append.mp hentry with hkept | hnew
    · exact h.once entry (counts_kept t hkept)
    · rw [List.mem_singleton.mp hnew]

/-- A second sighting is enough for either threshold.  A first one is counted by both, and what is
counted has been seen once. -/
theorem see (h : Twins t u) (s : String) :
    (t.see s).1 = (u.see s).1 ∧ Twins (t.see s).2 (u.see s).2 := by
  have hcapacity : u.capacity = t.capacity := by rw [h.same]
  have hcount : u.count? s = t.count? s := by rw [h.same]; rfl
  have hthreshold : u.threshold = 1 := by rw [h.same]
  unfold Sightings.see
  rw [hcapacity, hcount]
  by_cases hroom : t.capacity = 0
  · rw [if_pos hroom, if_pos hroom]
    exact ⟨rfl, h⟩
  · rw [if_neg hroom, if_neg hroom]
    cases hn : t.count? s with
    | none => exact ⟨rfl, h.begin s⟩
    | some n =>
      -- What is counted is counted once, so it is due for either threshold.
      obtain rfl : n = 1 := h.once _ (mem_of_count? hn)
      have hdue : t.threshold ≤ 1 := h.threshold ▸ Nat.zero_le 1
      have hdue' : u.threshold ≤ 1 := Nat.le_of_eq hthreshold
      simp only [if_pos hdue, if_pos hdue']
      exact ⟨trivial, h.forget s⟩

end Sightings.Twins

/-- Lexicons that differ in nothing but the threshold of their sightings, zero and one. -/
structure Lexicon.Twins (l m : Lexicon) : Prop where
  dictionary : l.dictionary = m.dictionary
  announced : l.announced = m.announced
  sightings : Sightings.Twins l.sightings m.sightings

namespace Lexicon.Twins

variable {l m : Lexicon}

theorem size (h : Twins l m) : l.size = m.size :=
  congrArg Dictionary.size h.dictionary

theorem entries (h : Twins l m) : l.entries = m.entries :=
  congrArg Dictionary.toList h.dictionary

theorem pending (h : Twins l m) : l.pending = m.pending := by
  rw [Lexicon.pending, Lexicon.pending, h.entries, h.announced]

theorem hasPending (h : Twins l m) : l.hasPending = m.hasPending := by
  rw [Lexicon.hasPending, Lexicon.hasPending, h.size, h.announced]

theorem counts (h : Twins l m) : l.sightings.counts = m.sightings.counts := by
  rw [h.sightings.same]

/-- A key is admitted by both, and a value by both or by neither. -/
theorem judge (h : Twins l m) (s : String) (role : Role) :
    (l.judge s role).1 = (m.judge s role).1 ∧
      Sightings.Twins (l.judge s role).2 (m.judge s role).2 := by
  cases role with
  | key => exact ⟨rfl, h.sightings.forget s⟩
  | value => exact h.sightings.see s

/-- Twins see every string alike, and stay twins.  They hold the same strings, so the index is the
same, too. -/
theorem see : Payload.SeesAlike Twins := by
  intro l m h s role
  obtain ⟨hadmitted, hsightings⟩ := h.judge s role
  have hlookup : l.lookup s = m.lookup s := congrArg (·.indexOf? s) h.dictionary
  unfold Lexicon.see
  rw [hlookup]
  cases m.lookup s with
  | some index => exact ⟨rfl, h⟩
  | none =>
    dsimp only
    rw [hadmitted]
    split
    · exact ⟨congrArg some h.size, congrArg (·.add s) h.dictionary, h.announced, hsightings⟩
    · exact ⟨rfl, h.dictionary, h.announced, hsightings⟩

theorem announce (h : Twins l m) :
    l.announce.1 = m.announce.1 ∧ Twins l.announce.2 m.announce.2 := by
  rw [Lexicon.announce, Lexicon.announce, h.size, h.announced]
  exact ⟨rfl, h.dictionary, h.size ▸ rfl, h.sightings⟩

/-- Twins are twins when they are cleared, whatever is kept. -/
theorem clear (h : Twins l m) (resetUsage : Bool) :
    Twins (l.clear resetUsage) (m.clear resetUsage) where
  dictionary := rfl
  announced := rfl
  sightings := by
    cases resetUsage with
    | false => exact h.sightings
    | true => exact h.sightings.clear

end Lexicon.Twins

/-! ## 3. Encoders -/

namespace Encoder

/-- Encoders that differ in nothing but their threshold, zero and one. -/
structure Twins (e f : Encoder) : Prop where
  options : { e.options with internThreshold := 1 } = f.options
  lexicon : Lexicon.Twins e.lexicon f.lexicon
  position : e.position = f.position
  lastDictionary : e.lastDictionary = f.lastDictionary
  started : e.started = f.started
  stats : e.stats = f.stats

namespace Twins

variable {e f : Encoder}

theorem backlink (h : Twins e f) : e.backlink = f.backlink := by
  rw [Encoder.backlink, Encoder.backlink, h.position, h.lastDictionary]

theorem emit (h : Twins e f) (record : List UInt8) :
    Emission.Alike Twins (Encoder.emit record e) (Encoder.emit record f) := by
  refine ⟨rfl, rfl, h.options, h.lexicon, ?_, h.lastDictionary, h.started, ?_⟩
  · exact congrArg (· + record.length) h.position
  · exact congrArg (fun stats : EncodeStats =>
      { stats with bytesFramed := stats.bytesFramed + record.length }) h.stats

theorem emitDictionary (h : Twins e f) (record : List UInt8) :
    Emission.Alike Twins (Encoder.emitDictionary record e) (Encoder.emitDictionary record f) := by
  have hmarked : Twins { e with lastDictionary := e.position }
      { f with lastDictionary := f.position } :=
    ⟨h.options, h.lexicon, h.position, h.position, h.started, h.stats⟩
  exact hmarked.emit record

/-- Twins stay twins if their lexicons do and the same is counted. -/
theorem change (h : Twins e f) {l m : Lexicon} (hlexicon : Lexicon.Twins l m)
    (count : EncodeStats → EncodeStats) :
    Twins { e with lexicon := l, stats := count e.stats }
      { f with lexicon := m, stats := count f.stats } :=
  ⟨h.options, hlexicon, h.position, h.lastDictionary, h.started, congrArg count h.stats⟩

theorem clear (h : Twins e f) : Emission.Alike Twins e.clear f.clear := by
  have hreset : e.options.resetUsageOnClear = f.options.resetUsageOnClear := by rw [← h.options]
  rw [Encoder.clear, Encoder.clear, hreset]
  exact (h.change (h.lexicon.clear _) fun stats =>
    { stats with clearRecords := stats.clearRecords + 1 }).emitDictionary _

theorem start (h : Twins e f) : Emission.Alike Twins e.start f.start := by
  rw [Encoder.start, Encoder.start, ← h.started]
  split
  · exact .skip h
  · have hstarted : Twins { e with started := true } { f with started := true } :=
      ⟨h.options, h.lexicon, h.position, h.lastDictionary, rfl, h.stats⟩
    exact (hstarted.emit _).andThen fun h => h.clear

theorem renew (h : Twins e f) : Emission.Alike Twins e.renew f.renew := by
  have hfull : e.isFull = f.isFull := by
    rw [isFull, isFull, ← h.options, h.lexicon.size]
  rw [Encoder.renew, Encoder.renew, hfull]
  split
  · exact h.clear
  · exact .skip h

/-- Twins announce the same strings, with the same counts. -/
theorem announce (h : Twins e f) : Emission.Alike Twins e.announce f.announce := by
  obtain ⟨hadded, hlexicon⟩ := h.lexicon.announce
  rw [Encoder.announce, Encoder.announce, h.lexicon.hasPending]
  split
  · simp only [h.backlink, h.lexicon.pending, hadded]
    exact (h.change hlexicon fun stats => { stats with
      addRecords := stats.addRecords + 1
      stringsInterned := stats.stringsInterned + f.lexicon.announce.1 }).emitDictionary _
  · exact .skip h

theorem emitValue (h : Twins e f) (payload : List UInt8) :
    Emission.Alike Twins (Encoder.emitValue payload e) (Encoder.emitValue payload f) := by
  rw [Encoder.emitValue, Encoder.emitValue, h.backlink]
  exact (h.change h.lexicon fun stats =>
    { stats with valueRecords := stats.valueRecords + 1 }).emit _

/-- A value comes to the same for twins, since writing its payload sees its strings alike. -/
theorem putValue (v : Json) (h : Twins e f) :
    Emission.Alike Twins (Encoder.putValue v e) (Encoder.putValue v f) := by
  have hdepth : e.options.maxNestingDepth = f.options.maxNestingDepth := by rw [← h.options]
  have hpayload : Emission.Alike Lexicon.Twins (e.payload v) (f.payload v) := by
    rw [payload, payload, Payload.ofJson, Payload.ofJson, hdepth]
    exact Payload.alike_write Lexicon.Twins.see _ v h.lexicon
  have hseen : Twins (e.seen v) (f.seen v) := h.change hpayload.state id
  rw [putValue_eq, putValue_eq, hpayload.outcome, hpayload.bytes]
  cases (f.payload v).outcome with
  | ok u => exact hseen.announce.andThen fun h => h.emitValue _
  | error fault => exact .fail hseen fault

/-- A value with all that comes before it comes to the same for twins. -/
theorem put (v : Json) (h : Twins e f) :
    Emission.Alike Twins (Encoder.put v e) (Encoder.put v f) :=
  (h.start.andThen fun h => h.renew).andThen fun h => h.putValue v

/-- New encoders with these thresholds are twins, since nothing has been counted. -/
theorem new (options : EncodeOptions) :
    Twins (.new { options with internThreshold := 0 }) (.new { options with internThreshold := 1 }) :=
  ⟨rfl, ⟨rfl, rfl, rfl, rfl, fun _ h => absurd h List.not_mem_nil⟩, rfl, rfl, rfl, rfl⟩

end Twins

/-! ## 4. Calls, one after another -/

/-- What a caller may have an encoder do: begin the stream, or one of the calls. -/
inductive Action where
  | start
  | call (call : Call)

/-- The step that an action takes. -/
def Action.emit : Action → Encoder → Emission Encoder
  | .start, e => e.start
  | .call c, e => c.emit e

/-- What is seen of an action: the bytes it appended, how it ended, and the dictionary, the pending
strings and the counts behind it. -/
structure Shown where
  bytes : List UInt8
  outcome : Except Fault Unit
  dictionary : Dictionary
  pending : List String
  counts : List (String × Nat)

/-- What is seen of an emission. -/
def shown (m : Emission Encoder) : Shown :=
  ⟨m.bytes, m.outcome, m.state.lexicon.dictionary, m.state.lexicon.pending,
    m.state.lexicon.sightings.counts⟩

/-- What is seen of some actions, one after the other, failed ones included. -/
def history : List Action → Encoder → List Shown
  | [], _ => []
  | action :: rest, e => shown (action.emit e) :: history rest (action.emit e).state

variable {e f : Encoder}

/-- Twins do the same when asked, and stay twins. -/
theorem Twins.action (h : Twins e f) (action : Action) :
    Emission.Alike Twins (action.emit e) (action.emit f) := by
  cases action with
  | start => exact h.start
  | call c =>
    cases c with
    | put v => exact h.put v
    | clear => exact h.clear

/-- What is seen of twins is the same. -/
theorem Twins.shown {m n : Emission Encoder} (h : Emission.Alike Twins m n) : shown m = shown n := by
  have hlexicon := h.state.lexicon
  rw [Encoder.shown, Encoder.shown, h.bytes, h.outcome, hlexicon.dictionary,
    hlexicon.pending, hlexicon.counts]

/-- Twins have the same history. -/
theorem Twins.history (actions : List Action) : ∀ {e f : Encoder}, Twins e f →
    history actions e = history actions f := by
  induction actions with
  | nil => exact fun _ => rfl
  | cons action actions ih =>
    intro e f h
    have haction := h.action action
    rw [Encoder.history, Encoder.history, Twins.shown haction, ih haction.state]

/-- **A threshold of zero is a threshold of one.**  Encoders whose options differ in that only
append the same bytes, end every call the same way and have the same dictionary, the same pending
strings and the same counts behind it, whatever is asked of them. -/
theorem least_threshold (options : EncodeOptions) (actions : List Action) :
    history actions (new { options with internThreshold := 0 }) =
      history actions (new { options with internThreshold := 1 }) :=
  Twins.history actions (Twins.new options)

end Encoder

end DictLog
