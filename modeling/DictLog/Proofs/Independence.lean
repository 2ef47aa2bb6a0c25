/-
# With the sightings reset, nothing is carried from one epoch to the next

What an encoder does when asked depends on its options, on its lexicon and on how far back the last
record is that changed the dictionary, but not on where it stands: encoders that are `Kin` in this
give the same answers to any calls and stay kin (`Kin.answers_eq`).

A clear takes all of that back to what it was at the start, if the options have the sightings reset:
the dictionary and what was pending are dropped, and of the sightings only their threshold and their
capacity are left, which never change (`Belongs`).  So behind a clear an encoder answers as a fresh
one does, whatever it has been asked before (`answers_clear`).
-/
import DictLog.Proofs.Books

namespace DictLog

/-! ## 1. Encoders that only differ in where they stand -/

namespace Encoder

/-- What a call shows to the caller: the bytes it appended, and whether it succeeded. -/
structure Answer where
  bytes : List UInt8
  outcome : Except Fault Unit

/-- The answers to some calls, one after the other, failed ones included. -/
def answers (e : Encoder) : List Call → List Answer
  | [] => []
  | call :: rest =>
    ⟨(call.emit e).bytes, (call.emit e).outcome⟩ :: (call.emit e).state.answers rest

/-- Two encoders that have the same options and lexicon, and are equally far behind the last record
that changed the dictionary. -/
structure Kin (e f : Encoder) : Prop where
  options : e.options = f.options
  lexicon : e.lexicon = f.lexicon
  started : e.started = f.started
  backlink : e.backlink = f.backlink
  last : e.lastDictionary ≤ e.position
  last' : f.lastDictionary ≤ f.position

variable {e f : Encoder}

/-! ## 2. They give the same answers -/

/-- A record moves both encoders on by its length, so they stay as far from the last change of their
dictionaries as they were. -/
theorem Kin.emit (h : Kin e f) (record : List UInt8) :
    Emission.Alike Kin (Encoder.emit record e) (Encoder.emit record f) := by
  have hlast := h.last
  have hlast' := h.last'
  have hback : e.position - e.lastDictionary = f.position - f.lastDictionary := h.backlink
  refine ⟨rfl, rfl, h.options, h.lexicon, h.started, ?_, ?_, ?_⟩
  · show e.position + record.length - e.lastDictionary =
      f.position + record.length - f.lastDictionary
    omega
  · show e.lastDictionary ≤ e.position + record.length
    omega
  · show f.lastDictionary ≤ f.position + record.length
    omega

/-- A record that changes the dictionary makes encoders alike that were nowhere near each other, if it
leaves them the same lexicon. -/
theorem kin_emitDictionary (hoptions : e.options = f.options) (hstarted : e.started = f.started)
    (record : List UInt8) (lexicon : Lexicon) (stats stats' : EncodeStats) :
    Emission.Alike Kin (emitDictionary record { e with lexicon, stats })
      (emitDictionary record { f with lexicon, stats := stats' }) := by
  have hkin : Kin { e with lexicon, stats, lastDictionary := e.position }
      { f with lexicon, stats := stats', lastDictionary := f.position } :=
    ⟨hoptions, rfl, hstarted, by simp [Encoder.backlink], Nat.le_refl _, Nat.le_refl _⟩
  exact hkin.emit record

/-- A clear makes encoders alike, whatever the lexicons were that it takes to the same. -/
theorem kin_clear (hoptions : e.options = f.options)
    (hlexicon : e.lexicon.clear e.options.resetUsageOnClear =
      f.lexicon.clear f.options.resetUsageOnClear)
    (hstarted : e.started = f.started) : Emission.Alike Kin e.clear f.clear := by
  rw [Encoder.clear, Encoder.clear, hlexicon]
  exact kin_emitDictionary hoptions hstarted _ _ _ _

/-- In particular, clearing encoders that are kin. -/
theorem Kin.clear (h : Kin e f) : Emission.Alike Kin e.clear f.clear :=
  kin_clear h.options (by rw [h.lexicon, h.options]) h.started

/-- Starting a stream: both do it, or both have done it. -/
theorem Kin.start (h : Kin e f) : Emission.Alike Kin e.start f.start := by
  rw [Encoder.start, Encoder.start, ← h.started]
  split
  · exact .skip h
  · have hkin : Kin { e with started := true } { f with started := true } :=
      ⟨h.options, h.lexicon, rfl, h.backlink, h.last, h.last'⟩
    exact (hkin.emit _).andThen fun h => h.clear

/-- An epoch is over for both or for neither, since their dictionaries are the same. -/
theorem Kin.renew (h : Kin e f) : Emission.Alike Kin e.renew f.renew := by
  have hfull : e.isFull = f.isFull := by rw [isFull, isFull, h.options, h.lexicon]
  rw [Encoder.renew, Encoder.renew, hfull]
  split
  · exact h.clear
  · exact .skip h

theorem Kin.announce (h : Kin e f) : Emission.Alike Kin e.announce f.announce := by
  rw [Encoder.announce, Encoder.announce, h.lexicon, h.backlink]
  split
  · exact kin_emitDictionary h.options h.started _ _ _ _
  · exact .skip h

theorem Kin.emitValue (h : Kin e f) (payload : List UInt8) :
    Emission.Alike Kin (Encoder.emitValue payload e) (Encoder.emitValue payload f) := by
  have hkin : Kin { e with stats := { e.stats with valueRecords := e.stats.valueRecords + 1 } }
      { f with stats := { f.stats with valueRecords := f.stats.valueRecords + 1 } } :=
    ⟨h.options, h.lexicon, h.started, h.backlink, h.last, h.last'⟩
  rw [Encoder.emitValue, Encoder.emitValue, h.backlink]
  exact hkin.emit _

/-- What is written for a value depends on options and lexicon alone. -/
theorem Kin.payload_eq (h : Kin e f) (v : Json) : e.payload v = f.payload v := by
  rw [payload, payload, h.options, h.lexicon]

/-- What a value leaves in the lexicon depends on options and lexicon alone, too. -/
theorem Kin.seen (h : Kin e f) (v : Json) : Kin (e.seen v) (f.seen v) where
  options := h.options
  lexicon := by rw [Encoder.seen, Encoder.seen, h.payload_eq]
  started := h.started
  backlink := h.backlink
  last := h.last
  last' := h.last'

/-- A value is accepted by both or by neither. -/
theorem Kin.putValue (h : Kin e f) (v : Json) :
    Emission.Alike Kin (Encoder.putValue v e) (Encoder.putValue v f) := by
  rw [putValue_eq, putValue_eq, h.payload_eq]
  split
  · exact (h.seen v).announce.andThen fun h => h.emitValue _
  · exact .fail (h.seen v) _

theorem Kin.put (h : Kin e f) (v : Json) :
    Emission.Alike Kin (Encoder.put v e) (Encoder.put v f) :=
  (h.start.andThen fun h => h.renew).andThen fun h => h.putValue v

/-- One call more: the same answer, and encoders that are still alike. -/
theorem Kin.call (h : Kin e f) : ∀ call : Call, Emission.Alike Kin (call.emit e) (call.emit f)
  | .put v => h.put v
  | .clear => h.clear

/-- Encoders that are alike give the same answers to any calls. -/
theorem Kin.answers_eq (calls : List Call) :
    ∀ {e f : Encoder}, Kin e f → e.answers calls = f.answers calls := by
  induction calls with
  | nil =>
    intro e f _
    rfl
  | cons call rest ih =>
    intro e f h
    have hcall := h.call call
    rw [answers, answers, hcall.bytes, hcall.outcome, ih hcall.state]

/-! ## 3. What an encoder never loses -/

end Encoder

namespace Lexicon

variable {l : Lexicon} {s : String}

/-- What seeing a string has changed is forgotten by a clear that resets the sightings, too. -/
theorem clear_see (l : Lexicon) (s : String) (role : Role) :
    (l.see s role).2.clear true = l.clear true := by
  have hsightings : (l.judge s role).2.clear = l.sightings.clear := by
    cases role with
    | key => rfl
    | value =>
      show (l.sightings.see s).2.clear = _
      unfold Sightings.see
      split
      · rfl
      · split
        · split <;> rfl
        · rfl
  have hclear : ∀ d, Lexicon.clear { l with dictionary := d, sightings := (l.judge s role).2 } true =
      l.clear true := fun d => by simp only [clear, if_pos, hsightings]
  rcases see_cases l s role with ⟨i, -, hsee⟩ | ⟨-, -, hsee⟩ | ⟨-, -, hsee⟩
  · rw [hsee]
  · rw [hsee]
    exact hclear _
  · rw [hsee]
    exact hclear _

theorem clear_write (limit room : Nat) (v : Json) (l : Lexicon) :
    (Payload.write limit room v l).state.clear true = l.clear true :=
  Payload.related_write (R := fun l m => m.clear true = l.clear true) (fun _ => rfl)
    (fun h k => k.trans h) room v l fun s _ l role => clear_see l s role

/-- Clearing once more, with the sightings reset, forgets what an earlier clear has kept. -/
theorem clear_clear (l : Lexicon) (resetUsage : Bool) :
    (l.clear resetUsage).clear true = l.clear true := by
  cases resetUsage <;> rfl

theorem clear_ofOptions (options : EncodeOptions) :
    (ofOptions options).clear true = ofOptions options := rfl

end Lexicon

namespace Encoder

/-- An encoder that has some options, and a lexicon that they call for once everything that was seen
is forgotten. -/
structure Belongs (options : EncodeOptions) (e : Encoder) : Prop where
  told : e.options = options
  forgotten : e.lexicon.clear true = .ofOptions options

variable {options : EncodeOptions} {e : Encoder}

theorem belongs_new (options : EncodeOptions) : Belongs options (new options) :=
  ⟨rfl, Lexicon.clear_ofOptions options⟩

/-- Clearing changes no threshold and no capacity. -/
theorem Belongs.clear (h : Belongs options e) : Belongs options e.clear.state :=
  ⟨h.told, (Lexicon.clear_clear _ _).trans h.forgotten⟩

theorem Belongs.start (h : Belongs options e) : Belongs options e.start.state := by
  rw [Encoder.start]
  split
  · exact h
  · have hheader : Belongs options
        (Encoder.emit (Wire.header Format.version) { e with started := true }).state :=
      ⟨h.told, h.forgotten⟩
    exact Emission.state_andThen hheader fun _ h => h.clear

theorem Belongs.renew (h : Belongs options e) : Belongs options e.renew.state := by
  rw [Encoder.renew]
  split
  · exact h.clear
  · exact h

theorem Belongs.announce (h : Belongs options e) : Belongs options e.announce.state := by
  rw [Encoder.announce]
  split
  · exact ⟨h.told, h.forgotten⟩
  · exact h

/-- Seeing the strings of a value is the one thing that changes sightings, and it leaves their
threshold and capacity. -/
theorem Belongs.seen (h : Belongs options e) (v : Json) : Belongs options (e.seen v) :=
  ⟨h.told, (Lexicon.clear_write _ _ v e.lexicon).trans h.forgotten⟩

theorem Belongs.putValue (h : Belongs options e) (v : Json) :
    Belongs options (putValue v e).state := by
  rw [putValue_eq]
  split
  · exact Emission.state_andThen (h.seen v).announce fun _ h => ⟨h.told, h.forgotten⟩
  · exact h.seen v

/-- So whatever becomes of a value, the encoder still belongs to its options. -/
theorem Belongs.put (h : Belongs options e) (v : Json) : Belongs options (put v e).state :=
  Emission.state_andThen (Emission.state_andThen h.start fun _ h => h.renew) fun _ h => h.putValue v

/-! ## 4. A clear is a fresh start -/

/-- What an encoder may have become, whatever it was asked and however that ended. -/
inductive Reached (options : EncodeOptions) : Encoder → Prop
  | new : Reached options (new options)
  | start {e : Encoder} (h : Reached options e) : Reached options e.start.state
  | call {e : Encoder} (h : Reached options e) (call : Call) : Reached options (call.emit e).state

/-- Whatever an encoder was asked, its lexicon is one that its options call for, if everything that
was seen is forgotten. -/
theorem Reached.belongs (h : Reached options e) : Belongs options e := by
  induction h with
  | new => exact belongs_new options
  | start _ ih => exact ih.start
  | call _ call ih =>
    cases call with
    | put v => exact ih.put v
    | clear => exact ih.clear

/-- An encoder that was just started is alike to one that has just been cleared. -/
theorem kin_clear_start (hreset : options.resetUsageOnClear = true) (h : Belongs options e)
    (hstarted : e.started = true) : Kin e.clear.state (new options).start.state := by
  let headed := (emit (Wire.header Format.version) { new options with started := true }).state
  have hlexicon : e.lexicon.clear e.options.resetUsageOnClear =
      headed.lexicon.clear headed.options.resetUsageOnClear := by
    rw [h.told, hreset, h.forgotten]
    show _ = (Lexicon.ofOptions options).clear options.resetUsageOnClear
    rw [hreset, Lexicon.clear_ofOptions]
  exact (kin_clear h.told hlexicon hstarted).state

/-- **Epochs are independent.**  Let the options have the sightings reset, and take an encoder that
has been started, whatever it was asked before and whatever failed.  Once it is cleared, any calls
append the same bytes and end in the same way, one by one, as they do with an encoder that has been
started and asked nothing. -/
theorem answers_clear (options : EncodeOptions) (hreset : options.resetUsageOnClear = true)
    (e : Encoder) (h : Reached options e) (hstarted : e.started = true) (calls : List Call) :
    e.clear.state.answers calls = (new options).start.state.answers calls :=
  (kin_clear_start hreset h.belongs hstarted).answers_eq calls

/-- One sighting would do, and the string has been seen twice, the second time in a value that nests
too deep; behind the clear it still has to be seen again. -/
theorem answers_clear_seen :
    let options : EncodeOptions :=
      { internThreshold := 1, resetUsageOnClear := true, maxNestingDepth := 1 }
    let failed := ((new options).put (.string "a")).state.put (.array [.string "a", .array []])
    failed.outcome = .error (.limit (.writtenNesting 1)) ∧
      options.resetUsageOnClear = true ∧ Reached options failed.state ∧
      failed.state.started = true ∧
      failed.state.clear.state.answers [.put (.string "a"), .put (.string "a")] =
        (new options).start.state.answers [.put (.string "a"), .put (.string "a")] := by
  intro options failed
  have hreached : Reached options failed.state :=
    .call (.call .new (.put (.string "a"))) (.put (.array [.string "a", .array []]))
  exact ⟨by rfl, rfl, hreached, by rfl, answers_clear options rfl failed.state hreached (by rfl) _⟩

end Encoder

end DictLog
