/-
# One pass over the records

Whatever is asked of a reading, and in whatever order, it goes once through the records that its
decoder gives before the first fault, and reports that fault once.  `Pass` is such a reading without
any decoder: the records that are still to come, and the fault behind them, if there is one and it
has not been reported.  A reading answers as its pass does (`answers_eq`), and a pass that has
reported its fault has nothing more to say (`pairwise_answers`).

So the iterator of the decoder, the reader, the conversion to text, the listing and the decoding in
memory all find the same values and the same fault (`one_pass`), for corrupt streams, too.
-/
import DictLog.Ndjson.Decode
import DictLog.Proofs.Skipping
import DictLog.Proofs.Values

namespace DictLog

open OnTape Step

/-! ## 1. Passes -/

/-- The records that are still to come, and the fault behind them. -/
structure Pass where
  entries : List Entry
  fault : Option Fault

/-- What may be asked for. -/
inductive Wanted where
  | value
  | record
  deriving DecidableEq

/-- What may be found. -/
inductive Found where
  | value (v : Json)
  | record (entry : Entry)

/-- One call after another for the same thing, until so many are found or there are no more.  A
single call is a batch of one; so is the stream of all values, of which some are taken. -/
structure Batch where
  wanted : Wanted
  most : Nat := 1

/-- What was found, and the fault that was reported. -/
structure Answer where
  found : List Found
  fault : Option Fault

/-- Batches one after the other, each asked of what the one before it left. -/
def Batch.answers {σ : Type} (next : Wanted → EStateM Fault σ (Option Found)) :
    List Batch → σ → List Answer
  | [], _ => []
  | batch :: rest, s =>
    let run := Run.ask (next batch.wanted) batch.most s
    ⟨run.items, run.failure⟩ :: answers next rest run.final

namespace Pass

/-- The end of a pass, where a fault is reported once. -/
def finish {α : Type} (fault : Option Fault) : EStateM.Result Fault Pass (Option α) :=
  match fault with
  | none => .ok none ⟨[], none⟩
  | some fault => .error fault ⟨[], none⟩

/-- The next record. -/
def nextRecord : EStateM Fault Pass (Option Entry) := fun p =>
  match p.entries with
  | [] => finish p.fault
  | entry :: rest => .ok (some entry) ⟨rest, p.fault⟩

/-- The first value of some records, the others in front of it passed over. -/
def firstValue (fault : Option Fault) : List Entry → EStateM.Result Fault Pass (Option Json)
  | [] => finish fault
  | entry :: rest =>
    match entry.value? with
    | some v => .ok (some v) ⟨rest, fault⟩
    | none => firstValue fault rest

/-- The next value. -/
def nextValue : EStateM Fault Pass (Option Json) := fun p =>
  firstValue p.fault p.entries

/-- The next of what is wanted. -/
def next : Wanted → EStateM Fault Pass (Option Found)
  | .value => do return (← nextValue).map .value
  | .record => do return (← nextRecord).map .record

/-- A pass that is over. -/
def done : Pass := ⟨[], none⟩

/-- The pass over what a decoder gives. -/
def ofRun {σ : Type} (run : Run σ Entry) : Pass :=
  ⟨run.items, run.failure⟩

end Pass

/-- The next of what is wanted. -/
def Reading.next {σ : Type} [Feed σ] : Wanted → EStateM Fault (Reading σ) (Option Found)
  | .value => do return (← Reading.nextValue).map .value
  | .record => do return (← Reading.nextRecord .decoded).map .record

/-! ## 2. Steps that mirror each other -/

/-- Two steps come to the same, and leave states that are related. -/
inductive Mirrors {σ τ α : Type} (R : σ → τ → Prop) :
    EStateM.Result Fault σ α → EStateM.Result Fault τ α → Prop
  | ok {a : α} {s : σ} {t : τ} (h : R s t) : Mirrors R (.ok a s) (.ok a t)
  | error {fault : Fault} {s : σ} {t : τ} (h : R s t) : Mirrors R (.error fault s) (.error fault t)

section Mirrors

variable {σ τ α β : Type} {R : σ → τ → Prop} {s : σ} {t : τ}

/-- What is made of the results is the same as well, if the same is made of them on both sides. -/
theorem Mirrors.map {m : EStateM Fault σ α} {m' : EStateM Fault τ α} (h : Mirrors R (m s) (m' t))
    (f : α → β) : Mirrors R ((do return f (← m) : EStateM Fault σ β) s)
      ((do return f (← m') : EStateM Fault τ β) t) := by
  generalize hm : m s = r at h
  generalize hm' : m' t = r' at h
  cases h with
  | ok h =>
    rw [bind_of_ok hm, bind_of_ok hm']
    exact .ok h
  | error h =>
    rw [bind_of_error hm, bind_of_error hm']
    exact .error h

/-- Two runs find the same and come to the same fault. -/
structure Run.Mirror (R : σ → τ → Prop) (run : Run σ α) (run' : Run τ α) : Prop where
  items : run'.items = run.items
  failure : run'.failure = run.failure
  final : R run.final run'.final

/-- Who asks for one item after the other meets no difference, as each step keeps the two sides
related. -/
theorem mirror_ask {m : EStateM Fault σ (Option α)} {m' : EStateM Fault τ (Option α)}
    (hstep : ∀ {s t}, R s t → Mirrors R (m s) (m' t)) (times : Nat) :
    ∀ {s t}, R s t → Run.Mirror R (Run.ask m times s) (Run.ask m' times t) := by
  induction times with
  | zero => exact fun h => ⟨rfl, rfl, h⟩
  | succ times ih =>
    intro s t h
    have hhead := hstep h
    simp only [Run.ask, Run.askFrom]
    generalize m s = r at hhead
    generalize m' t = r' at hhead
    cases hhead with
    | error h => exact ⟨rfl, rfl, h⟩
    | @ok item s' t' h =>
      cases item with
      | none => exact ⟨rfl, rfl, h⟩
      | some item =>
        obtain ⟨hitems, hfailure, hfinal⟩ := ih h
        simp only [Run.askFrom_eq]
        exact ⟨congrArg _ hitems, hfailure, hfinal⟩

/-- Who asks batch by batch, for values or for records in whatever order, meets none either. -/
theorem answers_of_mirrors {next : Wanted → EStateM Fault σ (Option Found)}
    {next' : Wanted → EStateM Fault τ (Option Found)}
    (hstep : ∀ wanted {s t}, R s t → Mirrors R (next wanted s) (next' wanted t))
    (batches : List Batch) : ∀ {s t}, R s t →
      Batch.answers next batches s = Batch.answers next' batches t := by
  induction batches with
  | nil => exact fun _ => rfl
  | cons batch rest ih =>
    intro s t h
    obtain ⟨hitems, hfailure, hfinal⟩ := mirror_ask (hstep batch.wanted) batch.most h
    simp only [Batch.answers]
    rw [hitems, hfailure, ih hfinal]

end Mirrors

/-! ## 3. A decoder and its pass -/

namespace Decoder

variable {d d' t : Decoder Tape} {p : Pass} {entries : List Entry} {fault : Option Fault}
  {α : Type}

/-- A decoder behind its last record comes to this end. -/
def ComesTo (d : Decoder Tape) : Option Fault → Prop
  | none => ∃ final, nextRecord .decoded d = .ok none final
  | some fault => ∃ final, nextRecord .decoded d = .error fault final

/-- A decoder gives what its pass has. -/
structure Follows (d : Decoder Tape) (p : Pass) : Prop where
  between : Between d
  records : ∃ t, Run.Yields (nextRecord .decoded) d p.entries t ∧ ComesTo t p.fault

/-- A step of a decoder comes to the same as a step of its pass.  Behind a fault the pass is
over. -/
inductive Keeps : EStateM.Result Fault (Decoder Tape) (Option α) →
    EStateM.Result Fault Pass (Option α) → Prop
  | ok {item : Option α} {d : Decoder Tape} {p : Pass} (h : Follows d p) :
      Keeps (.ok item d) (.ok item p)
  | error {fault : Fault} {d : Decoder Tape} : Keeps (.error fault d) (.error fault .done)

/-- Behind the end there is the end again. -/
theorem follows_of_none (hd : Between d) (h : nextRecord .decoded d = .ok none d') :
    Follows d' .done := by
  obtain ⟨hrest, hending, rfl⟩ := (nextRecord_eq_none hd.lookahead).mp h
  refine ⟨⟨hd.lookahead, hd.size⟩, _, .nil, _, (nextRecord_eq_none ?_).mpr ⟨hrest, hending, rfl⟩⟩
  exact hd.lookahead

/-- Asking for a record moves a decoder and its pass on together: both give the first of the records
that are left, or come to the fault or the end behind them. -/
theorem keeps_nextRecord (h : Follows d p) : Keeps (nextRecord .decoded d) (p.nextRecord) := by
  obtain ⟨entries, fault⟩ := p
  obtain ⟨hd, t, hyields, hend⟩ := h
  cases hyields with
  | nil =>
    cases fault with
    | none =>
      obtain ⟨final, hfinal⟩ := hend
      rw [hfinal]
      exact .ok (follows_of_none hd hfinal)
    | some fault =>
      obtain ⟨final, hfinal⟩ := hend
      rw [hfinal]
      exact .error
  | cons head tail =>
    obtain ⟨-, _, _, -, -, hadvanced⟩ := nextRecord_sound hd head
    rw [head]
    exact .ok ⟨hadvanced.between, t, tail, hend⟩

/-- Asking for a value, where so many records may be passed.  The induction is on the records that
are still to come, and the fuel outlasts them. -/
theorem keeps_nextValueWithin (hyields : Run.Yields (nextRecord .decoded) d entries t)
    (hend : ComesTo t fault) : Between d → ∀ times, entries.length < times →
      Keeps (nextValueWithin times d) (Pass.firstValue fault entries) := by
  induction hyields with
  | @nil d =>
    intro hd times htimes
    obtain ⟨times, rfl⟩ := Nat.exists_eq_add_of_lt htimes
    cases fault with
    | none =>
      obtain ⟨final, hfinal⟩ := hend
      rw [nextValueWithin, bind_of_ok hfinal]
      exact .ok (follows_of_none hd hfinal)
    | some fault =>
      obtain ⟨final, hfinal⟩ := hend
      rw [nextValueWithin, bind_of_error hfinal]
      exact .error
  | @cons d u t entry entries head tail ih =>
    intro hd times htimes
    cases times with
    | zero => exact absurd htimes (Nat.not_lt_zero _)
    | succ times =>
      obtain ⟨-, _, _, -, -, hadvanced⟩ := nextRecord_sound hd head
      have htail := ih hend hadvanced.between times (Nat.lt_of_succ_lt_succ htimes)
      rw [nextValueWithin, bind_of_ok head, Pass.firstValue]
      rcases value_or_not hd head with ⟨n, v, hv⟩ | hno
      · simp only [Entry.value?, hv]
        exact .ok ⟨hadvanced.between, t, tail, hend⟩
      · cases hrecord : entry.record with
        | value n v => exact absurd hrecord (hno n v)
        | _ =>
          simp only [Entry.value?, hrecord]
          exact htail

/-- The fuel is enough, since every record takes a byte. -/
theorem keeps_nextValue (h : Follows d p) : Keeps (nextValue d) p.nextValue := by
  obtain ⟨hd, t, hyields, hend⟩ := h
  exact keeps_nextValueWithin hyields hend hd d.bound (length_lt_bound hyields hd)

/-- The records of a decoder, and what is behind them. -/
theorem follows_ofRun (hd : Between d) : Follows d (.ofRun (d.records .decoded)) := by
  refine ⟨hd, ?_⟩
  rcases ends_or_fails_records .decoded hd.lookahead with ⟨entries, final, h⟩ |
    ⟨entries, fault, final, h⟩
  · rw [records_of_ends hd.lookahead h]
    obtain ⟨t, hyields, hend⟩ := h
    exact ⟨t, hyields, final, hend⟩
  · rw [records_of_fails hd.lookahead h]
    obtain ⟨t, hyields, hfail⟩ := h
    exact ⟨t, hyields, final, hfail⟩

end Decoder

/-! ## 4. A reading and its pass -/

namespace Reading

variable {r r' : Reading Tape} {p : Pass} {α : Type}

/-- A reading stands where its pass does: it has failed and its pass is over, or its decoder gives
what the pass has. -/
inductive Stands : Reading Tape → Pass → Prop
  | failed {d : Decoder Tape} : Stands ⟨d, true⟩ .done
  | live {d : Decoder Tape} {p : Pass} (h : d.Follows p) : Stands ⟨d, false⟩ p

/-- What is attempted of the decoder is done once, unless it has failed.  So a reading stands for the
decoder up to its first fault, and for nothing from there on. -/
theorem mirrors_attempt {step : EStateM Fault (Decoder Tape) (Option α)}
    {pass : EStateM Fault Pass (Option α)} (hdone : pass .done = .ok none .done)
    (hstep : ∀ {d p}, Decoder.Follows d p → Decoder.Keeps (step d) (pass p)) (h : Stands r p) :
    Mirrors Stands (attempt step r) (pass p) := by
  cases h with
  | failed =>
    rw [hdone]
    exact .ok .failed
  | @live d p h =>
    have hkeeps := hstep h
    simp only [attempt, Bool.false_eq_true, if_false]
    generalize step d = result at hkeeps
    generalize pass p = result' at hkeeps
    cases hkeeps with
    | ok h => exact .ok (.live h)
    | error => exact .error .failed

theorem mirrors_nextValue (h : Stands r p) : Mirrors Stands (nextValue r) (p.nextValue) :=
  mirrors_attempt rfl Decoder.keeps_nextValue h

theorem mirrors_nextRecord (h : Stands r p) :
    Mirrors Stands (nextRecord .decoded r) (p.nextRecord) :=
  mirrors_attempt rfl Decoder.keeps_nextRecord h

theorem mirrors_next (wanted : Wanted) (h : Stands r p) :
    Mirrors Stands (next wanted r) (Pass.next wanted p) := by
  cases wanted with
  | value => exact (mirrors_nextValue h).map _
  | record => exact (mirrors_nextRecord h).map _

/-- However requests for values and for records follow each other, a reading answers as its pass
does. -/
theorem answers_eq (batches : List Batch) (h : Stands r p) :
    Batch.answers next batches r = Batch.answers Pass.next batches p :=
  answers_of_mirrors (fun wanted _ _ => mirrors_next wanted) batches h

/-- A reading begins where the pass over the records of its decoder begins. -/
theorem stands_ofFeed (tape : Tape) (limits : Limits) :
    Stands (ofFeed tape limits) (.ofRun ((Decoder.ofFeed tape limits).records .decoded)) :=
  .live (Decoder.follows_ofRun (Decoder.between_ofFeed tape limits))

end Reading

/-! ## 5. Passes on their own -/

namespace Pass

variable {p p' : Pass} {fault : Option Fault} {entries : List Entry}

theorem next_done (wanted : Wanted) : next wanted done = .ok none done := by
  cases wanted <;> rfl

/-- The fault behind the last record is reported once, and nothing is left behind it. -/
theorem firstValue_of_error {f : Fault} (h : firstValue fault entries = .error f p') :
    p' = done := by
  induction entries with
  | nil =>
    cases fault with
    | none => cases h
    | some f =>
      cases h
      rfl
  | cons entry rest ih =>
    rw [firstValue] at h
    cases hvalue : entry.value? with
    | some v =>
      rw [hvalue] at h
      cases h
    | none =>
      rw [hvalue] at h
      exact ih h

/-- So it is where records are asked for. -/
theorem nextRecord_of_error {f : Fault} (h : nextRecord p = .error f p') : p' = done := by
  obtain ⟨entries, fault⟩ := p
  cases entries with
  | nil =>
    cases fault with
    | none => cases h
    | some f =>
      cases h
      rfl
  | cons entry rest => cases h

/-- A pass that reports its fault is over, whether it was asked for a value or a record. -/
theorem next_of_error {wanted : Wanted} {f : Fault} (h : next wanted p = .error f p') :
    p' = done := by
  cases wanted with
  | value =>
    cases hvalue : nextValue p with
    | ok v t =>
      rw [next, bind_of_ok hvalue] at h
      cases h
    | error f' t =>
      rw [next, bind_of_error hvalue] at h
      cases h
      exact firstValue_of_error hvalue
  | record =>
    cases hrecord : nextRecord p with
    | ok entry t =>
      rw [next, bind_of_ok hrecord] at h
      cases h
    | error f' t =>
      rw [next, bind_of_error hrecord] at h
      cases h
      exact nextRecord_of_error hrecord

/-- A batch that ends in the fault leaves a pass that is over, so that every later batch is empty. -/
theorem final_of_failure {wanted : Wanted} (times : Nat) : ∀ {p : Pass},
    (Run.ask (next wanted) times p).failure ≠ none →
      (Run.ask (next wanted) times p).final = done := by
  induction times with
  | zero => exact fun h => absurd rfl h
  | succ times ih =>
    intro p h
    simp only [Run.ask, Run.askFrom] at h ⊢
    cases hnext : next wanted p with
    | error f t => exact next_of_error hnext
    | ok item t =>
      cases item with
      | none => simp [hnext] at h
      | some item =>
        simp only [hnext, Run.askFrom_eq] at h ⊢
        exact ih h

theorem ask_done (wanted : Wanted) (times : Nat) :
    Run.ask (next wanted) times done = ⟨[], none, done⟩ := by
  cases times with
  | zero => rfl
  | succ times => simp only [Run.ask, Run.askFrom, next_done, List.reverse_nil]

theorem answers_done (batches : List Batch) :
    ∀ answer ∈ Batch.answers next batches done, answer = ⟨[], none⟩ := by
  induction batches with
  | nil => exact nofun
  | cons batch rest ih =>
    rw [Batch.answers, ask_done]
    exact List.forall_mem_cons.mpr ⟨rfl, ih⟩

/-- Behind an answer that reports a fault, there is nothing more. -/
theorem pairwise_answers (batches : List Batch) : ∀ p : Pass,
    (Batch.answers next batches p).Pairwise fun answer later =>
      answer.fault ≠ none → later = ⟨[], none⟩ := by
  induction batches with
  | nil => exact fun _ => .nil
  | cons batch rest ih =>
    intro p
    rw [Batch.answers]
    refine .cons (fun later hlater hfault => ?_) (ih _)
    rw [final_of_failure _ hfault] at hlater
    exact answers_done rest later hlater

/-- The first of the values, with the records behind it, or the end if there is none.  Records in
front of it have no value and are passed over. -/
theorem firstValue_eq (fault : Option Fault) (entries : List Entry) :
    (Entry.values entries = [] ∧ firstValue fault entries = finish fault) ∨
      ∃ v rest, Entry.values entries = v :: Entry.values rest ∧ rest.length < entries.length ∧
        firstValue fault entries = .ok (some v) ⟨rest, fault⟩ := by
  induction entries with
  | nil => exact .inl ⟨rfl, rfl⟩
  | cons entry rest ih =>
    rw [firstValue]
    cases hvalue : entry.value? with
    | some v =>
      refine .inr ⟨v, rest, ?_, Nat.lt_succ_self _, rfl⟩
      rw [Entry.values, List.filterMap_cons_some hvalue]
      rfl
    | none =>
      rw [Entry.values, List.filterMap_cons_none hvalue]
      rcases ih with ⟨hnil, hfinish⟩ | ⟨v, more, hvalues, hlt, hfirst⟩
      · exact .inl ⟨hnil, hfinish⟩
      · exact .inr ⟨v, more, hvalues, Nat.lt_succ_of_lt hlt, hfirst⟩

/-- All values of a pass, and its fault, if it is asked often enough: as often as there are records,
and once more. -/
theorem ask_nextValue (fault : Option Fault) (times : Nat) : ∀ entries : List Entry,
    entries.length < times →
      Run.ask nextValue times ⟨entries, fault⟩ = ⟨Entry.values entries, fault, done⟩ := by
  induction times with
  | zero => exact fun _ h => absurd h (Nat.not_lt_zero _)
  | succ times ih =>
    intro entries hlt
    rw [Run.ask, Run.askFrom, nextValue]
    rcases firstValue_eq fault entries with ⟨hnil, hfinish⟩ | ⟨v, rest, hvalues, hless, hfirst⟩
    · rw [hfinish, hnil]
      cases fault <;> rfl
    · rw [hfirst, hvalues]
      show Run.askFrom nextValue [v] times ⟨rest, fault⟩ = _
      rw [Run.askFrom_eq, ih rest (by omega)]
      rfl

end Pass

/-! ## 6. What each caller finds -/

namespace Reading

variable {d d' final : Decoder Tape} {entries : List Entry} {fault : Fault} {α : Type}
  {payloads : Payloads} {items : List α}
  {step : EStateM Fault (Decoder Tape) (Option α)}

/-- While nothing fails, attempting a step is taking it. -/
theorem yields_attempt (h : Run.Yields step d items d') :
    Run.Yields (attempt step) ⟨d, false⟩ items ⟨d', false⟩ := by
  induction h with
  | nil => exact .nil
  | cons head _ ih => exact .cons (by simp [attempt, head]) ih

theorem ends_attempt (h : Run.Ends step d items final) :
    Run.Ends (attempt step) ⟨d, false⟩ items ⟨final, false⟩ := by
  obtain ⟨t, hyields, hend⟩ := h
  exact ⟨_, yields_attempt hyields, by simp [attempt, hend]⟩

theorem fails_attempt (h : Run.Fails step d items fault final) :
    Run.Fails (attempt step) ⟨d, false⟩ items fault ⟨final, true⟩ := by
  obtain ⟨t, hyields, hfail⟩ := h
  exact ⟨_, yields_attempt hyields, by simp [attempt, hfail]⟩

/-- The records of a reading are those of its decoder. -/
theorem records_of_ends (hd : d.lookahead = none)
    (h : Run.Ends (Decoder.nextRecord payloads) d entries final) :
    records payloads ⟨d, false⟩ = ⟨entries, none, ⟨final, false⟩⟩ := by
  have hlt : entries.length < d.bound := by
    obtain ⟨t, hyields, -⟩ := h
    exact hyields.length_lt (Decoder.nextRecord_shortens payloads) hd (Nat.lt_succ_self _)
  exact Run.ask_of_ends (ends_attempt h) hlt

theorem records_of_fails (hd : d.lookahead = none)
    (h : Run.Fails (Decoder.nextRecord payloads) d entries fault final) :
    records payloads ⟨d, false⟩ = ⟨entries, some fault, ⟨final, true⟩⟩ := by
  have hlt : entries.length < d.bound := by
    obtain ⟨t, hyields, -⟩ := h
    exact hyields.length_lt (Decoder.nextRecord_shortens payloads) hd (Nat.lt_succ_self _)
  exact Run.ask_of_fails (fails_attempt h) hlt

/-- The values of a reading are those of the records of its decoder, with the same fault behind
them. -/
theorem mirror_values (tape : Tape) (limits : Limits) :
    let records := (Decoder.ofFeed tape limits).records .decoded
    (ofFeed tape limits).values.items = Entry.values records.items ∧
      (ofFeed tape limits).values.failure = records.failure := by
  intro records
  have hstands := stands_ofFeed tape limits
  have hmirror := mirror_ask (fun h => mirrors_nextValue h) (Decoder.ofFeed tape limits).bound
    hstands
  have hlt : records.items.length < (Decoder.ofFeed tape limits).bound := by
    have hshrinks := Decoder.nextRecord_shortens (σ := Tape) .decoded
    obtain ⟨t, hyields⟩ := Run.yields_of_ask hshrinks (s := Decoder.ofFeed tape limits) rfl
      (Nat.lt_succ_self _)
    exact hyields.length_lt hshrinks rfl (Nat.lt_succ_self _)
  have hask := Pass.ask_nextValue records.failure _ records.items hlt
  rw [Pass.ofRun, hask] at hmirror
  exact ⟨hmirror.items.symm, hmirror.failure.symm⟩

end Reading

/-- The fault that something came to, if it did. -/
def Fault.of? {α : Type} : Except Fault α → Option Fault
  | .ok _ => none
  | .error fault => some fault

namespace Ndjson

variable {tape : Tape} {bytes : List UInt8} {limits : Limits} {entries : List Entry}
  {final : Decoder Tape} {fault : Fault} {s : Grammar.Scope}

theorem decode_of_fails
    (h : Run.Fails (Decoder.nextRecord .decoded) (.ofFeed tape limits) entries fault final) :
    decode tape limits .accepting =
      ⟨String.join ((Entry.values entries).map line), .error fault⟩ := by
  have hrecords := Reading.records_of_fails rfl h
  rw [decode, Reading.ofFeed, hrecords]
  rfl

/-- The summary of a stream with these records. -/
def summaryOf (bytes : List UInt8) (entries : List Entry) (s : Grammar.Scope) : DecodeSummary where
  values := (Entry.values entries).length
  records := entries.length
  addRecords := Grammar.count .add entries
  clearRecords := Grammar.count .clear entries
  dictionaryEntries := s.dictionary.length
  bytesRead := bytes.length

/-- A stream becomes the lines of its values. -/
theorem decode_of_stream (h : Grammar.Stream limits bytes entries s) :
    decode (Tape.ofBytes bytes) limits .accepting =
      ⟨String.join ((Entry.values entries).map line), .ok (summaryOf bytes entries s)⟩ := by
  obtain ⟨final, hends, hscope, hstats⟩ := Decoder.ends_of_stream h
  have hrecords := Reading.records_of_ends rfl hends
  have hsize : final.dictionary.size = s.dictionary.length := by
    rw [← hscope, Decoder.scope, Dictionary.length_toList]
  rw [decode, Reading.ofFeed, hrecords]
  simp only [summary, Reading.stats, Reading.dictionary, hstats, hsize]
  rfl

/-- Bytes become the lines of the values that a decoder finds in them before its fault, which is
reported; without a fault there is a summary. -/
theorem decode_eq (bytes : List UInt8) (limits : Limits) :
    let records := (Decoder.ofFeed (Tape.ofBytes bytes) limits).records .decoded
    let decoded := decode (Tape.ofBytes bytes) limits .accepting
    decoded.output = String.join ((Entry.values records.items).map line) ∧
      Fault.of? decoded.outcome = records.failure ∧
      ∀ summary, decoded.outcome = .ok summary →
        ∃ s, summary = summaryOf bytes records.items s := by
  intro records decoded
  have hlookahead : (Decoder.ofFeed (Tape.ofBytes bytes) limits).lookahead = none := rfl
  rcases Decoder.ends_or_fails_records .decoded hlookahead with ⟨entries, final, h⟩ |
    ⟨entries, fault, final, h⟩
  · obtain ⟨s, hstream⟩ := Decoder.stream_of_ends h
    have hrecords : records = _ := Decoder.records_of_ends rfl h
    have hdecoded : decoded = _ := decode_of_stream hstream
    rw [hrecords, hdecoded]
    refine ⟨rfl, rfl, ?_⟩
    rintro _ ⟨⟩
    exact ⟨s, rfl⟩
  · have hrecords : records = _ := Decoder.records_of_fails rfl h
    have hdecoded : decoded = _ := decode_of_fails h
    rw [hrecords, hdecoded]
    exact ⟨rfl, rfl, nofun⟩

end Ndjson

/-- A decoder that is asked for values gives those of its records, and comes to the same fault. -/
theorem Decoder.values_eq (tape : Tape) (limits : Limits) :
    let records := (ofFeed tape limits).records .decoded
    (ofFeed tape limits).values.items = Entry.values records.items ∧
      (ofFeed tape limits).values.failure = records.failure := by
  intro records
  have hd := between_ofFeed tape limits
  rcases ends_or_fails_records .decoded hd.lookahead with ⟨entries, final, h⟩ |
    ⟨entries, fault, final, h⟩
  · have hrecords : records = _ := records_of_ends rfl h
    rw [values_of_ends h hd rfl, hrecords]
    exact ⟨rfl, rfl⟩
  · have hrecords : records = _ := records_of_fails rfl h
    rw [values_of_fails h hd rfl, hrecords]
    exact ⟨rfl, rfl⟩

namespace Entry

/-- How many strings there are in the dictionary behind a record. -/
def sizeAfter (size : Nat) (entry : Entry) : Nat :=
  match entry.record with
  | .clear => 0
  | .add entries => size + entries
  | _ => size

end Entry

/-- The rows of some records, where there are so many strings in the dictionary in front of them. -/
def Row.listed : Nat → List Entry → List Row
  | _, [] => []
  | size, entry :: rest => ⟨entry, entry.sizeAfter size⟩ :: listed (entry.sizeAfter size) rest

/-- There is one row for each record. -/
theorem Row.map_entry_listed (entries : List Entry) :
    ∀ size, (Row.listed size entries).map Row.entry = entries := by
  induction entries with
  | nil => exact fun _ => rfl
  | cons entry rest ih => exact fun size => congrArg (entry :: ·) (ih _)

/-- How the dictionary grows can be told from the entry. -/
theorem Grammar.Record.length_after {limits : Limits} {s : Scope} {bs : List UInt8} {entry : Entry}
    {after : List String} (h : Record limits s bs entry after) :
    after.length = entry.sizeAfter s.dictionary.length := by
  cases h with
  | add _ _ _ _ => exact List.length_append
  | _ => rfl

namespace Listing

variable {d d' final : Decoder Tape} {entries : List Entry} {fault : Fault} {limits : Limits}
  {tape : Tape} {bytes : List UInt8} {s : Grammar.Scope}

/-- Row by row, with the size of the dictionary behind each record.  A listing asks its decoder; the
size is computed from the entries alone. -/
theorem yields_listed (h : Run.Yields (Decoder.nextRecord .decoded) d entries d') :
    Decoder.Between d → Run.Yields (nextRow .decoded) ⟨d, false⟩
      (Row.listed d.dictionary.size entries) ⟨d', false⟩ := by
  induction h with
  | nil => exact fun _ => .nil
  | @cons d t d' entry entries head _ ih =>
    intro hd
    obtain ⟨-, bs, after, hrecord, hscope, hadvanced⟩ := Decoder.nextRecord_sound hd head
    have hsize : entry.sizeAfter d.dictionary.size = t.dictionary.size := by
      have hafter : t.dictionary.toList = after := congrArg Grammar.Scope.dictionary hscope
      rw [← Dictionary.length_toList t.dictionary, hafter, hrecord.length_after,
        ← Dictionary.length_toList d.dictionary]
      rfl
    rw [Row.listed, hsize]
    exact .cons ((nextRow_eq_some rfl).mpr ⟨t, head, rfl, rfl⟩) (ih hadvanced.between)

/-- A listing of a decoder whose records come to an end. -/
theorem run_of_ends
    (h : Run.Ends (Decoder.nextRecord .decoded) (.ofFeed tape limits) entries final) :
    run tape limits .decoded = ⟨Row.listed 0 entries, none, ⟨final, false⟩⟩ := by
  obtain ⟨t, hyields, hend⟩ := h
  have hrows := yields_listed hyields (Decoder.between_ofFeed tape limits)
  have hends : Run.Ends (nextRow .decoded) _ _ _ :=
    ⟨_, hrows, (nextRow_eq_none rfl).mpr ⟨final, hend, rfl⟩⟩
  exact hends.ask_eq (nextRow_shortens .decoded) ⟨rfl, rfl⟩ (Nat.lt_succ_self _)

/-- A listing of a decoder whose records come to a fault. -/
theorem run_of_fails
    (h : Run.Fails (Decoder.nextRecord .decoded) (.ofFeed tape limits) entries fault final) :
    run tape limits .decoded = ⟨Row.listed 0 entries, some fault, ⟨final, true⟩⟩ := by
  obtain ⟨t, hyields, hfail⟩ := h
  have hrows := yields_listed hyields (Decoder.between_ofFeed tape limits)
  have hrow : nextRow .decoded ⟨t, false⟩ = .error fault (Reading.mk final true) :=
    bind_of_error (by simp [Reading.nextRecord, Reading.attempt, hfail]) _
  have hfails : Run.Fails (nextRow .decoded) _ _ _ _ := ⟨_, hrows, hrow⟩
  exact hfails.ask_eq (nextRow_shortens .decoded) ⟨rfl, rfl⟩ (Nat.lt_succ_self _)

/-- A visitor who accepts every row is shown them all. -/
theorem visited_all (rows : List Row) :
    ∀ n, visited (fun _ _ => .ok ()) n rows = (rows, none) := by
  induction rows with
  | nil => exact fun _ => rfl
  | cons row rows ih => exact fun n => by simp only [visited, ih]

/-- A listing that nobody stops has all rows. -/
theorem all_eq (tape : Tape) (limits : Limits) (payloads : Payloads) :
    all tape limits payloads =
      match (run tape limits payloads).failure with
      | some fault => ⟨(run tape limits payloads).items, .error fault⟩
      | none => ⟨(run tape limits payloads).items, .ok (summary (run tape limits payloads))⟩ := by
  simp only [all, Listing.of, visited_all]
  cases (run tape limits payloads).failure <;> rfl

/-- A listing that leaves nothing out has the records of the decoder, and comes to its fault. -/
theorem all_decoded (tape : Tape) (limits : Limits) :
    let records := (Decoder.ofFeed tape limits).records .decoded
    (all tape limits .decoded).rows.map Row.entry = records.items ∧
      Fault.of? (all tape limits .decoded).outcome = records.failure := by
  intro records
  rw [all_eq]
  rcases Decoder.ends_or_fails_records .decoded (Decoder.between_ofFeed tape limits).lookahead with
    ⟨entries, final, h⟩ | ⟨entries, fault, final, h⟩
  · have hrecords : records = _ := Decoder.records_of_ends rfl h
    rw [run_of_ends h, hrecords]
    exact ⟨Row.map_entry_listed entries 0, rfl⟩
  · have hrecords : records = _ := Decoder.records_of_fails rfl h
    rw [run_of_fails h, hrecords]
    exact ⟨Row.map_entry_listed entries 0, rfl⟩

end Listing

/-! ## 7. All callers together -/

/-- **One pass.**  Take any bytes and any limits: a decoder yields some values, and then ends or
comes to a fault.

* They become lines, one for each value.  If there is a fault, it is reported; if not, the summary
  counts the values, the records and the bytes.
* Decoding in memory, a reader, and a listing of all records come to the same values and to the same
  fault, if there is one.
* However requests for values and for records follow each other, a reader answers like the pass over
  the records and the fault; and behind an answer that reports a fault there is nothing more. -/
theorem one_pass (bytes : List UInt8) (limits : Limits) :
    let tape := Tape.ofBytes bytes
    let yielded := (Decoder.ofFeed tape limits).values
    let records := (Decoder.ofFeed tape limits).records .decoded
    let decoded := Ndjson.decode tape limits .accepting
    let listing := Listing.all tape limits .decoded
    (decoded.output = String.join (yielded.items.map Ndjson.line) ∧
      Fault.of? decoded.outcome = yielded.failure ∧
      ∀ summary, decoded.outcome = .ok summary → summary.values = yielded.items.length ∧
        summary.records = records.items.length ∧ summary.bytesRead = bytes.length) ∧
    (Fault.of? (decodeValues bytes limits) = yielded.failure ∧
      ∀ values, decodeValues bytes limits = .ok values → values = yielded.items) ∧
    ((Reading.ofFeed tape limits).values.items = yielded.items ∧
      (Reading.ofFeed tape limits).values.failure = yielded.failure) ∧
    (Entry.values (listing.rows.map Row.entry) = yielded.items ∧
      Fault.of? listing.outcome = yielded.failure) ∧
    (yielded.items = Entry.values records.items ∧ yielded.failure = records.failure ∧
      ∀ batches, Batch.answers Reading.next batches (Reading.ofFeed tape limits) =
          Batch.answers Pass.next batches ⟨records.items, records.failure⟩ ∧
        (Batch.answers Reading.next batches (Reading.ofFeed tape limits)).Pairwise
          fun answer later => answer.fault ≠ none → later = ⟨[], none⟩) := by
  intro tape yielded records decoded listing
  obtain ⟨hyielded, hfailure⟩ : yielded.items = Entry.values records.items ∧
      yielded.failure = records.failure := Decoder.values_eq tape limits
  obtain ⟨houtput, houtcome, hsummary⟩ := Ndjson.decode_eq bytes limits
  obtain ⟨hvalues, hstopped⟩ := Reading.mirror_values tape limits
  obtain ⟨hrows, hlisting⟩ := Listing.all_decoded tape limits
  have hanswers : ∀ batches, Batch.answers Reading.next batches (Reading.ofFeed tape limits) =
      Batch.answers Pass.next batches ⟨records.items, records.failure⟩ := fun batches =>
    Reading.answers_eq batches (Reading.stands_ofFeed tape limits)
  refine ⟨⟨hyielded ▸ houtput, houtcome.trans hfailure.symm, fun summary h => ?_⟩,
    ⟨?_, fun values h => ?_⟩, ⟨hvalues.trans hyielded.symm, hstopped.trans hfailure.symm⟩,
    ⟨?_, hlisting.trans hfailure.symm⟩, hyielded, hfailure, fun batches => ⟨hanswers batches, ?_⟩⟩
  · obtain ⟨s, rfl⟩ := hsummary summary h
    rw [hyielded]
    exact ⟨rfl, rfl, rfl⟩
  · show Fault.of? yielded.toExcept = _
    rw [Run.toExcept]
    cases yielded.failure <;> rfl
  · change yielded.toExcept = _ at h
    rw [Run.toExcept] at h
    cases hnone : yielded.failure with
    | none =>
      rw [hnone] at h
      exact (Except.ok.inj h).symm
    | some fault =>
      rw [hnone] at h
      cases h
  · rw [hyielded, hrows]
  · rw [hanswers batches]
    exact Pass.pairwise_answers batches _

end DictLog
