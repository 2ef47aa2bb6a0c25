/-
# Emissions: what a step of the writing side leaves behind

A step appends bytes, changes a state and may fail; the bytes appended before a failure count.
Steps compose by `andThen`, which stops at the first failure.  It is associative
(`andThen_assoc`), and a step that does nothing is neutral (`skip_andThen`, `andThen_skip`).
`forEach` takes the same step for each item of a list (`forEach_cons`).

Two emissions are `Alike` if they show the same and leave related states, and so are sequences whose
parts are (`Alike.andThen`).
-/
import DictLog.Fault

namespace DictLog

/-- The bytes a step appended, the state it left, and how it ended. -/
structure Emission (σ : Type) where
  bytes : List UInt8
  state : σ
  outcome : Except Fault Unit

namespace Emission

variable {σ : Type}

/-- Append some bytes. -/
def write (bytes : List UInt8) (state : σ) : Emission σ :=
  ⟨bytes, state, .ok ()⟩

/-- Do nothing. -/
def skip (state : σ) : Emission σ :=
  write [] state

/-- Fail. -/
def fail (fault : Fault) (state : σ) : Emission σ :=
  ⟨[], state, .error fault⟩

/-- The same step as part of a larger one. -/
def map {τ : Type} (f : σ → τ) (e : Emission σ) : Emission τ :=
  ⟨e.bytes, f e.state, e.outcome⟩

/-- One step and, unless it fails, another. -/
def andThen (first : Emission σ) (second : σ → Emission σ) : Emission σ :=
  match first.outcome with
  | .ok () =>
    let next := second first.state
    { next with bytes := first.bytes ++ next.bytes }
  | .error _ => first

/-- A step for each item in turn, the bytes `written` before standing in reverse. -/
def forEachFrom {α : Type} (step : α → σ → Emission σ) (written : List UInt8) :
    List α → σ → Emission σ
  | [], state => write written.reverse state
  | item :: rest, state =>
    let e := step item state
    let written := e.bytes.reverse ++ written
    match e.outcome with
    | .ok () => forEachFrom step written rest e.state
    | .error fault => ⟨written.reverse, e.state, .error fault⟩

/-- A step for each item in turn. -/
def forEach {α : Type} (step : α → σ → Emission σ) (items : List α) (state : σ) : Emission σ :=
  forEachFrom step [] items state

@[simp] theorem write_andThen (bytes : List UInt8) (state : σ) (next : σ → Emission σ) :
    (write bytes state).andThen next =
      { next state with bytes := bytes ++ (next state).bytes } := rfl

@[simp] theorem skip_andThen (state : σ) (next : σ → Emission σ) :
    (skip state).andThen next = next state := rfl

@[simp] theorem fail_andThen (fault : Fault) (state : σ) (next : σ → Emission σ) :
    (fail fault state).andThen next = fail fault state := rfl

@[simp] theorem andThen_skip (e : Emission σ) : e.andThen skip = e := by
  obtain ⟨bytes, state, _ | ⟨⟩⟩ := e
  · rfl
  · simp [andThen, skip, write]

theorem andThen_of_ok {e : Emission σ} (h : e.outcome = .ok ()) (next : σ → Emission σ) :
    e.andThen next = { next e.state with bytes := e.bytes ++ (next e.state).bytes } := by
  simp only [andThen, h]

theorem andThen_of_error {e : Emission σ} {fault : Fault} (h : e.outcome = .error fault)
    (next : σ → Emission σ) : e.andThen next = e := by
  simp only [andThen, h]

/-- Two steps succeed one after the other if each of them does. -/
theorem outcome_andThen {e : Emission σ} {next : σ → Emission σ} :
    (e.andThen next).outcome = .ok () ↔
      e.outcome = .ok () ∧ (next e.state).outcome = .ok () := by
  cases h : e.outcome with
  | ok u => rw [andThen_of_ok h, and_iff_right rfl]
  | error fault => simp [andThen_of_error h, h]

/-- What the first of two steps leaves and the second keeps is left by both.  If the first fails, the
second is not taken, and the state is the one that the first left. -/
theorem state_andThen {P : σ → Prop} {e : Emission σ} {next : σ → Emission σ} (h : P e.state)
    (hnext : ∀ s, P s → P (next s).state) : P (e.andThen next).state := by
  cases he : e.outcome with
  | ok u =>
    rw [andThen_of_ok he]
    exact hnext _ h
  | error fault =>
    rw [andThen_of_error he]
    exact h

/-- How steps in a row are grouped makes no difference. -/
theorem andThen_assoc (e : Emission σ) (f g : σ → Emission σ) :
    (e.andThen f).andThen g = e.andThen fun s => (f s).andThen g := by
  obtain ⟨bytes, state, _ | ⟨⟩⟩ := e
  · rfl
  · simp only [andThen]
    cases h : (f state).outcome <;> simp [h]

/-- The bytes that were written before only stand in front; collecting them in reverse is a matter
of speed. -/
theorem forEachFrom_eq {α : Type} (step : α → σ → Emission σ) (written : List UInt8)
    (items : List α) (state : σ) :
    forEachFrom step written items state =
      (write written.reverse state).andThen (forEach step items) := by
  induction items generalizing written state with
  | nil => simp [forEachFrom, forEach, write, andThen]
  | cons item rest ih =>
    cases h : (step item state).outcome with
    | error fault => simp [forEachFrom, forEach, h]
    | ok u =>
      simp only [forEachFrom, forEach, h, write_andThen]
      rw [ih ((step item state).bytes.reverse ++ written),
        ih ((step item state).bytes.reverse ++ [])]
      simp

@[simp] theorem forEach_nil {α : Type} (step : α → σ → Emission σ) (state : σ) :
    forEach step [] state = skip state := rfl

/-- The step for the first item, and then those for the others. -/
theorem forEach_cons {α : Type} (step : α → σ → Emission σ) (item : α) (rest : List α)
    (state : σ) :
    forEach step (item :: rest) state = (step item state).andThen (forEach step rest) := by
  cases h : (step item state).outcome with
  | error fault =>
    simp only [forEachFrom, forEach, h, andThen, List.append_nil, List.reverse_reverse]
    rw [← h]
  | ok u =>
    simp only [forEach, forEachFrom, h, andThen]
    rw [forEachFrom_eq]
    simp [forEach]

end Emission

/-! ## Emissions that are alike -/

/-- Two emissions that show the same, and leave states that are so related. -/
structure Emission.Alike {σ τ : Type} (R : σ → τ → Prop) (m : Emission σ) (n : Emission τ) :
    Prop where
  bytes : m.bytes = n.bytes
  outcome : m.outcome = n.outcome
  state : R m.state n.state

namespace Emission.Alike

variable {σ τ : Type} {R : σ → τ → Prop} {s : σ} {t : τ} {m : Emission σ} {n : Emission τ}
  {next : σ → Emission σ} {next' : τ → Emission τ}

theorem write (h : R s t) (bytes : List UInt8) : Alike R (.write bytes s) (.write bytes t) :=
  ⟨rfl, rfl, h⟩

theorem skip (h : R s t) : Alike R (.skip s) (.skip t) :=
  write h []

theorem fail (h : R s t) (fault : Fault) : Alike R (.fail fault s) (.fail fault t) :=
  ⟨rfl, rfl, h⟩

/-- Where the first of two steps fails, so does its twin, and neither goes on; where it succeeds, the
second is taken from states that are related. -/
theorem andThen (h : Alike R m n) (hnext : ∀ {s t}, R s t → Alike R (next s) (next' t)) :
    Alike R (m.andThen next) (n.andThen next') := by
  cases hm : m.outcome with
  | ok u =>
    have hn : n.outcome = .ok () := by rw [← h.outcome, hm]
    have hsecond := hnext h.state
    rw [Emission.andThen_of_ok hm, Emission.andThen_of_ok hn]
    exact ⟨by rw [h.bytes, hsecond.bytes], hsecond.outcome, hsecond.state⟩
  | error fault =>
    have hn : n.outcome = .error fault := by rw [← h.outcome, hm]
    rw [Emission.andThen_of_error hm, Emission.andThen_of_error hn]
    exact h

end Emission.Alike

end DictLog
