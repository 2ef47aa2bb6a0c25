/-
# Steps: what a sequence of them did

A reader is a step on a state: it succeeds with a result and a new state, or fails with a fault.
Sequences of steps are opened here once and for all.

* `bind_eq_ok`: a sequence succeeded exactly when each of its parts did, one after the other;
* `bind_of_ok`: once the first part is known to succeed, it can be left out;
* `onPart_eq_ok`: a step of a part succeeded exactly when it did so on that part.
-/
import DictLog.Feed

namespace DictLog.Step

variable {ε σ τ α β : Type}

@[simp] theorem pure_apply (a : α) (s : σ) : (pure a : EStateM ε σ α) s = .ok a s := rfl

@[simp] theorem throw_apply (e : ε) (s : σ) : (throw e : EStateM ε σ α) s = .error e s := rfl

@[simp] theorem set_apply (s t : σ) : (set t : EStateM ε σ PUnit) s = .ok ⟨⟩ t := rfl

@[simp] theorem get_bind_apply (f : σ → EStateM ε σ α) (s : σ) :
    ((get : EStateM ε σ σ) >>= f) s = f s s := rfl

/-- A step that is known to succeed can be left out of a sequence. -/
theorem bind_of_ok {m : EStateM ε σ α} {s s' : σ} {a : α} (h : m s = .ok a s')
    (f : α → EStateM ε σ β) : (m >>= f) s = f a s' := by
  show EStateM.bind m f s = f a s'
  simp only [EStateM.bind, h]

/-- A step that is known to fail ends a sequence. -/
theorem bind_of_error {m : EStateM ε σ α} {s s' : σ} {e : ε} (h : m s = .error e s')
    (f : α → EStateM ε σ β) : (m >>= f) s = .error e s' := by
  show EStateM.bind m f s = .error e s'
  simp only [EStateM.bind, h]

/-- Sequences that begin alike and go on alike are alike. -/
theorem bind_congr {m n : EStateM ε σ α} {s t : σ} (h : m s = n t) (f : α → EStateM ε σ β) :
    (m >>= f) s = (n >>= f) t := by
  show EStateM.bind m f s = EStateM.bind n f t
  simp only [EStateM.bind, h]

/-- A sequence succeeded exactly if each of its two parts did, the second from where the first left
off.  Everything that is known of a successful run is taken apart with this, one step at a time. -/
theorem bind_eq_ok {m : EStateM ε σ α} {f : α → EStateM ε σ β} {s s'' : σ} {b : β} :
    (m >>= f) s = .ok b s'' ↔ ∃ a s', m s = .ok a s' ∧ f a s' = .ok b s'' := by
  cases h : m s with
  | ok a s' =>
    rw [bind_of_ok h]
    constructor
    · intro hf
      exact ⟨a, s', rfl, hf⟩
    · rintro ⟨_, _, ⟨⟩, hf⟩
      exact hf
  | error e s' =>
    rw [bind_of_error h]
    constructor
    · intro hf
      exact absurd hf (by simp)
    · rintro ⟨_, _, ⟨⟩, -⟩

/-- A step of a part succeeded exactly if it did so on that part, and the rest of the state is as it
was. -/
theorem onPart_eq_ok {part : τ → σ} {put : σ → τ → τ} {m : EStateM ε σ α} {w w' : τ} {a : α} :
    onPart part put m w = .ok a w' ↔ ∃ s, m (part w) = .ok a s ∧ w' = put s w := by
  cases h : m (part w) with
  | ok b s =>
    simp only [onPart, h, EStateM.Result.ok.injEq]
    constructor
    · rintro ⟨rfl, rfl⟩
      exact ⟨s, ⟨rfl, rfl⟩, rfl⟩
    · rintro ⟨_, ⟨rfl, rfl⟩, rfl⟩
      exact ⟨rfl, rfl⟩
  | error e s => simp [onPart, h]

/-- A step of a part that fails fails for the whole, and what it did to the part stays done. -/
theorem onPart_of_error {part : τ → σ} {put : σ → τ → τ} {m : EStateM ε σ α} {w : τ} {s : σ} {e : ε}
    (h : m (part w) = .error e s) : onPart part put m w = .error e (put s w) := by
  simp only [onPart, h]

end DictLog.Step
