/-
# Runs: asking for items until there are no more

Readers give one item at a time.  A `Run` is what a caller gets who asks until the reader reports
the end or fails: the items, the failure if there was one, and the state that is left.
-/
import DictLog.Fault

namespace DictLog

/-- What came of asking for items. -/
structure Run (σ α : Type) where
  items : List α
  failure : Option Fault
  final : σ

namespace Run

variable {σ α : Type}

/-- Ask at most so many times, the items already there standing in reverse. -/
def askFrom (step : EStateM Fault σ (Option α)) (items : List α) : Nat → σ → Run σ α
  | 0, s => ⟨items.reverse, none, s⟩
  | times + 1, s =>
    match step s with
    | .ok (some item) s => askFrom step (item :: items) times s
    | .ok none s => ⟨items.reverse, none, s⟩
    | .error fault s => ⟨items.reverse, some fault, s⟩

/-- Ask at most so many times. -/
def ask (step : EStateM Fault σ (Option α)) (times : Nat) (s : σ) : Run σ α :=
  askFrom step [] times s

/-- The items, or the failure that cut them short. -/
def toExcept (run : Run σ α) : Except Fault (List α) :=
  match run.failure with
  | none => .ok run.items
  | some fault => .error fault

/-- Asking further after some items puts these in front. -/
theorem askFrom_eq (step : EStateM Fault σ (Option α)) (items : List α) (times : Nat) (s : σ) :
    askFrom step items times s =
      { ask step times s with items := items.reverse ++ (ask step times s).items } := by
  induction times generalizing items s with
  | zero => simp [ask, askFrom]
  | succ times ih =>
    simp only [ask, askFrom]
    cases step s with
    | ok item s =>
      cases item with
      | none => simp
      | some item =>
        simp only [ih (item :: items), ih [item], List.reverse_cons, List.append_assoc,
          List.reverse_nil, List.nil_append]
    | error fault s => simp

end Run

end DictLog
