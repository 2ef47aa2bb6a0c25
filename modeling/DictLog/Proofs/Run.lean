/-
# Runs to the end, and what asking makes of them

`Yields step s items t` says that asking from `s` on gives these items and leaves `t`, `Ends` that
there is nothing more behind them, and `Fails` that there is a fault behind them.  A run that asks
often enough is one of the two (`ask_of_ends`, `ask_of_fails`).  Where each item makes the state
smaller, there are no other runs (`ends_or_fails`), and the size is often enough.
-/
import DictLog.Run

namespace DictLog.Run

variable {σ α : Type} {step : EStateM Fault σ (Option α)} {s t u final : σ} {items : List α}
  {fault : Fault}

/-! ## 1. Runs as relations -/

/-- Asked from `s` on, the step gives these items one after the other, and leaves `t`. -/
inductive Yields (step : EStateM Fault σ (Option α)) : σ → List α → σ → Prop
  | nil {s : σ} : Yields step s [] s
  | cons {s t u : σ} {item : α} {items : List α} (head : step s = .ok (some item) t)
      (tail : Yields step t items u) : Yields step s (item :: items) u

/-- These items, and then the end, which is found by asking once more. -/
def Ends (step : EStateM Fault σ (Option α)) (s : σ) (items : List α) (final : σ) : Prop :=
  ∃ t, Yields step s items t ∧ step t = .ok none final

/-- These items, and then a fault. -/
def Fails (step : EStateM Fault σ (Option α)) (s : σ) (items : List α) (fault : Fault)
    (final : σ) : Prop :=
  ∃ t, Yields step s items t ∧ step t = .error fault final

theorem Ends.cons {item : α} (head : step s = .ok (some item) t)
    (tail : Ends step t items final) : Ends step s (item :: items) final := by
  obtain ⟨u, hu, hend⟩ := tail
  exact ⟨u, .cons head hu, hend⟩

theorem Fails.cons {item : α} (head : step s = .ok (some item) t)
    (tail : Fails step t items fault final) : Fails step s (item :: items) fault final := by
  obtain ⟨u, hu, hfail⟩ := tail
  exact ⟨u, .cons head hu, hfail⟩

/-- A run goes on where another left off. -/
theorem Yields.append {more : List α} (h : Yields step s items t) (k : Yields step t more u) :
    Yields step s (items ++ more) u := by
  induction h with
  | nil => exact k
  | cons head _ ih => exact .cons head (ih k)

/-- A run can be stopped after any of its items, and goes on from there. -/
theorem Yields.split {more : List α} (h : Yields step s (items ++ more) u) :
    ∃ t, Yields step s items t ∧ Yields step t more u := by
  induction items generalizing s with
  | nil => exact ⟨s, .nil, h⟩
  | cons item items ih =>
    cases h with
    | cons head tail =>
      obtain ⟨t, ht, hu⟩ := ih tail
      exact ⟨t, .cons head ht, hu⟩

theorem Yields.ends {more : List α} (h : Yields step s items t) (k : Ends step t more final) :
    Ends step s (items ++ more) final := by
  obtain ⟨u, hu, hend⟩ := k
  exact ⟨u, h.append hu, hend⟩

theorem Yields.fails {more : List α} (h : Yields step s items t)
    (k : Fails step t more fault final) : Fails step s (items ++ more) fault final := by
  obtain ⟨u, hu, hfail⟩ := k
  exact ⟨u, h.append hu, hfail⟩

/-! ## 2. Asking often enough -/

/-- Asking so often gives the items that are there, and then whatever asking the remaining times
gives. -/
theorem ask_of_yields (h : Yields step s items t) (times : Nat) :
    ask step (items.length + times) s =
      { ask step times t with items := items ++ (ask step times t).items } := by
  induction h with
  | nil => rw [List.length_nil, Nat.zero_add, List.nil_append]
  | @cons s t u item items head tail ih =>
    have hlen : (item :: items).length + times = (items.length + times) + 1 := by
      rw [List.length_cons]
      omega
    rw [hlen, ask, askFrom, head]
    show askFrom step [item] _ t = _
    rw [askFrom_eq, ih]
    rfl

/-- Who asks more often than there are items finds the end, and no fault. -/
theorem ask_of_ends (h : Ends step s items final) {times : Nat} (hlt : items.length < times) :
    ask step times s = ⟨items, none, final⟩ := by
  obtain ⟨t, ht, hend⟩ := h
  obtain ⟨more, rfl⟩ := Nat.exists_eq_add_of_lt hlt
  have hlast : ask step (more + 1) t = ⟨[], none, final⟩ := by
    rw [ask, askFrom, hend]
    rfl
  rw [Nat.add_assoc, ask_of_yields ht, hlast, List.append_nil]

/-- Who asks more often than there are items finds the fault behind them. -/
theorem ask_of_fails (h : Fails step s items fault final) {times : Nat}
    (hlt : items.length < times) : ask step times s = ⟨items, some fault, final⟩ := by
  obtain ⟨t, ht, hfail⟩ := h
  obtain ⟨more, rfl⟩ := Nat.exists_eq_add_of_lt hlt
  have hlast : ask step (more + 1) t = ⟨[], some fault, final⟩ := by
    rw [ask, askFrom, hfail]
    rfl
  rw [Nat.add_assoc, ask_of_yields ht, hlast, List.append_nil]

theorem prefix_of_yields (h : Yields step s items t) {times : Nat} (hle : items.length ≤ times) :
    items <+: (ask step times s).items := by
  obtain ⟨more, rfl⟩ := Nat.exists_eq_add_of_le hle
  rw [ask_of_yields h]
  exact List.prefix_append _ _

/-- Where another step makes the same of each item but for its form, so does a run of it.  A
condition on the states may be used for that, if the step keeps it. -/
theorem Yields.map {step' : EStateM Fault σ (Option α)} {f : α → α} {P : σ → Prop}
    (h : Yields step s items t)
    (hstep : ∀ s item t, P s → step s = .ok (some item) t →
      P t ∧ step' s = .ok (some (f item)) t) (hs : P s) :
    P t ∧ Yields step' s (items.map f) t := by
  induction h with
  | nil => exact ⟨hs, .nil⟩
  | cons head _ ih =>
    obtain ⟨ht, hhead⟩ := hstep _ _ _ hs head
    obtain ⟨hu, htail⟩ := ih ht
    exact ⟨hu, .cons hhead htail⟩

/-! ## 3. Steps that make the state smaller -/

/-- From states that satisfy `P`, each item leaves such a state, and a smaller one. -/
def Shrinks (step : EStateM Fault σ (Option α)) (P : σ → Prop) (size : σ → Nat) : Prop :=
  ∀ s item t, P s → step s = .ok (some item) t → P t ∧ size t < size s

variable {P : σ → Prop} {size : σ → Nat}

/-- There are no more items than the state was large, and what is left is left. -/
theorem Yields.length_add_le (h : Yields step s items t) (hstep : Shrinks step P size)
    (hs : P s) : items.length + size t ≤ size s := by
  induction h with
  | nil => exact Nat.le_of_eq (Nat.zero_add _)
  | cons head _ ih =>
    obtain ⟨ht, hlt⟩ := hstep _ _ _ hs head
    have hle := ih ht
    rw [List.length_cons]
    omega

/-- A run comes to its end or to a fault.  The induction is on a bound for the size, which each item
brings down. -/
theorem ends_or_fails (hstep : Shrinks step P size) :
    ∀ n s, size s < n → P s →
      (∃ items final, Ends step s items final) ∨
        ∃ items fault final, Fails step s items fault final := by
  intro n
  induction n with
  | zero =>
    intro s hn
    exact absurd hn (Nat.not_lt_zero _)
  | succ n ih =>
    intro s hn hs
    cases hs' : step s with
    | error fault final => exact .inr ⟨[], fault, final, s, .nil, hs'⟩
    | ok item t =>
      cases item with
      | none => exact .inl ⟨[], t, s, .nil, hs'⟩
      | some item =>
        obtain ⟨ht, hlt⟩ := hstep _ _ _ hs hs'
        rcases ih t (by omega) ht with h | h
        · obtain ⟨items, final, h⟩ := h
          exact .inl ⟨item :: items, final, h.cons hs'⟩
        · obtain ⟨items, fault, final, h⟩ := h
          exact .inr ⟨item :: items, fault, final, h.cons hs'⟩

section Asking

variable {n : Nat}

/-- A bound on the size is a bound on the number of items. -/
theorem Yields.length_lt (h : Yields step s items t) (hstep : Shrinks step P size) (hs : P s)
    (hn : size s < n) : items.length < n := by
  have hle := h.length_add_le hstep hs
  omega

/-- A run that ends is what asking gives, as often as the state is large. -/
theorem Ends.ask_eq (h : Ends step s items final) (hstep : Shrinks step P size) (hs : P s)
    (hn : size s < n) : ask step n s = ⟨items, none, final⟩ := by
  have hlt : items.length < n := by
    obtain ⟨t, hyields, -⟩ := h
    exact hyields.length_lt hstep hs hn
  exact ask_of_ends h hlt

theorem Fails.ask_eq (h : Fails step s items fault final) (hstep : Shrinks step P size) (hs : P s)
    (hn : size s < n) : ask step n s = ⟨items, some fault, final⟩ := by
  have hlt : items.length < n := by
    obtain ⟨t, hyields, -⟩ := h
    exact hyields.length_lt hstep hs hn
  exact ask_of_fails h hlt

/-- If asking often enough gives a fault, the run fails with it behind the items that were given. -/
theorem fails_of_ask (hstep : Shrinks step P size) (hs : P s) (hn : size s < n)
    (h : (ask step n s).failure = some fault) :
    Fails step s (ask step n s).items fault (ask step n s).final := by
  rcases ends_or_fails hstep n s hn hs with ⟨items, final, hrun⟩ | ⟨items, other, final, hrun⟩
  · rw [hrun.ask_eq hstep hs hn] at h
    cases h
  · rw [hrun.ask_eq hstep hs hn] at h ⊢
    cases h
    exact hrun

/-- If asking often enough gives no fault, the run ends behind the items that were given. -/
theorem ends_of_ask (hstep : Shrinks step P size) (hs : P s) (hn : size s < n)
    (h : (ask step n s).failure = none) :
    Ends step s (ask step n s).items (ask step n s).final := by
  rcases ends_or_fails hstep n s hn hs with ⟨items, final, hrun⟩ | ⟨items, fault, final, hrun⟩
  · rw [hrun.ask_eq hstep hs hn]
    exact hrun
  · rw [hrun.ask_eq hstep hs hn] at h
    cases h

/-- Who is asked often enough gives items one after the other. -/
theorem yields_of_ask (hstep : Shrinks step P size) (hs : P s) (hn : size s < n) :
    ∃ t, Yields step s (ask step n s).items t := by
  cases hfailure : (ask step n s).failure with
  | none =>
    obtain ⟨t, ht, -⟩ := ends_of_ask hstep hs hn hfailure
    exact ⟨t, ht⟩
  | some fault =>
    obtain ⟨t, ht, -⟩ := fails_of_ask hstep hs hn hfailure
    exact ⟨t, ht⟩

end Asking

end DictLog.Run
