/-
# Two readers side by side

What a reader does on one input says something about what it does on another: behind a longer
beginning, in front of more bytes, with a different end.  Here two readers go the same way, step
by step.  The second may stand further into its input than the first; its offsets, also those in
its faults, are larger by that much (`Fault.shift`).  A `Bond` says when they stand at
corresponding places, and `Agree` what it means that they make the same of a step:

* both succeed, with the same result but for offsets, and stand at corresponding places again;
* both fail, with the same fault but for offsets;
* the first finds its input over.  What the second does then is a matter of its `Leeway`: if that is
  nothing, it does the same, but its own input may end otherwise or go on.

Agreement is kept by sequences (`Agree.bind`, `AgreeNext.bind`) and by runs (`Run.Yields.agree`), so
it is enough to look at the steps one by one.
-/
import DictLog.Decoder
import DictLog.Proofs.Run
import DictLog.Proofs.Step

namespace DictLog

/-! ## 1. Further into an input -/

/-- The excess, found `n` bytes further on. -/
def Excess.shift (n : Nat) : Excess → Excess
  | payload length offset limit => payload length (offset + n) limit
  | string length offset limit => string length (offset + n) limit
  | nesting limit offset => nesting limit (offset + n)
  | dictionary limit => dictionary limit
  | writtenNesting limit => writtenNesting limit
  | lineNesting limit line => lineNesting limit line

/-- The fault, found `n` bytes further on. -/
def Fault.shift (n : Nat) : Fault → Fault
  | framing offset found => framing (offset + n) found
  | unknownTag byte offset => unknownTag byte (offset + n)
  | desync offset lastDictionary backlink => desync (offset + n) (lastDictionary + n) backlink
  | notFinite bits offset => notFinite bits (offset + n)
  | invalidRecordStart tag offset => invalidRecordStart tag (offset + n)
  | unexpectedToken expected found offset => unexpectedToken expected found (offset + n)
  | payloadLength offset declared actual => payloadLength (offset + n) declared actual
  | limit excess => limit (excess.shift n)
  | versionMismatch expected found => versionMismatch expected found
  | indexOutOfRange index size => indexOutOfRange index size
  | invalidUtf8 bytes fault => invalidUtf8 bytes fault
  | truncated => truncated
  | integerOverflow => integerOverflow
  | missingHeader => missingHeader
  | invalidLine line cause => invalidLine line cause
  | io cause => io cause

/-- The token, found `n` bytes further on. -/
def Placed.shift (n : Nat) (p : Placed) : Placed :=
  ⟨p.offset + n, p.token⟩

/-- The record, found `n` bytes further on. -/
def Entry.shift (n : Nat) (entry : Entry) : Entry :=
  { entry with offset := entry.offset + n }

@[simp] theorem Fault.shift_zero (f : Fault) : f.shift 0 = f := by
  cases f with
  | limit excess => cases excess <;> rfl
  | _ => rfl

@[simp] theorem Entry.shift_zero (entry : Entry) : entry.shift 0 = entry := rfl

/-! ## 2. Leeway -/

/-- What the second reader may do where the first finds its input over. -/
inductive Leeway where
  /-- Nothing else: its own input is over, too. -/
  | nothing
  /-- Fail, since its input cannot be read on. -/
  | failing (cause : IoFault)
  /-- Anything, since its input goes on. -/
  | anything

/-- The second reader may come to this. -/
def Leeway.Allows {σ α : Type} : Leeway → EStateM.Result Fault σ α → Prop
  | nothing, _ => False
  | failing cause, r => ∃ s, r = .error (.io cause) s
  | anything, _ => True

namespace Leeway

open Step

variable {σ ρ α β : Type} {w : Leeway}

/-- Whatever is done behind a step, what the step is allowed to come to is allowed: a failure stays
a failure, and anything stays anything. -/
theorem Allows.bind {m : EStateM Fault σ α} {s : σ} (h : w.Allows (m s))
    (f : α → EStateM Fault σ β) : w.Allows ((m >>= f) s) := by
  cases w with
  | nothing => exact h
  | failing cause =>
    obtain ⟨s', hs⟩ := h
    exact ⟨s', bind_of_error hs f⟩
  | anything => trivial

theorem Allows.onPart {part : ρ → σ} {put : σ → ρ → ρ} {m : EStateM Fault σ α} {whole : ρ}
    (h : w.Allows (m (part whole))) : w.Allows (onPart part put m whole) := by
  cases w with
  | nothing => exact h
  | failing cause =>
    obtain ⟨s', hs⟩ := h
    exact ⟨_, onPart_of_error hs⟩
  | anything => trivial

end Leeway

/-! ## 3. Agreement -/

/-- What holds two readers together. -/
structure Bond (σ τ : Type) where
  /-- How much further into its input the second stands. -/
  shift : Nat
  leeway : Leeway
  /-- They stand at corresponding places. -/
  Beside : σ → τ → Prop
  /-- How many bytes the first has still to come. -/
  left : σ → Nat
  /-- How many bytes the second has still to come. -/
  right : τ → Nat

variable {σ τ α β γ δ : Type}

/-- Two readers that stood at `s` and `t` have both taken `n` bytes or more, and stand at
corresponding places now. -/
structure Bond.Behind (b : Bond σ τ) (n : Nat) (s : σ) (t : τ) (s' : σ) (t' : τ) : Prop where
  beside : b.Beside s' t'
  left : b.left s' + n ≤ b.left s
  right : b.right t' + n ≤ b.right t

/-- Two readers that stood at `s` and `t` have made the same of a step. -/
inductive Agree (b : Bond σ τ) (n : Nat) (g : α → β) (s : σ) (t : τ) :
    EStateM.Result Fault σ α → EStateM.Result Fault τ β → Prop
  | ok {a : α} {s' : σ} {t' : τ} (behind : b.Behind n s t s' t') :
      Agree b n g s t (.ok a s') (.ok (g a) t')
  | error {f : Fault} {s' : σ} {t' : τ} (sure : f = .truncated → b.leeway = .nothing)
      (behind : b.Behind 0 s t s' t') :
      Agree b n g s t (.error f s') (.error (f.shift b.shift) t')
  | truncated {s' : σ} {r : EStateM.Result Fault τ β} (allowed : b.leeway.Allows r) :
      Agree b n g s t (.error .truncated s') r

/-- Two readers that stood at `s` and `t` have made the same of a step to the next item, if there
is one. -/
inductive AgreeNext (b : Bond σ τ) (n : Nat) (g : α → β) (s : σ) (t : τ) :
    EStateM.Result Fault σ (Option α) → EStateM.Result Fault τ (Option β) → Prop
  | item {a : α} {s' : σ} {t' : τ} (behind : b.Behind n s t s' t') :
      AgreeNext b n g s t (.ok (some a) s') (.ok (some (g a)) t')
  | ended {s' : σ} {t' : τ} (sure : b.leeway = .nothing) (behind : b.Behind 0 s t s' t') :
      AgreeNext b n g s t (.ok none s') (.ok none t')
  | error {f : Fault} {s' : σ} {t' : τ} (sure : f = .truncated → b.leeway = .nothing)
      (behind : b.Behind 0 s t s' t') :
      AgreeNext b n g s t (.error f s') (.error (f.shift b.shift) t')
  | truncated {s' : σ} {r : EStateM.Result Fault τ (Option β)} (allowed : b.leeway.Allows r) :
      AgreeNext b n g s t (.error .truncated s') r
  | exhausted {s' : σ} {r : EStateM.Result Fault τ (Option β)} (allowed : b.leeway.Allows r) :
      AgreeNext b n g s t (.ok none s') r

/-- From corresponding places on, two readers make the same of a step. -/
def Bond.Parallel (b : Bond σ τ) (g : α → β) (m : EStateM Fault σ α) (m' : EStateM Fault τ β) :
    Prop :=
  ∀ s t, b.Beside s t → Agree b 0 g s t (m s) (m' t)

variable {b : Bond σ τ} {n k : Nat} {g : α → β} {h : γ → δ} {s s' : σ} {t t' : τ}

theorem Bond.Behind.refl (hst : b.Beside s t) : b.Behind 0 s t s t :=
  ⟨hst, Nat.le_refl _, Nat.le_refl _⟩

/-- Bytes that were taken in two goes add up, on both sides. -/
theorem Bond.Behind.trans {u : σ} {v : τ} (hst : b.Behind n s t s' t')
    (huv : b.Behind k s' t' u v) : b.Behind (k + n) s t u v where
  beside := huv.beside
  left := by
    have hl := hst.left
    have hl' := huv.left
    omega
  right := by
    have hr := hst.right
    have hr' := huv.right
    omega

/-- Who has taken so many bytes has taken fewer. -/
theorem Bond.Behind.mono (hst : b.Behind n s t s' t') (hle : k ≤ n) : b.Behind k s t s' t' where
  beside := hst.beside
  left := by
    have hl := hst.left
    omega
  right := by
    have hr := hst.right
    omega

open Step

namespace Agree

theorem pure (hst : b.Beside s t) (a : α) :
    Agree b 0 g s t ((Pure.pure a : EStateM Fault σ α) s)
      ((Pure.pure (g a) : EStateM Fault τ β) t) :=
  .ok (.refl hst)

/-- A fault that is thrown on both sides is agreed on, its offsets apart.  Truncation is no such
fault, as it depends on what is there, which need not be the same. -/
theorem throw (hst : b.Beside s t) (f : Fault) (hf : f ≠ .truncated) :
    Agree b 0 g s t ((MonadExcept.throw f : EStateM Fault σ α) s)
      ((MonadExcept.throw (f.shift b.shift) : EStateM Fault τ β) t) :=
  .error (fun h => absurd h hf) (.refl hst)

/-- What was agreed on further on was agreed on, and the bytes in between count. -/
theorem after {r : EStateM.Result Fault σ α} {r' : EStateM.Result Fault τ β}
    (hst : b.Behind n s t s' t') (h : Agree b k g s' t' r r') : Agree b (k + n) g s t r r' := by
  cases h with
  | ok behind => exact .ok (hst.trans behind)
  | error sure behind => exact .error sure ((hst.trans behind).mono (Nat.zero_le _))
  | truncated allowed => exact .truncated allowed

theorem mono {r : EStateM.Result Fault σ α} {r' : EStateM.Result Fault τ β}
    (h : Agree b n g s t r r') (hle : k ≤ n) : Agree b k g s t r r' := by
  cases h with
  | ok behind => exact .ok (behind.mono hle)
  | error sure behind => exact .error sure behind
  | truncated allowed => exact .truncated allowed

/-- Readers that agree on a step, and then on the next, agree on both.  The next step is looked at
only where both have come to it, which is why it may use that they stand side by side. -/
theorem bind {m : EStateM Fault σ α} {m' : EStateM Fault τ β} {f : α → EStateM Fault σ γ}
    {f' : β → EStateM Fault τ δ} (hm : Agree b n g s t (m s) (m' t))
    (hf : ∀ a s' t', b.Behind n s t s' t' → Agree b 0 h s' t' (f a s') (f' (g a) t')) :
    Agree b n h s t ((m >>= f) s) ((m' >>= f') t) := by
  generalize hr : m s = r at hm
  generalize hr' : m' t = r' at hm
  -- Only after a success is there a next step; a fault or a leeway of the first is passed on.
  cases hm with
  | @ok a s' t' behind =>
    rw [bind_of_ok hr, bind_of_ok hr', ← Nat.zero_add n]
    exact (hf a s' t' behind).after behind
  | error sure behind =>
    rw [bind_of_error hr, bind_of_error hr']
    exact .error sure behind
  | truncated allowed =>
    rw [bind_of_error hr]
    rw [← hr'] at allowed
    exact .truncated (allowed.bind f')

end Agree

namespace AgreeNext

variable {m : EStateM Fault σ (Option α)} {m' : EStateM Fault τ (Option β)}

/-- Readers for whom the end of the input is a fault, and who otherwise agree on a step and then on
the next, agree on both. -/
theorem bind {f : Option α → EStateM Fault σ γ} {f' : Option β → EStateM Fault τ δ}
    (hm : AgreeNext b n g s t (m s) (m' t))
    (hf : ∀ a s' t', b.Behind n s t s' t' → Agree b 0 h s' t' (f (some a) s') (f' (some (g a)) t'))
    (hnone : f none = throw .truncated) (hnone' : f' none = throw .truncated) :
    Agree b n h s t ((m >>= f) s) ((m' >>= f') t) := by
  generalize hr : m s = r at hm
  generalize hr' : m' t = r' at hm
  cases hm with
  | @item a s' t' behind =>
    rw [bind_of_ok hr, bind_of_ok hr', ← Nat.zero_add n]
    exact (hf a s' t' behind).after behind
  | ended sure behind =>
    rw [bind_of_ok hr, bind_of_ok hr', hnone, hnone']
    exact .error (fun _ => sure) behind
  | error sure behind =>
    rw [bind_of_error hr, bind_of_error hr']
    exact .error sure behind
  | truncated allowed =>
    rw [bind_of_error hr]
    rw [← hr'] at allowed
    exact .truncated (allowed.bind f')
  | exhausted allowed =>
    rw [bind_of_ok hr, hnone]
    rw [← hr'] at allowed
    exact .truncated (allowed.bind f')

theorem after {r : EStateM.Result Fault σ (Option α)} {r' : EStateM.Result Fault τ (Option β)}
    (hst : b.Behind n s t s' t') (hr : AgreeNext b k g s' t' r r') :
    AgreeNext b (k + n) g s t r r' := by
  cases hr with
  | item behind => exact .item (hst.trans behind)
  | ended sure behind => exact .ended sure ((hst.trans behind).mono (Nat.zero_le _))
  | error sure behind => exact .error sure ((hst.trans behind).mono (Nat.zero_le _))
  | truncated allowed => exact .truncated allowed
  | exhausted allowed => exact .exhausted allowed

/-- Readers that agree on a step to the next item, and on what they then make of it, agree on the
item they give.  At the end of the input each may still do something, if that keeps them side by
side. -/
theorem bindNext {f : Option α → EStateM Fault σ (Option γ)}
    {f' : Option β → EStateM Fault τ (Option δ)} (atEnd : σ → σ) (atEnd' : τ → τ)
    (hm : AgreeNext b n g s t (m s) (m' t))
    (hf : ∀ a s' t', b.Behind n s t s' t' →
      AgreeNext b 0 h s' t' (f (some a) s') (f' (some (g a)) t'))
    (hnone : ∀ s', f none s' = .ok none (atEnd s'))
    (hnone' : ∀ t', f' none t' = .ok none (atEnd' t'))
    (hend : ∀ s' t', b.Behind 0 s t s' t' → b.Behind 0 s t (atEnd s') (atEnd' t')) :
    AgreeNext b n h s t ((m >>= f) s) ((m' >>= f') t) := by
  generalize hr : m s = r at hm
  generalize hr' : m' t = r' at hm
  cases hm with
  | @item a s' t' behind =>
    rw [bind_of_ok hr, bind_of_ok hr', ← Nat.zero_add n]
    exact (hf a s' t' behind).after behind
  | ended sure behind =>
    rw [bind_of_ok hr, bind_of_ok hr', hnone, hnone']
    exact .ended sure (hend _ _ behind)
  | error sure behind =>
    rw [bind_of_error hr, bind_of_error hr']
    exact .error sure behind
  | truncated allowed =>
    rw [bind_of_error hr]
    rw [← hr'] at allowed
    exact .truncated (allowed.bind f')
  | exhausted allowed =>
    rw [bind_of_ok hr, hnone]
    rw [← hr'] at allowed
    exact .exhausted (allowed.bind f')

end AgreeNext

/-- Readers that agree on a step agree on the item it gives.  Neither of them comes to an end here;
where one does, that is for the step in front to say. -/
theorem Agree.next {m : EStateM Fault σ α} {m' : EStateM Fault τ β}
    (hm : Agree b n g s t (m s) (m' t)) :
    AgreeNext b n g s t ((m >>= fun a => Pure.pure (some a)) s)
      ((m' >>= fun a => Pure.pure (some a)) t) := by
  generalize hr : m s = r at hm
  generalize hr' : m' t = r' at hm
  cases hm with
  | ok behind =>
    rw [bind_of_ok hr, bind_of_ok hr']
    exact .item behind
  | error sure behind =>
    rw [bind_of_error hr, bind_of_error hr']
    exact .error sure behind
  | truncated allowed =>
    rw [bind_of_error hr]
    rw [← hr'] at allowed
    exact .truncated (allowed.bind _)

/-! ## 4. What the second reader then makes of it -/

namespace AgreeNext

variable {r : EStateM.Result Fault τ (Option β)} {a : α}

/-- An item on the first side is an item on the second, whatever the leeway. -/
theorem of_item (hr : AgreeNext b n g s t (.ok (some a) s') r) :
    ∃ t', r = .ok (some (g a)) t' ∧ b.Behind n s t s' t' := by
  cases hr with
  | item behind => exact ⟨_, rfl, behind⟩

/-- The end on the first side is the end on the second, or the leeway decides. -/
theorem of_none (hr : AgreeNext b n g s t (.ok none s') r) :
    (b.leeway = .nothing ∧ ∃ t', r = .ok none t') ∨ b.leeway.Allows r := by
  cases hr with
  | ended sure behind => exact .inl ⟨sure, _, rfl⟩
  | exhausted allowed => exact .inr allowed

/-- A fault on the first side is the same fault on the second; only truncation is left to the
leeway. -/
theorem of_error {f : Fault} (hr : AgreeNext b n g s t (.error f s') r) :
    ((f = .truncated → b.leeway = .nothing) ∧ ∃ t', r = .error (f.shift b.shift) t') ∨
      f = .truncated ∧ b.leeway.Allows r := by
  cases hr with
  | error sure behind => exact .inl ⟨sure, _, rfl⟩
  | truncated allowed => exact .inr ⟨rfl, allowed⟩

end AgreeNext

section Runs

variable {step : EStateM Fault σ (Option α)} {step' : EStateM Fault τ (Option β)}
  {items : List α} {final : σ} {f : Fault}

/-- **Runs agree.**  Where the first reader gives some items, the second gives the same.  An item
leaves no leeway, so the induction needs the steps and nothing else. -/
theorem Run.Yields.agree (hrun : Yields step s items s')
    (hstep : ∀ s t, b.Beside s t → AgreeNext b n g s t (step s) (step' t)) :
    ∀ {t : τ}, b.Beside s t → ∃ t', Yields step' t (items.map g) t' ∧ b.Beside s' t' := by
  induction hrun with
  | nil =>
    intro t hst
    exact ⟨t, .nil, hst⟩
  | @cons s u s' item items head tail ih =>
    intro t hst
    have hnext := hstep s t hst
    rw [head] at hnext
    obtain ⟨v, hv, huv⟩ := hnext.of_item
    obtain ⟨t', ht', hst'⟩ := ih huv.beside
    exact ⟨t', .cons hv ht', hst'⟩

/-- Where the first reader comes to the end, so does the second, or it does what it may.  The latter
is for readers of which one has more bytes than the other. -/
theorem Run.Ends.agree (hrun : Ends step s items final)
    (hstep : ∀ s t, b.Beside s t → AgreeNext b n g s t (step s) (step' t))
    (hst : b.Beside s t) :
    (b.leeway = .nothing ∧ ∃ final', Ends step' t (items.map g) final') ∨
      ∃ t', Yields step' t (items.map g) t' ∧ b.leeway.Allows (step' t') := by
  obtain ⟨u, hyields, hend⟩ := hrun
  obtain ⟨v, hyields', huv⟩ := hyields.agree hstep hst
  have hnext := hstep u v huv
  rw [hend] at hnext
  rcases hnext.of_none with ⟨hnothing, final', hfinal⟩ | hallowed
  · exact .inl ⟨hnothing, final', v, hyields', hfinal⟩
  · exact .inr ⟨v, hyields', hallowed⟩

/-- Where the first reader fails, so does the second, or it does what it may.  Being truncated is the
one fault that more bytes could have prevented. -/
theorem Run.Fails.agree (hrun : Fails step s items f final)
    (hstep : ∀ s t, b.Beside s t → AgreeNext b n g s t (step s) (step' t))
    (hst : b.Beside s t) :
    ((f = .truncated → b.leeway = .nothing) ∧
        ∃ final', Fails step' t (items.map g) (f.shift b.shift) final') ∨
      f = .truncated ∧ ∃ t', Yields step' t (items.map g) t' ∧ b.leeway.Allows (step' t') := by
  obtain ⟨u, hyields, hfail⟩ := hrun
  obtain ⟨v, hyields', huv⟩ := hyields.agree hstep hst
  have hnext := hstep u v huv
  rw [hfail] at hnext
  rcases hnext.of_error with ⟨hsure, final', hfinal⟩ | ⟨htruncated, hallowed⟩
  · exact .inl ⟨hsure, final', v, hyields', hfinal⟩
  · exact .inr ⟨htruncated, v, hyields', hallowed⟩

end Runs

/-! ## 5. Readers inside larger ones -/

section Parts

variable {ρ ρ' : Type} {b' : Bond ρ ρ'} {part : ρ → σ} {put : σ → ρ → ρ} {part' : ρ' → τ}
  {put' : τ → ρ' → ρ'} {w : ρ} {w' : ρ'}

theorem onPart_of_ok {ε : Type} {m : EStateM ε σ α} {a : α} (hm : m (part w) = .ok a s) :
    onPart part put m w = .ok a (put s w) :=
  onPart_eq_ok.mpr ⟨s, hm, rfl⟩

/-- What parts of two readers agree on, the readers agree on, if it is up to these parts whether
the readers are at corresponding places. -/
theorem Agree.onPart {m : EStateM Fault σ α} {m' : EStateM Fault τ β}
    (hm : Agree b n g (part w) (part' w') (m (part w)) (m' (part' w')))
    (hput : ∀ k s t, b.Behind k (part w) (part' w') s t → b'.Behind k w w' (put s w) (put' t w'))
    (hshift : b'.shift = b.shift) (hleeway : b'.leeway = b.leeway) :
    Agree b' n g w w' (onPart part put m w) (onPart part' put' m' w') := by
  generalize hr : m (part w) = r at hm
  generalize hr' : m' (part' w') = r' at hm
  cases hm with
  | ok behind =>
    rw [onPart_of_ok hr, onPart_of_ok hr']
    exact .ok (hput _ _ _ behind)
  | error sure behind =>
    rw [onPart_of_error hr, onPart_of_error hr', ← hshift]
    exact .error (hleeway ▸ sure) (hput _ _ _ behind)
  | truncated allowed =>
    rw [← hr', ← hleeway] at allowed
    rw [onPart_of_error hr]
    exact .truncated allowed.onPart

/-- So it is with steps to the next item, which may come to an end as well: readers that agree on a
part of their states agree as a whole. -/
theorem AgreeNext.onPart {m : EStateM Fault σ (Option α)} {m' : EStateM Fault τ (Option β)}
    (hm : AgreeNext b n g (part w) (part' w') (m (part w)) (m' (part' w')))
    (hput : ∀ k s t, b.Behind k (part w) (part' w') s t → b'.Behind k w w' (put s w) (put' t w'))
    (hshift : b'.shift = b.shift) (hleeway : b'.leeway = b.leeway) :
    AgreeNext b' n g w w' (onPart part put m w) (onPart part' put' m' w') := by
  generalize hr : m (part w) = r at hm
  generalize hr' : m' (part' w') = r' at hm
  cases hm with
  | item behind =>
    rw [onPart_of_ok hr, onPart_of_ok hr']
    exact .item (hput _ _ _ behind)
  | ended sure behind =>
    rw [onPart_of_ok hr, onPart_of_ok hr']
    exact .ended (hleeway.trans sure) (hput _ _ _ behind)
  | error sure behind =>
    rw [onPart_of_error hr, onPart_of_error hr', ← hshift]
    exact .error (hleeway ▸ sure) (hput _ _ _ behind)
  | truncated allowed =>
    rw [← hr', ← hleeway] at allowed
    rw [onPart_of_error hr]
    exact .truncated allowed.onPart
  | exhausted allowed =>
    rw [← hr', ← hleeway] at allowed
    rw [onPart_of_ok hr]
    exact .exhausted allowed.onPart

end Parts

end DictLog
