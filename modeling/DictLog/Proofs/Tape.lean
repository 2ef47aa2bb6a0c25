/-
# Reading a tape

Token streams and decoders are states that hold one tape, and most of their steps do nothing but
take bytes off its front.  `OnTape` names the tape of a state, and two notions are stated for all
such states at once:

* `Reads s bytes s'`: the state `s'` is `s` with `bytes` read off its tape;
* `Takes m P s`: from `s`, the step `m` succeeds with a result exactly when the tape begins with
  bytes that `P` relates to the result, and then it takes just these; and where the tape ends
  inside such bytes, the fault is that it was truncated.

So one lemma about a step says what it accepts, what it makes of it, and what becomes of a tape
that was cut off.  The last section has it for the steps of the plain feed.
-/
import DictLog.Proofs.Step
import DictLog.Decoder

namespace DictLog

/-- A state that holds one tape, which can be taken out and put back.  The laws are those of a lens:
what is put is what is found, putting back what was found changes nothing, and of two tapes the one
put last is there. -/
class OnTape (σ : Type) where
  tape : σ → Tape
  withTape : Tape → σ → σ
  tape_withTape : ∀ t s, tape (withTape t s) = t
  withTape_tape : ∀ s, withTape (tape s) s = s
  withTape_withTape : ∀ t u s, withTape t (withTape u s) = withTape t s

namespace OnTape

attribute [simp] tape_withTape withTape_tape withTape_withTape

instance : OnTape Tape where
  tape t := t
  withTape t _ := t
  tape_withTape _ _ := rfl
  withTape_tape _ := rfl
  withTape_withTape _ _ _ := rfl

instance : OnTape (TokenStream Tape) where
  tape s := s.feed
  withTape t s := { s with feed := t }
  tape_withTape _ _ := rfl
  withTape_tape _ := rfl
  withTape_withTape _ _ _ := rfl

instance : OnTape (Decoder Tape) where
  tape d := d.tokens.feed
  withTape t d := { d with tokens := { d.tokens with feed := t } }
  tape_withTape _ _ := rfl
  withTape_tape _ := rfl
  withTape_withTape _ _ _ := rfl

end OnTape

open OnTape Step

variable {σ α β : Type} [OnTape σ]

/-! ## 1. Bytes read off a tape -/

/-- `s'` is `s` with `bytes` read off the front of its tape, and with nothing else changed, which is
what `frame` says. -/
structure Reads (s : σ) (bytes : List UInt8) (s' : σ) : Prop where
  rest : (tape s).rest = bytes ++ (tape s').rest
  offset : (tape s').offset = (tape s).offset + bytes.length
  ending : (tape s').ending = (tape s).ending
  frame : s' = withTape (tape s') s

namespace Reads

theorem refl (s : σ) : Reads s [] s :=
  ⟨rfl, rfl, rfl, (withTape_tape s).symm⟩

theorem trans {s t u : σ} {bs cs : List UInt8} (h : Reads s bs t) (k : Reads t cs u) :
    Reads s (bs ++ cs) u where
  rest := by rw [h.rest, k.rest, List.append_assoc]
  offset := by rw [k.offset, h.offset, List.length_append, Nat.add_assoc]
  ending := k.ending.trans h.ending
  frame := by
    have hk := k.frame
    rw [h.frame, withTape_withTape] at hk
    exact hk

/-- Bytes at the front of a tape can be read. -/
theorem exists_of_rest {s : σ} {bs rest : List UInt8} (h : (tape s).rest = bs ++ rest) :
    ∃ t, Reads s bs t ∧ (tape t).rest = rest := by
  let t : Tape :=
    { rest := rest, offset := (tape s).offset + bs.length, ending := (tape s).ending }
  exact ⟨withTape t s, ⟨by simp [t, h], by simp [t], by simp [t], by simp⟩, by simp [t]⟩

/-- Where some bytes were read, they lead to one state only: the tape is determined by what is left
of it, and the rest of the state by the frame. -/
theorem unique {s t u : σ} {bs : List UInt8} (h : Reads s bs t) (k : Reads s bs u) : t = u := by
  have hrest : (tape t).rest = (tape u).rest := List.append_cancel_left (h.rest.symm.trans k.rest)
  have htape : tape t = tape u :=
    Tape.ext hrest (h.offset.trans k.offset.symm) (h.ending.trans k.ending.symm)
  rw [h.frame, k.frame, htape]

/-- What was read in one go can be read in two, stopping anywhere between. -/
theorem split {s u : σ} {bs cs : List UInt8} (h : Reads s (bs ++ cs) u) :
    ∃ t, Reads s bs t ∧ Reads t cs u := by
  obtain ⟨t, ht, hrest⟩ := exists_of_rest (h.rest.trans (List.append_assoc ..))
  obtain ⟨v, hv, -⟩ := exists_of_rest hrest
  exact ⟨t, ht, (ht.trans hv).unique h ▸ hv⟩

/-- What was read is missing from what is left. -/
theorem length_rest {s t : σ} {bs : List UInt8} (h : Reads s bs t) :
    (tape s).rest.length = bs.length + (tape t).rest.length := by
  rw [h.rest, List.length_append]

end Reads

@[simp] theorem reads_nil_iff {s t : σ} : Reads s [] t ↔ t = s := by
  constructor
  · intro h
    exact h.unique (Reads.refl s)
  · rintro rfl
    exact Reads.refl t

theorem reads_append_iff {s u : σ} {bs cs : List UInt8} :
    Reads s (bs ++ cs) u ↔ ∃ t, Reads s bs t ∧ Reads t cs u := by
  constructor
  · exact Reads.split
  · rintro ⟨t, h, k⟩
    exact h.trans k

/-- Bytes are read one at a time. -/
theorem reads_cons_iff {s u : σ} {b : UInt8} {cs : List UInt8} :
    Reads s (b :: cs) u ↔ ∃ t, Reads s [b] t ∧ Reads t cs u := by
  rw [← reads_append_iff, List.singleton_append]

/-- Reading commutes with a change that leaves the tape alone: whether a flag is set before or after
some bytes are read makes no difference. -/
theorem reads_change_iff {g : σ → σ} (htape : ∀ s, tape (g s) = tape s)
    (hcomm : ∀ t s, g (withTape t s) = withTape t (g s)) {s s' : σ} {bs : List UInt8} :
    Reads (g s) bs s' ↔ ∃ t, Reads s bs t ∧ s' = g t := by
  constructor
  · intro h
    refine ⟨withTape (tape s') s, ⟨?_, ?_, ?_, ?_⟩, ?_⟩
    · rw [tape_withTape, ← htape s, h.rest]
    · rw [tape_withTape, ← htape s, h.offset]
    · rw [tape_withTape, ← htape s, h.ending]
    · rw [tape_withTape]
    · rw [hcomm]
      exact h.frame
  · rintro ⟨t, h, rfl⟩
    refine ⟨?_, ?_, ?_, ?_⟩
    · rw [htape, htape, h.rest]
    · rw [htape, htape, h.offset]
    · rw [htape, htape, h.ending]
    · rw [htape, ← hcomm, ← h.frame]

/-- The tape ends cleanly inside `bytes`: all that is left of it is a proper beginning of them. -/
structure Cut (s : σ) (bytes : List UInt8) : Prop where
  clean : (tape s).ending = .clean
  inside : ∃ missing, missing ≠ [] ∧ bytes = (tape s).rest ++ missing

namespace Cut

theorem not_nil {s : σ} (h : Cut s []) : False := by
  obtain ⟨missing, hne, heq⟩ := h.inside
  exact hne (List.append_eq_nil_iff.mp heq.symm).2

/-- A tape that ends inside two parts ends inside the first, or behind it inside the second. -/
theorem split {s : σ} {bs cs : List UInt8} (h : Cut s (bs ++ cs)) :
    Cut s bs ∨ ∃ t, Reads s bs t ∧ Cut t cs := by
  have behind : ∀ rest missing, (tape s).rest = bs ++ rest → missing ≠ [] →
      cs = rest ++ missing → ∃ t, Reads s bs t ∧ Cut t cs := by
    intro rest missing hrest hne hcs
    obtain ⟨t, ht, hrest'⟩ := Reads.exists_of_rest hrest
    exact ⟨t, ht, ht.ending.trans h.clean, missing, hne, by rw [hrest', hcs]⟩
  obtain ⟨missing, hne, heq⟩ := h.inside
  rcases List.append_eq_append_iff.mp heq with ⟨rest, hrest, hcs⟩ | ⟨inner, hbs, hmissing⟩
  · exact .inr (behind rest missing hrest hne hcs)
  · cases inner with
    | nil =>
      rw [List.append_nil] at hbs
      rw [List.nil_append] at hmissing
      exact .inr (behind [] missing (by rw [hbs, List.append_nil]) hne hmissing.symm)
    | cons b inner => exact .inl ⟨h.clean, b :: inner, List.cons_ne_nil _ _, hbs⟩

/-- A tape that ends inside one byte is empty. -/
theorem rest_eq_nil {s : σ} {b : UInt8} (h : Cut s [b]) : (tape s).rest = [] := by
  obtain ⟨missing, hne, heq⟩ := h.inside
  rcases List.append_eq_singleton_iff.mp heq.symm with ⟨hrest, -⟩ | ⟨-, hmissing⟩
  · exact hrest
  · exact absurd hmissing hne

end Cut

/-! ## 2. Steps that only read -/

/-- From `s`, the step takes exactly the bytes that `P` relates to its result, and finds itself
truncated where the tape ends inside them.

The first part is an equivalence, so it says both what is accepted and what is refused; the second
speaks only of tapes that were cut off, and leaves open how a step refuses other bytes. -/
structure Takes (m : EStateM Fault σ α) (P : List UInt8 → α → Prop) (s : σ) : Prop where
  ok_iff : ∀ a s', m s = .ok a s' ↔ ∃ bs, P bs a ∧ Reads s bs s'
  cut : ∀ bs a, P bs a → Cut s bs → ∃ s', m s = .error .truncated s'

namespace Takes

variable {P P' : List UInt8 → α → Prop} {Q : List UInt8 → β → Prop} {s : σ}

/-- Only what `P` says counts, not how it says it. -/
theorem congr {m : EStateM Fault σ α} (h : Takes m P s) (hP : ∀ bs a, P bs a ↔ P' bs a) :
    Takes m P' s where
  ok_iff a s' := by
    rw [h.ok_iff a s']
    simp only [hP]
  cut bs a ha := h.cut bs a ((hP bs a).mpr ha)

/-- A result that is given without looking takes no bytes. -/
theorem pure (a : α) : Takes (Pure.pure a) (fun bs b => bs = [] ∧ b = a) s where
  ok_iff b s' := by
    simp only [pure_apply, EStateM.Result.ok.injEq]
    constructor
    · rintro ⟨rfl, rfl⟩
      exact ⟨[], ⟨rfl, rfl⟩, Reads.refl s⟩
    · rintro ⟨_, ⟨rfl, rfl⟩, h⟩
      exact ⟨rfl, (reads_nil_iff.mp h).symm⟩
  cut := by
    rintro _ _ ⟨rfl, -⟩ h
    exact h.not_nil.elim

/-- A step that fails accepts nothing, and there is nothing it could be truncated inside. -/
theorem throw (f : Fault) : Takes (MonadExcept.throw f) (fun _ (_ : α) => False) s where
  ok_iff b s' := by simp
  cut _ _ h := h.elim

/-- One step after another takes the bytes of the first and then those of the second.  What the
second takes may depend on the result of the first, and where the tape ends inside both together it
ends inside one of them. -/
theorem bind {m : EStateM Fault σ α} {f : α → EStateM Fault σ β} {R : α → List UInt8 → β → Prop}
    (hm : Takes m P s) (hf : ∀ a s' bs, P bs a → Reads s bs s' → Takes (f a) (R a) s') :
    Takes (m >>= f) (fun bs b => ∃ a cs ds, P cs a ∧ R a ds b ∧ bs = cs ++ ds) s where
  ok_iff b s'' := by
    rw [bind_eq_ok]
    constructor
    · rintro ⟨a, s', h, k⟩
      obtain ⟨cs, hcs, hr⟩ := (hm.ok_iff a s').mp h
      obtain ⟨ds, hds, hr'⟩ := ((hf a s' cs hcs hr).ok_iff b s'').mp k
      exact ⟨cs ++ ds, ⟨a, cs, ds, hcs, hds, rfl⟩, hr.trans hr'⟩
    · rintro ⟨_, ⟨a, cs, ds, hcs, hds, rfl⟩, h⟩
      obtain ⟨s', hr, hr'⟩ := h.split
      exact ⟨a, s', (hm.ok_iff a s').mpr ⟨cs, hcs, hr⟩,
        ((hf a s' cs hcs hr).ok_iff b s'').mpr ⟨ds, hds, hr'⟩⟩
  cut := by
    rintro _ b ⟨a, cs, ds, hcs, hds, rfl⟩ h
    rcases h.split with h | ⟨t, hr, h⟩
    · -- The tape ends inside the bytes of the first step, which fails, so that the second is not
      -- reached.
      obtain ⟨s', he⟩ := hm.cut cs a hcs h
      exact ⟨s', bind_of_error he f⟩
    · -- The first step has all its bytes, and the tape ends behind them.
      rw [bind_of_ok ((hm.ok_iff a t).mpr ⟨cs, hcs, hr⟩)]
      exact (hf a t cs hcs hr).cut ds b hds h

/-- A step whose result is turned into something else takes the same bytes. -/
theorem map {m : EStateM Fault σ α} (hm : Takes m P s) (g : α → β) :
    Takes (m >>= fun a => Pure.pure (g a)) (fun bs b => ∃ a, P bs a ∧ b = g a) s := by
  refine (bind hm fun a s' _ _ _ => pure (g a)).congr fun bs b => ?_
  constructor
  · rintro ⟨a, cs, _, hcs, ⟨rfl, rfl⟩, rfl⟩
    exact ⟨a, by rwa [List.append_nil], rfl⟩
  · rintro ⟨a, ha, rfl⟩
    exact ⟨a, bs, [], ha, ⟨rfl, rfl⟩, (List.append_nil bs).symm⟩

theorem get {f : σ → EStateM Fault σ β} (h : Takes (f s) Q s) :
    Takes (MonadState.get >>= f) Q s where
  ok_iff a s' := by
    rw [get_bind_apply]
    exact h.ok_iff a s'
  cut := h.cut

/-- A test whose first branch fails takes what the other branch does, if the test is passed. -/
theorem guarded {c : Prop} [Decidable c] {f : Fault} {m : EStateM Fault σ α} (h : Takes m P s) :
    Takes (if c then MonadExcept.throw f else m) (fun bs a => ¬ c ∧ P bs a) s := by
  by_cases hc : c
  · rw [if_pos hc]
    exact (throw f).congr fun bs a => ⟨False.elim, fun k => k.1 hc⟩
  · rw [if_neg hc]
    exact h.congr fun bs a => (and_iff_right hc).symm

/-- A result that is given only under a condition takes no bytes, and is given only under the
condition. -/
theorem checked {c : Prop} [Decidable c] (a : α) (f : Fault) :
    Takes (if c then Pure.pure a else MonadExcept.throw f) (fun bs b => c ∧ bs = [] ∧ b = a) s := by
  by_cases hc : c
  · rw [if_pos hc]
    exact (pure a).congr fun bs b => (and_iff_right hc).symm
  · rw [if_neg hc]
    exact (throw f).congr fun bs b => ⟨False.elim, fun h => hc h.1⟩

end Takes

/-- A step of the tape of a larger state takes what it takes on the tape.  Whatever else is in the
state stays as it is. -/
theorem takes_onPart {τ : Type} [OnTape τ] {part : τ → σ} {put : σ → τ → τ}
    {m : EStateM Fault σ α} {P : List UInt8 → α → Prop} {w : τ}
    (hpart : tape (part w) = tape w) (hput : ∀ t, put (withTape t (part w)) w = withTape t w)
    (h : Takes m P (part w)) : Takes (onPart part put m) P w where
  ok_iff a w' := by
    rw [onPart_eq_ok]
    constructor
    · rintro ⟨s, hs, rfl⟩
      obtain ⟨bs, hbs, hr⟩ := (h.ok_iff a s).mp hs
      have hw : put s w = withTape (tape s) w := by rw [hr.frame, hput, tape_withTape]
      refine ⟨bs, hbs, ⟨?_, ?_, ?_, ?_⟩⟩
      · rw [hw, tape_withTape, ← hpart, hr.rest]
      · rw [hw, tape_withTape, ← hpart, hr.offset]
      · rw [hw, tape_withTape, ← hpart, hr.ending]
      · rw [hw, tape_withTape]
    · rintro ⟨bs, hbs, hr⟩
      refine ⟨withTape (tape w') (part w), (h.ok_iff a _).mpr ⟨bs, hbs, ⟨?_, ?_, ?_, ?_⟩⟩, ?_⟩
      · rw [tape_withTape, hpart, hr.rest]
      · rw [tape_withTape, hpart, hr.offset]
      · rw [tape_withTape, hpart, hr.ending]
      · rw [tape_withTape]
      · rw [hput]
        exact hr.frame
  cut bs a ha hcut := by
    obtain ⟨s', he⟩ := h.cut bs a ha
      ⟨by rw [hpart]; exact hcut.clean, by rw [hpart]; exact hcut.inside⟩
    exact ⟨put s' w, onPart_of_error he⟩

/-! ## 3. The plain feed -/

namespace Tape

/-- The next byte is there exactly when the tape has one. -/
theorem nextByte_eq_some {t t' : Tape} {b : UInt8} :
    nextByte t = .ok (some b) t' ↔ Reads t [b] t' := by
  unfold nextByte
  split
  · rename_i byte rest h
    simp only [EStateM.Result.ok.injEq, Option.some.injEq]
    constructor
    · rintro ⟨rfl, rfl⟩
      exact ⟨h, rfl, rfl, rfl⟩
    · intro hr
      have hcons : byte :: rest = b :: t'.rest := h.symm.trans hr.rest
      injection hcons with hb hrest
      exact ⟨hb, Tape.ext hrest hr.offset.symm hr.ending.symm⟩
  · rename_i h
    have hno : ¬ Reads t [b] t' := by
      intro hr
      have hnil : [] = b :: t'.rest := h.symm.trans hr.rest
      exact absurd hnil (by simp)
    simp only [hno, iff_false]
    split <;> simp

/-- There is no next byte exactly at a clean end; where the tape breaks off with a fault, there is
that fault instead. -/
theorem nextByte_eq_none {t t' : Tape} :
    nextByte t = .ok none t' ↔ t.rest = [] ∧ t.ending = .clean ∧ t' = t := by
  unfold nextByte
  split
  · rename_i h
    simp [h]
  · rename_i h
    split
    · rename_i he
      simp only [EStateM.Result.ok.injEq, true_and, h, he]
      exact eq_comm
    · rename_i he
      simp [he]

/-- Taking some number of bytes takes that many, whatever they are. -/
theorem takes_take (n : Nat) (t : Tape) :
    Takes (Tape.take n) (fun bs a => bs = a ∧ a.length = n) t where
  ok_iff a t' := by
    unfold Tape.take
    split
    · rename_i h
      rw [t.unread_eq] at h
      simp only [EStateM.Result.ok.injEq]
      constructor
      · rintro ⟨rfl, rfl⟩
        exact ⟨_, ⟨rfl, by simp [h]⟩,
          ⟨(List.take_append_drop ..).symm, by simp [tape, h], rfl, rfl⟩⟩
      · rintro ⟨bs, ⟨rfl, rfl⟩, hr⟩
        have hrest : t.rest = bs ++ t'.rest := hr.rest
        exact ⟨by simp [hrest], Tape.ext (by simp [hrest]) hr.offset.symm hr.ending.symm⟩
    · rename_i h
      rw [t.unread_eq] at h
      simp only [reduceCtorEq, false_iff]
      rintro ⟨bs, ⟨rfl, rfl⟩, hr⟩
      have hlen := hr.length_rest
      simp only [tape] at hlen
      omega
  cut := by
    rintro bs _ ⟨rfl, rfl⟩ h
    obtain ⟨missing, hne, heq⟩ := h.inside
    have hlen : bs.length = t.rest.length + missing.length := by
      rw [heq, List.length_append]
      rfl
    have hpos := List.length_pos_iff.mpr hne
    have hmore : ¬ bs.length ≤ t.unread := by
      rw [t.unread_eq]
      omega
    have hend : t.ending = .clean := h.clean
    rw [Tape.take, if_neg hmore, hend]
    exact ⟨_, rfl⟩

end Tape

/-- A byte that has to be there takes one byte, and is truncated where there is none. -/
theorem takes_requireByte (t : Tape) :
    Takes Feed.requireByte (fun bs b => bs = [b]) t where
  ok_iff b t' := by
    rw [Feed.requireByte, bind_eq_ok]
    constructor
    · rintro ⟨_ | a, s, hs, h⟩
      · exact absurd h (by simp)
      · obtain ⟨rfl, rfl⟩ : a = b ∧ s = t' := by simpa using h
        exact ⟨[a], rfl, Tape.nextByte_eq_some.mp hs⟩
    · rintro ⟨_, rfl, hr⟩
      exact ⟨some b, t', Tape.nextByte_eq_some.mpr hr, rfl⟩
  cut := by
    rintro _ b rfl h
    have hnone : Feed.nextByte t = .ok none t :=
      Tape.nextByte_eq_none.mpr ⟨h.rest_eq_nil, h.clean, rfl⟩
    exact ⟨t, bind_of_ok hnone _⟩

/-- Taking bytes one at a time comes to taking them in one go (`takes_take`), also where there are
too few. -/
theorem takes_array (n : Nat) (t : Tape) :
    Takes (Feed.array n) (fun bs a => bs = a ∧ a.length = n) t := by
  induction n generalizing t with
  | zero =>
    refine (Takes.pure []).congr fun bs a => ?_
    rw [List.length_eq_zero_iff]
    constructor
    · rintro ⟨rfl, rfl⟩
      exact ⟨rfl, rfl⟩
    · rintro ⟨rfl, rfl⟩
      exact ⟨rfl, rfl⟩
  | succ n ih =>
    refine (Takes.bind (takes_requireByte t) fun b s' _ _ _ => (ih s').map (b :: ·)).congr ?_
    intro bs a
    constructor
    · rintro ⟨b, _, ds, rfl, ⟨_, ⟨rfl, rfl⟩, rfl⟩, rfl⟩
      exact ⟨rfl, rfl⟩
    · rintro ⟨rfl, h⟩
      obtain ⟨b, cs, rfl⟩ := List.exists_cons_of_length_eq_add_one h
      exact ⟨b, [b], cs, rfl, ⟨cs, ⟨rfl, by simpa using h⟩, rfl⟩, rfl⟩

end DictLog
