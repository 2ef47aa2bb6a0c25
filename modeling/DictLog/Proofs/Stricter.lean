/-
# Stricter limits only refuse

A reader with stricter limits than another gives the same values from the same bytes, or fails with a
limit that is exceeded (`decodeValues_of_within`).  It neither finds other values nor any other fault,
wherever in the stream and however often it comes near its limits: with its limits seen as the wider
ones, each of its steps is the other reader's, unless it is refused (`View.wider`).
-/
import DictLog.Proofs.Views

namespace DictLog

open Step

/-! ## 1. Limits seen as wider ones -/

namespace Limits

variable {l m : Limits}

/-- The limits of which each is the wider of two. -/
def join (l m : Limits) : Limits where
  maxStringLength := max l.maxStringLength m.maxStringLength
  maxPayloadLength := max l.maxPayloadLength m.maxPayloadLength
  maxNestingDepth := max l.maxNestingDepth m.maxNestingDepth
  maxDictionaryEntries := max l.maxDictionaryEntries m.maxDictionaryEntries

theorem within_join_left (l m : Limits) : l.Within (l.join m) :=
  ⟨Nat.le_max_left .., Nat.le_max_left .., Nat.le_max_left .., Nat.le_max_left ..⟩

theorem within_join_right (l m : Limits) : m.Within (l.join m) :=
  ⟨Nat.le_max_right .., Nat.le_max_right .., Nat.le_max_right .., Nat.le_max_right ..⟩

/-- If some limits are within others, the wider of both are the others. -/
theorem Within.join_eq (h : l.Within m) : l.join m = m := by
  obtain ⟨hstrings, hpayloads, hnesting, hdictionaries⟩ := h
  simp only [join, Nat.max_eq_right hstrings, Nat.max_eq_right hpayloads,
    Nat.max_eq_right hnesting, Nat.max_eq_right hdictionaries]

end Limits

/-- A feed seen as it is, and limits as no stricter than some.  The one fault that may be met on this
side alone is that a limit is exceeded. -/
def View.wider {σ : Type} [Feed σ] (limits : Limits) : View σ σ where
  feed := id
  limits l := l.join limits
  Excused fault := ∃ excess, fault = .limit excess
  offset_eq _ := rfl
  unread_eq _ := rfl
  nextByte := .refl _
  take _ := .refl _
  skip _ := .refl _
  within l := l.within_join_left limits
  excused _ := .inr fun excess => ⟨excess, rfl⟩

/-! ## 2. Whole streams -/

namespace Run

variable {σ τ α : Type} {excused : Fault → Prop} {view : σ → τ} {step : EStateM Fault σ (Option α)}
  {step' : EStateM Fault τ (Option α)}

/-- Asking for items again and again comes to the same, unless a fault is excused.  The first step
that differs is the last: there is no item behind a fault. -/
theorem toExcept_of_shows (h : ShowsUnless excused view step step') (times : Nat) : ∀ items s,
    (askFrom step items times s).toExcept = (askFrom step' items times (view s)).toExcept ∨
      ∃ fault, (askFrom step items times s).toExcept = .error fault ∧ excused fault := by
  induction times with
  | zero => exact fun _ _ => .inl rfl
  | succ times ih =>
    intro items s
    rw [askFrom, askFrom]
    rcases h s with hsame | ⟨fault, t, herror, hexcused⟩
    · rw [← hsame]
      cases step s with
      | error fault t => exact .inl rfl
      | ok item t =>
        cases item with
        | none => exact .inl rfl
        | some item => exact ih (item :: items) t
    · rw [herror]
      exact .inr ⟨fault, rfl, hexcused⟩

end Run

/-- **Stricter limits only refuse.**  With stricter limits the same bytes give the same values or
the same fault, or exceed a limit.  No other value is decoded and no other fault is found. -/
theorem decodeValues_of_within {limits wider : Limits} (h : limits.Within wider)
    (bytes : List UInt8) :
    decodeValues bytes limits = decodeValues bytes wider ∨
      ∃ excess, decodeValues bytes limits = .error (.limit excess) := by
  have hrun := Run.toExcept_of_shows (Decoder.shows_nextUnlessFailed (.wider wider))
    (Decoder.ofFeed (Tape.ofBytes bytes) limits).bound [] (.ofFeed (Tape.ofBytes bytes) limits)
  have hdecoder : (View.wider wider).decoder (Decoder.ofFeed (Tape.ofBytes bytes) limits) =
      .ofFeed (Tape.ofBytes bytes) wider :=
    congrArg (Decoder.ofFeed (Tape.ofBytes bytes)) h.join_eq
  rw [hdecoder] at hrun
  rcases hrun with hsame | ⟨fault, herror, excess, rfl⟩
  · exact .inl hsame
  · exact .inr ⟨excess, herror⟩

end DictLog
