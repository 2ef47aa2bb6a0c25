/-
# The values of a run

Asking for values passes over the records that hold none.  So a decoder gives the values of the
records that it would return, and then ends or fails where it would end or fail
(`values_of_ends`, `values_of_fails`); how often it may look for a record is never what stops it.
-/
import DictLog.Proofs.Acceptance

namespace DictLog

open OnTape Step

/-- The value of a record that holds one. -/
def Entry.value? (entry : Entry) : Option Json :=
  match entry.record with
  | .value _ v => v
  | _ => none

/-- The values of some records. -/
def Entry.values (entries : List Entry) : List Json :=
  entries.filterMap Entry.value?

namespace Decoder

variable {d d' t final : Decoder Tape} {entry : Entry} {entries : List Entry} {fault : Fault}

/-! ## 1. The next value -/

/-- A record that is returned either holds a value or is no `value` record. -/
theorem value_or_not (hd : Between d) (h : nextRecord .decoded d = .ok (some entry) d') :
    (∃ n v, entry.record = .value n (some v)) ∨ ∀ n v, entry.record ≠ .value n v := by
  obtain ⟨-, bs, after, hrecord, -, -⟩ := nextRecord_sound hd h
  rcases Decidable.em (entry.record.kind = .value) with hkind | hkind
  · exact .inl (hrecord.value_of_kind hkind)
  · refine .inr fun n v heq => hkind ?_
    rw [heq]
    rfl

/-- What looking for the next value finds: the first value that the run has, with the rest of the
run behind it, or what is behind the run.  A record without a value costs one of the times to look,
which is why the number of records has to be below it. -/
theorem nextValueWithin_of_yields (h : Run.Yields (nextRecord .decoded) d entries t) :
    Between d → ∀ times, entries.length < times →
      (Entry.values entries = [] ∧
        nextValueWithin times d = nextValueWithin (times - entries.length) t) ∨
      ∃ v rest d', Entry.values entries = v :: Entry.values rest ∧
        nextValueWithin times d = .ok (some v) d' ∧
        Run.Yields (nextRecord .decoded) d' rest t ∧ Between d' ∧
        d'.failed = d.failed ∧ rest.length < entries.length := by
  induction h with
  | nil =>
    intro _ times _
    exact .inl ⟨rfl, rfl⟩
  | @cons d u t entry entries head tail ih =>
    intro hd times htimes
    cases times with
    | zero => exact absurd htimes (Nat.not_lt_zero _)
    | succ times =>
      obtain ⟨-, bs, after, hrecord, -, hadv⟩ := nextRecord_sound hd head
      rcases value_or_not hd head with ⟨n, v, hv⟩ | hno
      · -- The first record holds a value, and what is asked for is found.
        refine .inr ⟨v, entries, u, ?_, ?_, tail, hadv.between, hadv.failed, Nat.lt_succ_self _⟩
        · simp [Entry.values, Entry.value?, hv]
        · rw [nextValueWithin, bind_of_ok head]
          simp only [hv]
          rfl
      · -- It holds none.  The search goes on behind it, where the rest of the run is known.
        have hvalues : Entry.values (entry :: entries) = Entry.values entries := by
          have hnone : entry.value? = none := by
            unfold Entry.value?
            split
            · rename_i n v heq
              exact absurd heq (hno n v)
            · rfl
          simp [Entry.values, hnone]
        have hnext : nextValueWithin (times + 1) d = nextValueWithin times u := by
          rw [nextValueWithin, bind_of_ok head]
          cases heq : entry.record with
          | value n v => exact absurd heq (hno n v)
          | _ => simp only [heq]
        rw [List.length_cons] at htimes
        rw [hvalues, hnext]
        rcases ih hadv.between times (by omega) with ⟨hnil, hskip⟩ | hfound
        · refine .inl ⟨hnil, ?_⟩
          rw [hskip, List.length_cons, Nat.add_sub_add_right]
        · obtain ⟨v, rest, d', hrest, hok, hyields, hbetween, hfailed, hlt⟩ := hfound
          exact .inr ⟨v, rest, d', hrest, hok, hyields, hbetween, hfailed.trans hadv.failed, by
            rw [List.length_cons]
            omega⟩

/-- There are fewer records to come than the bound of the decoder. -/
theorem length_lt_bound (h : Run.Yields (nextRecord .decoded) d entries t) (hd : Between d) :
    entries.length < d.bound := by
  have hle := h.length_add_le nextRecord_shrinks hd
  rw [bound_eq]
  omega

/-- While nothing has failed, the guarded step is the step. -/
theorem nextUnlessFailed_of_ok {v : Option Json} (hfailed : d.failed = false)
    (h : nextValue d = .ok v d') : nextUnlessFailed d = .ok v d' := by
  simp [nextUnlessFailed, hfailed, h]

/-- A first fault is passed on, and is what makes all later steps report the end. -/
theorem nextUnlessFailed_of_error (hfailed : d.failed = false)
    (h : nextValue d = .error fault d') :
    nextUnlessFailed d = .error fault { d' with failed := true } := by
  simp [nextUnlessFailed, hfailed, h]

/-! ## 2. All values -/

/-- A run over records is a run over their values; behind it are records without values.  The
induction is on a bound for the number of records, since one step over the values may take several
of them. -/
theorem yields_values (n : Nat) :
    ∀ {d : Decoder Tape} {entries : List Entry}, entries.length < n →
      Run.Yields (nextRecord .decoded) d entries t → Between d → d.failed = false →
      ∃ d' rest, Run.Yields nextUnlessFailed d (Entry.values entries) d' ∧
        Run.Yields (nextRecord .decoded) d' rest t ∧ Entry.values rest = [] ∧ Between d' ∧
        d'.failed = false := by
  induction n with
  | zero =>
    intro d entries hn
    exact absurd hn (Nat.not_lt_zero _)
  | succ n ih =>
    intro d entries hn h hd hfailed
    rcases nextValueWithin_of_yields h hd d.bound (length_lt_bound h hd) with ⟨hnil, -⟩ | hfound
    · rw [hnil]
      exact ⟨d, entries, .nil, h, hnil, hd, hfailed⟩
    · obtain ⟨v, rest, u, hvalues, hok, hyields, hbetween, hkeep, hlt⟩ := hfound
      have hu : u.failed = false := hkeep.trans hfailed
      obtain ⟨d', rest', htail, hbehind⟩ := ih (by omega) hyields hbetween hu
      rw [hvalues]
      exact ⟨d', rest', .cons (nextUnlessFailed_of_ok hfailed hok) htail, hbehind⟩

/-- Where there are no more values, looking for one gets to what is behind the records.  The bound on
the search is higher than the number of records to come, so some of it is left. -/
theorem nextValue_of_yields (h : Run.Yields (nextRecord .decoded) d entries t) (hd : Between d)
    (hnil : Entry.values entries = []) :
    ∃ times, nextValue d = nextValueWithin (times + 1) t := by
  have hlt := length_lt_bound h hd
  rcases nextValueWithin_of_yields h hd d.bound hlt with ⟨-, hskip⟩ | hfound
  · obtain ⟨times, htimes⟩ := Nat.exists_eq_add_of_lt hlt
    refine ⟨times, ?_⟩
    show nextValueWithin d.bound d = _
    rw [hskip, htimes]
    congr 1
    omega
  · obtain ⟨v, rest, _, hvalues, -⟩ := hfound
    rw [hnil] at hvalues
    cases hvalues

/-- Where the records end, so do the values.  The last search goes over the records behind the last
value, and meets the end there. -/
theorem ends_values (h : Run.Ends (nextRecord .decoded) d entries final) (hd : Between d)
    (hfailed : d.failed = false) : Run.Ends nextUnlessFailed d (Entry.values entries) final := by
  obtain ⟨t, hyields, hend⟩ := h
  obtain ⟨d', rest, htaken, hbehind, hnil, hbetween, hd'⟩ :=
    yields_values _ (Nat.lt_succ_self _) hyields hd hfailed
  obtain ⟨times, hvalue⟩ := nextValue_of_yields hbehind hbetween hnil
  refine ⟨d', htaken, nextUnlessFailed_of_ok hd' ?_⟩
  rw [hvalue, nextValueWithin, bind_of_ok hend]
  rfl

/-- Where the records fail, so do the values, with the same fault.  The decoder differs in one thing
from what is behind the records: it has noted that it failed. -/
theorem fails_values (h : Run.Fails (nextRecord .decoded) d entries fault final) (hd : Between d)
    (hfailed : d.failed = false) :
    Run.Fails nextUnlessFailed d (Entry.values entries) fault { final with failed := true } := by
  obtain ⟨t, hyields, hfail⟩ := h
  obtain ⟨d', rest, htaken, hbehind, hnil, hbetween, hd'⟩ :=
    yields_values _ (Nat.lt_succ_self _) hyields hd hfailed
  obtain ⟨times, hvalue⟩ := nextValue_of_yields hbehind hbetween hnil
  refine ⟨d', htaken, nextUnlessFailed_of_error hd' ?_⟩
  rw [hvalue, nextValueWithin]
  exact bind_of_error hfail _

/-- A record has at most one value. -/
theorem length_values_le (entries : List Entry) : (Entry.values entries).length ≤ entries.length :=
  List.length_filterMap_le _ _

/-- **Clean end.**  A decoder whose records come to an end has their values, and stands where they
end.  Who asks for all values asks as often as there may be records, which is often enough. -/
theorem values_of_ends (h : Run.Ends (nextRecord .decoded) d entries final) (hd : Between d)
    (hfailed : d.failed = false) : d.values = ⟨Entry.values entries, none, final⟩ := by
  have hends := ends_values h hd hfailed
  obtain ⟨t, hyields, -⟩ := h
  have hlt := length_lt_bound hyields hd
  exact Run.ask_of_ends hends (Nat.lt_of_le_of_lt (length_values_le entries) hlt)

/-- **Fault.**  A decoder whose records come to a fault has the values in front of it, and fails
with it. -/
theorem values_of_fails (h : Run.Fails (nextRecord .decoded) d entries fault final)
    (hd : Between d) (hfailed : d.failed = false) :
    d.values = ⟨Entry.values entries, some fault, { final with failed := true }⟩ := by
  have hfails := fails_values h hd hfailed
  obtain ⟨t, hyields, -⟩ := h
  have hlt := length_lt_bound hyields hd
  exact Run.ask_of_fails hfails (Nat.lt_of_le_of_lt (length_values_le entries) hlt)

/-- The values of records that come first are the first of all values, whatever is behind them. -/
theorem prefix_values_of_yields (h : Run.Yields (nextRecord .decoded) d entries t) (hd : Between d)
    (hfailed : d.failed = false) : Entry.values entries <+: d.values.items := by
  obtain ⟨_, _, htaken, -⟩ := yields_values _ (Nat.lt_succ_self _) h hd hfailed
  have hlt := length_lt_bound h hd
  exact Run.prefix_of_yields htaken (Nat.le_trans (length_values_le entries) (Nat.le_of_lt hlt))

/-! ## 3. The values of a stream -/

/-- The values of some bytes are those of the records that a decoder returns before it comes to a
clean end. -/
theorem decodeValues_of_ends {bytes : List UInt8} {limits : Limits}
    (h : Run.Ends (nextRecord .decoded) (ofFeed (Tape.ofBytes bytes) limits) entries final) :
    decodeValues bytes limits = .ok (Entry.values entries) := by
  rw [decodeValues, values_of_ends h (between_ofFeed _ _) rfl]
  rfl

/-- The values of a stream are those of its records. -/
theorem decodeValues_of_stream {bytes : List UInt8} {limits : Limits} {s : Grammar.Scope}
    (h : Grammar.Stream limits bytes entries s) :
    decodeValues bytes limits = .ok (Entry.values entries) := by
  obtain ⟨_, hends, -⟩ := ends_of_stream h
  exact decodeValues_of_ends hends

/-- Where a decoder finds fault with some bytes, their values are not decoded. -/
theorem decodeValues_of_fails {bytes : List UInt8} {limits : Limits}
    (h : Run.Fails (nextRecord .decoded) (ofFeed (Tape.ofBytes bytes) limits) entries fault final) :
    decodeValues bytes limits = .error fault := by
  rw [decodeValues, values_of_fails h (between_ofFeed _ _) rfl]
  rfl

/-- Bytes whose values are decoded are a stream.  Either its records end or they fail, and a failure
would have been passed on. -/
theorem ends_of_decodeValues {bytes : List UInt8} {limits : Limits} {values : List Json}
    (h : decodeValues bytes limits = .ok values) : ∃ entries final,
      Run.Ends (nextRecord .decoded) (ofFeed (Tape.ofBytes bytes) limits) entries final ∧
        values = Entry.values entries := by
  have hd := between_ofFeed (Tape.ofBytes bytes) limits
  rcases Run.ends_or_fails nextRecord_shrinks _ _ (Nat.lt_succ_self _) hd with hend | hfail
  · obtain ⟨entries, final, hend⟩ := hend
    have hvalues := (decodeValues_of_ends hend).symm.trans h
    cases hvalues
    exact ⟨entries, final, hend, rfl⟩
  · obtain ⟨entries, fault, final, hfail⟩ := hfail
    rw [decodeValues, values_of_fails hfail hd rfl] at h
    cases h

/-- Bytes whose values are decoded are a stream of the grammar, with these values.  Most results
about decoded bytes begin here. -/
theorem stream_of_decodeValues {bytes : List UInt8} {limits : Limits} {values : List Json}
    (h : decodeValues bytes limits = .ok values) :
    ∃ entries s, Grammar.Stream limits bytes entries s ∧ values = Entry.values entries := by
  obtain ⟨entries, final, hends, hvalues⟩ := ends_of_decodeValues h
  obtain ⟨s, hstream⟩ := stream_of_ends hends
  exact ⟨entries, s, hstream, hvalues⟩

end Decoder

end DictLog
