/-
# A stream that was cut off is recognized

`spans` are the records of some bytes with the offsets behind them.  Where a prefix of a stream
ends at such an offset, the prefix is a stream, of the records inside it; everywhere else a decoder
returns the records inside the prefix and then finds it truncated (`shortened_run`).  So it is with
the values (`values_of_cut`).
-/
import DictLog.Proofs.Values

namespace DictLog

open OnTape Step

namespace Decoder

/-! ## 1. Records and where they end -/

/-- A record and the offset just behind it. -/
structure Span where
  entry : Entry
  stop : Nat
  deriving DecidableEq

/-- The next record, and where it ends. -/
def nextSpan : EStateM Fault (Decoder Tape) (Option Span) := do
  match ← nextRecord .decoded with
  | some entry => return some ⟨entry, (← get).tokens.offset⟩
  | none => return none

/-- The records of some bytes, up to the end or the first failure. -/
def spans (bytes : List UInt8) (limits : Limits) : List Span :=
  let d := ofFeed (Tape.ofBytes bytes) limits
  (Run.ask nextSpan d.bound d).items

/-- The records that end at an offset or before it. -/
def inside (offset : Nat) (spans : List Span) : List Entry :=
  (spans.filter fun span => span.stop ≤ offset).map Span.entry

/-- A record ends at the offset. -/
def StopsAt (offset : Nat) (spans : List Span) : Prop :=
  offset ∈ spans.map Span.stop

variable {d d' t u final : Decoder Tape} {entry : Entry} {entries : List Entry} {span : Span}
  {spans : List Span} {q : List UInt8}

/-- A record with its end is the record that was returned, and where the decoder stands behind it.
The ends are what a cut has to be compared with. -/
theorem nextSpan_eq_some :
    nextSpan d = .ok (some span) d' ↔
      nextRecord .decoded d = .ok (some span.entry) d' ∧ span.stop = d'.tokens.offset := by
  rw [nextSpan, bind_eq_ok]
  constructor
  · intro h
    obtain ⟨found, t, hfound, h⟩ := h
    cases found with
    | none => cases h
    | some entry =>
      cases h
      exact ⟨hfound, rfl⟩
  · intro h
    obtain ⟨hfound, hstop⟩ := h
    refine ⟨some span.entry, d', hfound, ?_⟩
    show EStateM.Result.ok (some (Span.mk span.entry d'.tokens.offset)) d' = _
    rw [← hstop]

/-- A run over records is a run over the same records with their ends. -/
theorem yields_nextSpan (h : Run.Yields (nextRecord .decoded) d entries t) :
    ∃ spans, Run.Yields nextSpan d spans t ∧ spans.map Span.entry = entries := by
  induction h with
  | nil => exact ⟨[], .nil, rfl⟩
  | @cons d t u entry entries head tail ih =>
    obtain ⟨spans, hspans, rfl⟩ := ih
    exact ⟨⟨entry, t.tokens.offset⟩ :: spans, .cons (nextSpan_eq_some.mpr ⟨head, rfl⟩) hspans, rfl⟩

/-- A record ends as many bytes behind its beginning as it is long. -/
theorem stop_eq {after : List String} {bs : List UInt8}
    (hscope : d'.scope = d.scope.after bs entry after) :
    d'.tokens.offset = d.tokens.offset + bs.length :=
  congrArg Grammar.Scope.offset hscope

/-- Every record of a run ends behind the offset at which the run begins, since none is empty. -/
theorem lt_stop (h : Run.Yields nextSpan d spans t) :
    Between d → ∀ span ∈ spans, d.tokens.offset < span.stop := by
  induction h with
  | nil =>
    intro _ span hspan
    cases hspan
  | @cons d t u span spans head tail ih =>
    intro hd
    obtain ⟨hnext, hstop⟩ := nextSpan_eq_some.mp head
    obtain ⟨-, bs, after, hrecord, hscope, hadv⟩ := nextRecord_sound hd hnext
    have hlt : d.tokens.offset < t.tokens.offset := by
      have hpos := List.length_pos_iff.mpr hrecord.ne_nil
      rw [stop_eq hscope]
      omega
    intro other hother
    rcases List.mem_cons.mp hother with rfl | hother
    · rw [hstop]
      exact hlt
    · exact Nat.lt_trans hlt (ih hadv.between other hother)

/-- Nothing is inside an offset that lies before all ends. -/
theorem inside_eq_nil {offset : Nat} (h : ∀ span ∈ spans, offset < span.stop) :
    inside offset spans = [] := by
  have hnone : (spans.filter fun span => span.stop ≤ offset) = [] := by
    rw [List.filter_eq_nil_iff]
    intro span hspan
    have hlt := h span hspan
    simpa using hlt
  rw [inside, hnone]
  rfl

theorem inside_cons {offset : Nat} (h : span.stop ≤ offset) :
    inside offset (span :: spans) = span.entry :: inside offset spans := by
  simp [inside, h]

theorem stopsAt_cons {offset : Nat} :
    StopsAt offset (span :: spans) ↔ span.stop = offset ∨ StopsAt offset spans := by
  rw [StopsAt, List.map_cons, List.mem_cons]
  exact or_congr_left eq_comm

/-- Where all ends are further on, no record ends at the offset. -/
theorem not_stopsAt {offset : Nat} (h : ∀ span ∈ spans, offset < span.stop) :
    ¬ StopsAt offset spans := by
  intro hstops
  obtain ⟨span, hspan, rfl⟩ := List.mem_map.mp hstops
  exact Nat.lt_irrefl _ (h span hspan)

/-! ## 2. Decoders with less on the tape -/

/-- A decoder that differs from `d` in what is on its tape, which is `q`. -/
structure Shortened (d : Decoder Tape) (q : List UInt8) (d' : Decoder Tape) : Prop where
  between : Between d'
  scope : d'.scope = d.scope
  limits : d'.limits = d.limits
  started : d'.started = d.started
  rest : (tape d').rest = q
  clean : (tape d').ending = .clean

/-- A record that is all there is returned with less on the tape too.  A decoder looks no further
than the record (`nextRecord_complete`), so what is missing behind it plays no part. -/
theorem Shortened.next {bs : List UInt8} {after : List String}
    (h : Shortened d (bs ++ q) d') (hmay : d.started ∨ entry.record.kind = .header)
    (hrecord : Grammar.Record d.limits d.scope bs entry after)
    (hscope : t.scope = d.scope.after bs entry after) (hadv : Advanced d bs [entry] t) :
    ∃ t', nextRecord .decoded d' = .ok (some entry) t' ∧ Shortened t q t' := by
  rw [← h.limits, ← h.scope] at hrecord
  rw [← h.started] at hmay
  obtain ⟨t', hnext, hscope', hrest, hadv'⟩ := nextRecord_complete h.between hmay hrecord h.rest
  refine ⟨t', hnext, hadv'.between, ?_, ?_, ?_, hrest, hadv'.ending.trans h.clean⟩
  · rw [hscope', hscope, h.scope]
  · rw [hadv'.limits, hadv.limits, h.limits]
  · rw [hadv'.started, hadv.started, h.started]

/-- A record that is cut off is reported as truncated, however much of it is there, if it is not
nothing. -/
theorem Shortened.cut {missing : List UInt8} {after : List String} (h : Shortened d q d')
    (hmay : d.started ∨ entry.record.kind = .header)
    (hrecord : Grammar.Record d.limits d.scope (q ++ missing) entry after) (hq : q ≠ [])
    (hmissing : missing ≠ []) : ∃ final, nextRecord .decoded d' = .error .truncated final := by
  rw [← h.limits, ← h.scope] at hrecord
  rw [← h.started] at hmay
  refine nextRecord_cut h.between.lookahead hmay hrecord ⟨h.clean, missing, hmissing, ?_⟩ ?_
  · rw [h.rest]
  · rw [h.rest]
    exact hq

/-- An empty tape between records is a clean end. -/
theorem Shortened.ends (h : Shortened d [] d') :
    ∃ final, Run.Ends (nextRecord .decoded) d' [] final :=
  ⟨_, d', .nil, (nextRecord_eq_none h.between.lookahead).mpr ⟨h.rest, h.clean, rfl⟩⟩

/-- What becomes of a decoder that has `q` on its tape, which ends at an offset: a clean end where
`q` is empty or ends behind a record, and truncation everywhere else.  Either way it returns the
records inside the offset. -/
structure UpTo (offset : Nat) (q : List UInt8) (spans : List Span) (d : Decoder Tape) : Prop where
  ends : (q = [] ∨ StopsAt offset spans) →
    ∃ final, Run.Ends (nextRecord .decoded) d (inside offset spans) final
  fails : ¬ (q = [] ∨ StopsAt offset spans) →
    ∃ final, Run.Fails (nextRecord .decoded) d (inside offset spans) .truncated final

/-- Nothing is on the tape: all records are outside, and the end is clean. -/
theorem Shortened.upTo_nil {offset : Nat} (h : Shortened d [] d')
    (hout : ∀ span ∈ spans, offset < span.stop) : UpTo offset [] spans d' where
  ends _ := by
    rw [inside_eq_nil hout]
    exact h.ends
  fails hno := absurd (.inl rfl) hno

/-- The first record is cut off, and so all records are outside, and the end is not clean. -/
theorem Shortened.upTo_cut {offset : Nat} {missing : List UInt8} {after : List String}
    (h : Shortened d q d') (hmay : d.started ∨ entry.record.kind = .header)
    (hrecord : Grammar.Record d.limits d.scope (q ++ missing) entry after) (hq : q ≠ [])
    (hmissing : missing ≠ []) (hout : ∀ span ∈ spans, offset < span.stop) :
    UpTo offset q spans d' where
  ends hstops := absurd (hstops.resolve_left hq) (not_stopsAt hout)
  fails _ := by
    obtain ⟨final, hcut⟩ := h.cut hmay hrecord hq hmissing
    rw [inside_eq_nil hout]
    exact ⟨final, d', .nil, hcut⟩

/-- The first record is all there, and what becomes of the decoder is decided behind it.  One more
record in front shifts the question whether the tape ends behind a record, but does not answer it. -/
theorem UpTo.cons {offset : Nat} {bs : List UInt8} (h : UpTo offset q spans u)
    (hnext : nextRecord .decoded d = .ok (some span.entry) u) (hbs : bs ≠ [])
    (hstop : span.stop + q.length = offset) : UpTo offset (bs ++ q) (span :: spans) d := by
  have hstops : q = [] ∨ StopsAt offset spans ↔
      bs ++ q = [] ∨ StopsAt offset (span :: spans) := by
    have hne : bs ++ q ≠ [] := fun hnil => hbs (List.append_eq_nil_iff.mp hnil).1
    rw [stopsAt_cons, or_iff_right hne, ← List.length_eq_zero_iff]
    exact or_congr_left (by omega)
  constructor
  · intro hat
    obtain ⟨final, hrun⟩ := h.ends (hstops.mpr hat)
    rw [inside_cons (by omega)]
    exact ⟨final, hrun.cons hnext⟩
  · intro hno
    obtain ⟨final, hrun⟩ := h.fails (fun hat => hno (hstops.mp hat))
    rw [inside_cons (by omega)]
    exact ⟨final, hrun.cons hnext⟩

/-- A decoder that has a prefix of the bytes to come on its tape.  The induction is on the records of
all the bytes, with the prefix carried along: it is empty, or it ends inside the first record, or it
has all of it and the rest of the prefix is a prefix of the rest. -/
theorem shortened_run (h : Run.Yields nextSpan d spans t) :
    ∀ {q : List UInt8} {d' : Decoder Tape}, Between d → (tape t).rest = [] →
      q <+: (tape d).rest → Shortened d q d' →
      UpTo (d.tokens.offset + q.length) q spans d' := by
  induction h with
  | @nil d =>
    intro q d' _ ht hq hd'
    rw [ht, List.prefix_nil] at hq
    subst hq
    exact hd'.upTo_nil (by simp)
  | @cons d t u span spans head tail ih =>
    intro q d' hd hu hq hd'
    have hlt := lt_stop (.cons head tail) hd
    obtain ⟨hnext, hstop⟩ := nextSpan_eq_some.mp head
    obtain ⟨hmay, bs, after, hrecord, hscope, hadv⟩ := nextRecord_sound hd hnext
    have hoffset := stop_eq hscope
    rcases Decidable.em (q = []) with rfl | hne
    · exact hd'.upTo_nil hlt
    rw [hadv.rest] at hq
    rcases Nat.lt_or_ge q.length bs.length with hshort | hlong
    · obtain ⟨missing, rfl⟩ :=
        List.prefix_of_prefix_length_le hq (List.prefix_append bs _) (Nat.le_of_lt hshort)
      have hmissing : missing ≠ [] := by
        intro hnil
        rw [hnil, List.append_nil] at hshort
        exact Nat.lt_irrefl _ hshort
      refine hd'.upTo_cut hmay hrecord hne hmissing ?_
      intro other hother
      rcases List.mem_cons.mp hother with rfl | hother
      · omega
      · have hbehind := lt_stop tail hadv.between other hother
        omega
    · -- what is left of the prefix is a prefix of the rest
      obtain ⟨q', rfl⟩ := List.prefix_of_prefix_length_le (List.prefix_append bs _) hq hlong
      have hq' : q' <+: (tape t).rest := (List.prefix_append_right_inj bs).mp hq
      obtain ⟨t', hnext', ht'⟩ := hd'.next hmay hrecord hscope hadv
      have hbehind := ih hadv.between hu hq' ht'
      have hlen : d.tokens.offset + (bs ++ q').length = t.tokens.offset + q'.length := by
        rw [List.length_append, hoffset, Nat.add_assoc]
      rw [hlen]
      exact hbehind.cons hnext' hrecord.ne_nil (by rw [hstop])

/-! ## 3. Prefixes of a stream -/

/-- To begin with, decoders of different bytes differ in nothing but the bytes. -/
theorem shortened_ofFeed (bytes q : List UInt8) (limits : Limits) :
    Shortened (ofFeed (Tape.ofBytes bytes) limits) q (ofFeed (Tape.ofBytes q) limits) :=
  ⟨between_ofFeed _ _, rfl, rfl, rfl, rfl, rfl⟩

/-- For bytes that come to a clean end, the records with their ends are those of one run over the
whole tape. -/
theorem spans_eq {bytes : List UInt8} {limits : Limits}
    (h : Run.Ends (nextRecord .decoded) (ofFeed (Tape.ofBytes bytes) limits) entries final) :
    ∃ t, Run.Yields nextSpan (ofFeed (Tape.ofBytes bytes) limits) (Decoder.spans bytes limits) t ∧
      (tape t).rest = [] := by
  obtain ⟨t, hyields, hend⟩ := h
  have hd := between_ofFeed (Tape.ofBytes bytes) limits
  obtain ⟨-, _, -, hadv⟩ := yields_sound hyields hd
  obtain ⟨hrest, -, -⟩ := (nextRecord_eq_none hadv.between.lookahead).mp hend
  have hlt := length_lt_bound hyields hd
  obtain ⟨spans, hspans, rfl⟩ := yields_nextSpan hyields
  have hends : Run.Ends nextSpan (ofFeed (Tape.ofBytes bytes) limits) spans final :=
    ⟨t, hspans, bind_of_ok hend _⟩
  rw [List.length_map] at hlt
  have hask := Run.ask_of_ends hends hlt
  have hall : Decoder.spans bytes limits = spans := by
    rw [Decoder.spans, hask]
  rw [hall]
  exact ⟨t, hspans, hrest⟩

/-- **A cut is recognized.**  A prefix of bytes whose values are decoded has the values of the
records inside it: where it is empty or ends behind a record, these are all there is; everywhere
else they come before the fault that the stream was truncated.  A prefix never has other values than
the whole, nor any other fault. -/
theorem values_of_cut (limits : Limits) (bytes q : List UInt8) (values : List Json)
    (h : decodeValues bytes limits = .ok values) (hq : q <+: bytes) :
    ((q = [] ∨ StopsAt q.length (Decoder.spans bytes limits)) →
      decodeValues q limits =
        .ok (Entry.values (inside q.length (Decoder.spans bytes limits)))) ∧
    (¬ (q = [] ∨ StopsAt q.length (Decoder.spans bytes limits)) →
      (ofFeed (Tape.ofBytes q) limits).values.items =
        Entry.values (inside q.length (Decoder.spans bytes limits)) ∧
      (ofFeed (Tape.ofBytes q) limits).values.failure = some .truncated) := by
  obtain ⟨entries, final, hends, -⟩ := ends_of_decodeValues h
  obtain ⟨t, hyields, hrest⟩ := spans_eq hends
  have hrun := shortened_run hyields (between_ofFeed _ _) hrest hq (shortened_ofFeed bytes q limits)
  have hoffset : (ofFeed (Tape.ofBytes bytes) limits).tokens.offset + q.length = q.length :=
    Nat.zero_add _
  rw [hoffset] at hrun
  constructor
  · intro hat
    obtain ⟨final, hends⟩ := hrun.ends hat
    exact decodeValues_of_ends hends
  · intro hno
    obtain ⟨final, hfails⟩ := hrun.fails hno
    rw [values_of_fails hfails (between_ofFeed _ _) rfl]
    exact ⟨rfl, rfl⟩

/-- A header and a null: cut off inside the second record, the null is not read. -/
theorem values_of_cut_null :
    let bytes := [0x48, 0x49, 0x01, 0x45, 0x0A, 0x56, 0x05, 0x01, 0x4E, 0x45, 0x0A]
    let q := [0x48, 0x49, 0x01, 0x45, 0x0A, 0x56, 0x05, 0x01]
    ∃ values, decodeValues bytes {} = .ok values ∧ q <+: bytes ∧
      ¬ (q = [] ∨ StopsAt q.length (Decoder.spans bytes {})) ∧
      (ofFeed (Tape.ofBytes q) {}).values.items = [] ∧
      (ofFeed (Tape.ofBytes q) {}).values.failure = some .truncated := by
  intro bytes q
  have hvalues : decodeValues bytes {} = .ok [.null] := by decide +kernel
  have hprefix : q <+: bytes := ⟨[0x4E, 0x45, 0x0A], rfl⟩
  have hstops : (Decoder.spans bytes {}).map Span.stop = [5, 11] := by decide +kernel
  have hinside : Entry.values (inside q.length (Decoder.spans bytes {})) = [] := by decide +kernel
  have hno : ¬ (q = [] ∨ StopsAt q.length (Decoder.spans bytes {})) := by
    rw [StopsAt, hstops]
    decide
  have hcut := (values_of_cut {} bytes q [.null] hvalues hprefix).2 hno
  rw [hinside] at hcut
  exact ⟨_, hvalues, hprefix, hno, hcut⟩

end Decoder

end DictLog
