/-
# Skipping payloads agrees with decoding them

A payload that is decoded spans the bytes it declares and changes nothing but the tape; so leaving
these bytes out comes to the same state (`nextRecord_under`).  Whoever decides anew at each record
whether its payload is decoded sees the records, dictionaries and counts of the full decoding,
values apart (`snapshots_skipping`), and a listing that leaves payloads out has the summary of one
that decodes them.
-/
import DictLog.Listing.Basic
import DictLog.Proofs.Parallel
import DictLog.Proofs.Record

namespace DictLog

open OnTape Step

/-! ## 1. What is left of a record -/

/-- What is reported of a record: all of it, or all but its value. -/
def Record.under : Payloads → Record → Record
  | .decoded, record => record
  | .skipped, .value length _ => .value length none
  | .skipped, record => record

/-- What is reported of a record and its place. -/
def Entry.under (payloads : Payloads) (entry : Entry) : Entry :=
  { entry with record := entry.record.under payloads }

/-- What is reported of a row. -/
def Row.under (payloads : Payloads) (row : Row) : Row :=
  { row with entry := row.entry.under payloads }

namespace Decoder

variable {d d' t : Decoder Tape} {payloads : Payloads} {entry : Entry} {record : Record}
  {offset length : Nat} {token : Token}

/-! ## 2. One record -/

/-- A decoder between records is ready for whatever it holds. -/
theorem ready_self (hd : d.lookahead = none) : Ready d.limits d.dictionary.toList d.bound d :=
  Ready.bounded ⟨hd, rfl, rfl, Nat.lt_succ_self _⟩

/-- Leaving out so many bytes takes any bytes of that number. -/
theorem takes_skip (length : Nat) (d : Decoder Tape) :
    Takes (onTokens (TokenStream.skip length)) (fun bs (_ : Unit) => bs.length = length) d := by
  refine takes_onPart rfl (fun _ => rfl) (TokenStream.takes_onFeed ?_)
  refine ((Tape.takes_take length d.tokens.feed).map fun _ => ()).congr fun bs u => ?_
  constructor
  · rintro ⟨_, ⟨rfl, hlen⟩, -⟩
    exact hlen
  · intro hlen
    exact ⟨bs, ⟨rfl, hlen⟩, rfl⟩

/-- The rest of a `value` record comes to the same state without its value.  A payload that was
decoded has its declared length, so that leaving out as many bytes gets to the same place. -/
theorem valueRecord_skipped (hd : d.lookahead = none)
    (h : valueRecord .decoded offset length d = .ok record d') :
    valueRecord .skipped offset length d = .ok (record.under .skipped) d' := by
  obtain ⟨bs, v, t, -, hlen, hr, rfl, rfl⟩ := (valueRecord_eq_ok (ready_self hd)).mp h
  obtain ⟨u, hu, hr⟩ := hr.split
  have hskip : onTokens (TokenStream.skip length) d = .ok () u :=
    ((takes_skip length d).ok_iff () u).mpr ⟨bs, hlen, hu⟩
  have hend : expectTerminator u = .ok () t :=
    ((takes_expectTerminator ((ready_self hd).reads hu)).ok_iff () t).mpr ⟨_, rfl, hr⟩
  have hpayload : payloadIf .skipped offset length d = .ok none u := bind_of_ok hskip _
  rw [valueRecord, bind_of_ok hpayload, bind_of_ok hend]
  rfl

/-- Any other record is the same either way. -/
theorem under_of_kind (h : entry.record.kind ≠ .value) : entry.under payloads = entry := by
  obtain ⟨offset, backlink, record⟩ := entry
  cases record with
  | value _ _ => exact absurd rfl h
  | _ => cases payloads <;> rfl

/-- Behind a token that opens no value comes a record of another kind. -/
theorem kind_of_opened (htoken : token.tag ≠ .value)
    (h : opened payloads offset token d = .ok entry d') : entry.record.kind ≠ .value := by
  cases token with
  | value backlink length => exact absurd rfl htoken
  | header =>
    obtain ⟨record, t, hrecord, h⟩ := bind_eq_ok.mp h
    obtain ⟨version, u, -, hrecord⟩ := bind_eq_ok.mp hrecord
    obtain ⟨_, v, -, hrecord⟩ := bind_eq_ok.mp hrecord
    cases hrecord
    cases h
    intro hkind
    cases hkind
  | clear =>
    obtain ⟨record, t, hrecord, h⟩ := bind_eq_ok.mp h
    obtain ⟨_, v, -, hrecord⟩ := bind_eq_ok.mp hrecord
    cases hrecord
    cases h
    intro hkind
    cases hkind
  | add backlink =>
    obtain ⟨record, t, hrecord, h⟩ := bind_eq_ok.mp h
    rw [addRecord, get_bind_apply] at hrecord
    obtain ⟨entries, v, -, hrecord⟩ := bind_eq_ok.mp hrecord
    cases hrecord
    cases h
    intro hkind
    cases hkind
  | _ => cases h

/-- Behind its first token, a record that is returned in full is returned without its value, too.
Bytes of the declared length are left out, and that is as many as the value took. -/
theorem opened_skipped (hd : d.lookahead = none)
    (h : opened .decoded offset token d = .ok entry d') :
    opened .skipped offset token d = .ok (entry.under .skipped) d' := by
  by_cases htoken : token.tag = .value
  · obtain ⟨backlink, length, rfl⟩ := Token.openedBy_of_tag htoken
    obtain ⟨record, t, hrecord, h⟩ := bind_eq_ok.mp h
    cases h
    exact bind_of_ok (valueRecord_skipped hd hrecord) _
  · -- No other record looks at whether payloads are decoded.
    rw [under_of_kind (kind_of_opened htoken h)]
    cases token with
    | value _ _ => exact absurd rfl htoken
    | _ => exact h

/-- Taking a token leaves none behind. -/
theorem lookahead_of_advance (hd : d.lookahead = none) {p : Placed}
    (h : advance d = .ok (some p) d') : d'.lookahead = none := by
  have hrequire : require d = .ok p d' := require_eq_ok.mpr h
  exact lookahead_of_require hd hrequire

/-- A record that is returned in full is returned without its value, too, from the same state to
the same state. -/
theorem nextRecord_under (hd : d.lookahead = none)
    (h : nextRecord .decoded d = .ok (some entry) d') (payloads : Payloads) :
    nextRecord payloads d = .ok (some (entry.under payloads)) d' := by
  cases payloads with
  | decoded => exact h
  | skipped =>
    rw [nextRecord_eq, bind_eq_ok] at h
    obtain ⟨p, t, hp, h⟩ := h
    rw [nextRecord_eq, bind_of_ok hp]
    cases p with
    | none => cases h
    | some p =>
      obtain ⟨found, u, hfound, h⟩ := bind_eq_ok.mp h
      cases h
      obtain ⟨_, v, hcheck, hrest⟩ := bind_eq_ok.mp hfound
      obtain ⟨found', w, hopened, hmark⟩ := bind_eq_ok.mp hrest
      cases hmark
      obtain ⟨-, rfl⟩ := checkStarted_eq_ok.mp hcheck
      have hskipped := opened_skipped (lookahead_of_advance hd hp) hopened
      refine bind_of_ok ?_ _
      rw [recordAt, bind_of_ok hcheck, bind_of_ok hskipped]
      rfl

/-- The end is found either way. -/
theorem nextRecord_none (h : nextRecord .decoded d = .ok none d') (payloads : Payloads) :
    nextRecord payloads d = .ok none d' := by
  rw [nextRecord_eq, bind_eq_ok] at h
  obtain ⟨p, t, hp, h⟩ := h
  rw [nextRecord_eq, bind_of_ok hp]
  cases p with
  | none => exact h
  | some p =>
    obtain ⟨found, u, -, h⟩ := bind_eq_ok.mp h
    cases h

/-! ## 3. Deciding at each record -/

/-- A record, and the dictionary and the counts once it is read. -/
structure Snapshot where
  entry : Entry
  dictionary : Dictionary
  stats : DecodeStats

/-- What is reported of a snapshot. -/
def Snapshot.under (payloads : Payloads) (snapshot : Snapshot) : Snapshot :=
  { snapshot with entry := snapshot.entry.under payloads }

variable {σ : Type} [Feed σ]

/-- The next record of a decoder that has returned so many, its payload decoded or not as chosen for
its number. -/
def nextSnapshot (choose : Nat → Payloads) :
    EStateM Fault (Nat × Decoder σ) (Option Snapshot) := fun (number, d) =>
  match nextRecord (choose number) d with
  | .ok (some entry) d => .ok (some ⟨entry, d.dictionary, d.stats⟩) (number + 1, d)
  | .ok none d => .ok none (number, d)
  | .error fault d => .error fault (number, d)

/-- All records up to the end or the first failure. -/
def snapshots (choose : Nat → Payloads) (d : Decoder σ) : Run (Nat × Decoder σ) Snapshot :=
  Run.ask (nextSnapshot choose) d.bound (0, d)

/-- A snapshot that is taken is of a record that is read, and is numbered by the records before it.
What is known of single records carries over to snapshots by this. -/
theorem nextSnapshot_eq_some {choose : Nat → Payloads} {s s' : Nat × Decoder σ}
    {snapshot : Snapshot} :
    nextSnapshot choose s = .ok (some snapshot) s' ↔
      nextRecord (choose s.1) s.2 = .ok (some snapshot.entry) s'.2 ∧ s'.1 = s.1 + 1 ∧
        snapshot.dictionary = s'.2.dictionary ∧ snapshot.stats = s'.2.stats := by
  obtain ⟨number, d⟩ := s
  obtain ⟨number', d'⟩ := s'
  obtain ⟨entry, dictionary, stats⟩ := snapshot
  simp only [nextSnapshot]
  constructor
  · intro h
    cases hnext : nextRecord (choose number) d with
    | error fault t =>
      rw [hnext] at h
      cases h
    | ok found t =>
      rw [hnext] at h
      cases found <;> cases h
      exact ⟨rfl, rfl, rfl, rfl⟩
  · rintro ⟨hnext, rfl, rfl, rfl⟩
    rw [hnext]

/-- No snapshot is taken at the end, where no record is read, and the number is left as it is. -/
theorem nextSnapshot_eq_none {choose : Nat → Payloads} {s s' : Nat × Decoder σ} :
    nextSnapshot choose s = .ok none s' ↔
      nextRecord (choose s.1) s.2 = .ok none s'.2 ∧ s'.1 = s.1 := by
  obtain ⟨number, d⟩ := s
  obtain ⟨number', d'⟩ := s'
  simp only [nextSnapshot]
  constructor
  · intro h
    cases hnext : nextRecord (choose number) d with
    | error fault t =>
      rw [hnext] at h
      cases h
    | ok found t =>
      rw [hnext] at h
      cases found <;> cases h
      exact ⟨rfl, rfl⟩
  · rintro ⟨hnext, rfl⟩
    rw [hnext]

/-- A snapshot takes a byte or more, whatever is chosen, so there are at most as many as bytes. -/
theorem nextSnapshot_shortens (choose : Nat → Payloads) :
    Run.Shrinks (nextSnapshot choose) (fun s : Nat × Decoder Tape => s.2.lookahead = none)
      (fun s => Feed.unread s.2.tokens.feed) := by
  intro s snapshot s' hd h
  obtain ⟨hnext, -⟩ := nextSnapshot_eq_some.mp h
  exact nextRecord_shortens (choose s.1) s.2 snapshot.entry s'.2 hd hnext

/-- A snapshot of the full decoding is taken whatever is chosen.  The decoder behind it is the same,
so the next one can be compared. -/
theorem nextSnapshot_under (choose : Nat → Payloads) {s s' : Nat × Decoder Tape}
    {snapshot : Snapshot} (hd : s.2.lookahead = none)
    (h : nextSnapshot (fun _ => .decoded) s = .ok (some snapshot) s') :
    s'.1 = s.1 + 1 ∧ nextSnapshot choose s = .ok (some (snapshot.under (choose s.1))) s' := by
  obtain ⟨hnext, hnumber, hdictionary, hstats⟩ := nextSnapshot_eq_some.mp h
  exact ⟨hnumber, nextSnapshot_eq_some.mpr
    ⟨nextRecord_under hd hnext (choose s.1), hnumber, hdictionary, hstats⟩⟩

/-- The end is found whatever is chosen, as it is found in front of any record. -/
theorem nextSnapshot_none (choose : Nat → Payloads) {s s' : Nat × Decoder Tape}
    (h : nextSnapshot (fun _ => .decoded) s = .ok none s') :
    nextSnapshot choose s = .ok none s' := by
  obtain ⟨hnext, hnumber⟩ := nextSnapshot_eq_none.mp h
  exact nextSnapshot_eq_none.mpr ⟨nextRecord_none hnext (choose s.1), hnumber⟩

/-- The snapshots of the full decoding are taken whatever is chosen.  The choice goes by the number
of the record, which both count alike. -/
theorem yields_under (choose : Nat → Payloads) {s s' : Nat × Decoder Tape}
    {snapshots : List Snapshot}
    (h : Run.Yields (nextSnapshot fun _ => .decoded) s snapshots s') (hd : s.2.lookahead = none) :
    Run.Yields (nextSnapshot choose) s
      (snapshots.mapIdx fun i snapshot => snapshot.under (choose (s.1 + i))) s' := by
  induction h with
  | nil => exact .nil
  | @cons s t u snapshot snapshots head tail ih =>
    obtain ⟨hnumber, hnext⟩ := nextSnapshot_under choose hd head
    have htail := ih (nextSnapshot_shortens _ s snapshot t hd head).1
    simp only [hnumber, Nat.add_assoc, Nat.add_comm 1] at htail
    rw [List.mapIdx_cons]
    exact .cons hnext htail

end Decoder

/-! ## 4. Listings -/

namespace Listing

variable {r r' final : Reading Tape} {row : Row} {payloads : Payloads}

/-- A reading that has not failed, and holds no token back. -/
structure Fresh (r : Reading Tape) : Prop where
  failed : r.failed = false
  lookahead : r.decoder.lookahead = none

/-- A step of a reading that has not failed is a step of its decoder, and leaves the reading as it
is otherwise. -/
theorem attempt_eq_ok {α : Type} {step : EStateM Fault (Decoder Tape) (Option α)}
    {item : Option α} (hr : r.failed = false) :
    Reading.attempt step r = .ok item r' ↔
      ∃ d, step r.decoder = .ok item d ∧ r' = { r with decoder := d } := by
  simp only [Reading.attempt, hr, Bool.false_eq_true, if_false]
  cases step r.decoder with
  | error fault d => simp
  | ok found d =>
    simp only [EStateM.Result.ok.injEq]
    constructor
    · rintro ⟨rfl, rfl⟩
      exact ⟨d, ⟨rfl, rfl⟩, rfl⟩
    · rintro ⟨_, ⟨rfl, rfl⟩, rfl⟩
      exact ⟨rfl, rfl⟩

/-- A row is a record and the size of the dictionary behind it. -/
theorem nextRow_eq_some (hr : r.failed = false) :
    nextRow payloads r = .ok (some row) r' ↔
      ∃ d, Decoder.nextRecord payloads r.decoder = .ok (some row.entry) d ∧
        row.dictionaryEntries = d.dictionary.size ∧ r' = { r with decoder := d } := by
  rw [nextRow, bind_eq_ok]
  constructor
  · rintro ⟨entry, t, hentry, h⟩
    obtain ⟨d, hd, rfl⟩ := (attempt_eq_ok hr).mp hentry
    cases entry with
    | none => cases h
    | some entry =>
      cases h
      exact ⟨d, hd, rfl, rfl⟩
  · rintro ⟨d, hd, hsize, rfl⟩
    refine ⟨some row.entry, _, (attempt_eq_ok hr).mpr ⟨d, hd, rfl⟩, ?_⟩
    show EStateM.Result.ok (some (Row.mk row.entry d.dictionary.size)) _ = _
    rw [← hsize]

/-- There are no more rows where there are no more records. -/
theorem nextRow_eq_none (hr : r.failed = false) :
    nextRow payloads r = .ok none r' ↔
      ∃ d, Decoder.nextRecord payloads r.decoder = .ok none d ∧ r' = { r with decoder := d } := by
  rw [nextRow, bind_eq_ok, ← attempt_eq_ok hr]
  constructor
  · rintro ⟨entry, t, hentry, h⟩
    cases entry with
    | none =>
      cases h
      exact hentry
    | some entry => cases h
  · intro h
    exact ⟨none, r', h, rfl⟩

/-- A row takes a byte or more. -/
theorem nextRow_shortens (payloads : Payloads) :
    Run.Shrinks (nextRow payloads) Fresh (fun r => Feed.unread r.decoder.tokens.feed) := by
  intro r row r' hr h
  obtain ⟨d, hd, -, rfl⟩ := (nextRow_eq_some hr.failed).mp h
  obtain ⟨hlook, hless⟩ := Decoder.nextRecord_shortens payloads _ _ _ hr.lookahead hd
  exact ⟨⟨hr.failed, hlook⟩, hless⟩

/-- A row of the full listing is listed without its value, too. -/
theorem nextRow_under (hr : Fresh r) (h : nextRow .decoded r = .ok (some row) r')
    (payloads : Payloads) : nextRow payloads r = .ok (some (row.under payloads)) r' := by
  obtain ⟨d, hd, hsize, rfl⟩ := (nextRow_eq_some hr.failed).mp h
  exact (nextRow_eq_some hr.failed).mpr
    ⟨d, Decoder.nextRecord_under hr.lookahead hd payloads, hsize, rfl⟩

theorem nextRow_none (hr : Fresh r) (h : nextRow .decoded r = .ok none r')
    (payloads : Payloads) : nextRow payloads r = .ok none r' := by
  obtain ⟨d, hd, rfl⟩ := (nextRow_eq_none hr.failed).mp h
  exact (nextRow_eq_none hr.failed).mpr ⟨d, Decoder.nextRecord_none hd payloads, rfl⟩

/-- Where the full listing comes to the end, so does the one without values, with the same rows but
for the values, and in the same state. -/
theorem run_under {input : Tape} {limits : Limits}
    (h : (run input limits .decoded).failure = none) (payloads : Payloads) :
    run input limits payloads =
      { run input limits .decoded with
        items := (run input limits .decoded).items.map (Row.under payloads) } := by
  have hfresh : Fresh (Reading.ofFeed input limits) := ⟨rfl, rfl⟩
  have hlt : Feed.unread (Reading.ofFeed input limits).decoder.tokens.feed <
      (Reading.ofFeed input limits).decoder.bound := Nat.lt_succ_self _
  obtain ⟨t, hyields, hend⟩ := Run.ends_of_ask (nextRow_shortens .decoded) hfresh hlt h
  obtain ⟨ht, hyields'⟩ := hyields.map (P := Fresh) (f := Row.under payloads)
    (fun r row r' hr hnext =>
      ⟨(nextRow_shortens .decoded r row r' hr hnext).1, nextRow_under hr hnext payloads⟩) hfresh
  have hends : Run.Ends (nextRow payloads) _ _ _ := ⟨t, hyields', nextRow_none ht hend payloads⟩
  have hall := hends.ask_eq (nextRow_shortens payloads) hfresh hlt
  rw [← h] at hall
  exact hall

/-- A visitor that is content with all rows is content with them without their values, if it is with
each. -/
theorem visited_under {visit : Nat → Row → Except Fault Unit} {payloads : Payloads}
    (hvisit : ∀ n row, visit n row = .ok () → visit n (row.under payloads) = .ok ())
    (rows : List Row) :
    ∀ n, (visited visit n rows).2 = none →
      (visited visit n (rows.map (Row.under payloads))).2 = none := by
  induction rows with
  | nil =>
    intro n _
    rfl
  | cons row rows ih =>
    intro n h
    rw [List.map_cons, visited]
    rw [visited] at h
    cases hrow : visit n row with
    | error fault =>
      rw [hrow] at h
      cases h
    | ok u =>
      rw [hrow] at h
      rw [hvisit n row hrow]
      exact ih (n + 1) h

/-- A summary does not look at values. -/
theorem add_under (s : ListingSummary) (payloads : Payloads) (row : Row) :
    s.add (row.under payloads) = s.add row := by
  obtain ⟨⟨offset, backlink, record⟩, entries⟩ := row
  cases record <;> cases payloads <;> rfl

/-- There is a summary exactly if the visitor is content and the records come to the end.  A visitor
that is not content is heard before a fault of the input. -/
theorem outcome_eq_ok {input : Tape} {limits : Limits} {payloads : Payloads}
    {visit : Nat → Row → Except Fault Unit} {s : ListingSummary} :
    (Listing.of input limits payloads visit).outcome = .ok s ↔
      (visited visit 0 (run input limits payloads).items).2 = none ∧
        (run input limits payloads).failure = none ∧
          summary (run input limits payloads) = s := by
  simp only [Listing.of]
  cases (visited visit 0 (run input limits payloads).items).2 with
  | some fault => simp
  | none =>
    cases (run input limits payloads).failure with
    | some fault => simp
    | none => simp

/-- Where the full listing has a summary, so has the one without values, and it is the same. -/
theorem outcome_under {input : Tape} {limits : Limits} {payloads : Payloads}
    {visit : Nat → Row → Except Fault Unit} {s : ListingSummary}
    (hvisit : ∀ n row, visit n row = .ok () → visit n (row.under payloads) = .ok ())
    (h : (Listing.of input limits .decoded visit).outcome = .ok s) :
    (Listing.of input limits payloads visit).outcome = .ok s := by
  obtain ⟨hvisited, hfailure, rfl⟩ := outcome_eq_ok.mp h
  refine outcome_eq_ok.mpr ?_
  rw [run_under hfailure payloads]
  refine ⟨visited_under hvisit _ 0 hvisited, hfailure, ?_⟩
  simp only [summary, List.foldl_map, add_under]

end Listing

namespace Decoder

/-! ## 5. Whole streams -/

/-- **Skipping agrees with decoding.**  However it is chosen, record by record, whether payloads are
decoded: the snapshots of the full decoding are taken, values apart where they were left out; where
the full decoding comes to the end, so does the mixed one, with no further records and in the same
state; and a listing that leaves the payloads out has the summary of the full listing, if its
visitor does not stop for want of values.

The converse fails: a payload that is left out is not looked into, so what is wrong inside it is
found by the full decoding alone. -/
theorem snapshots_skipping (bytes : List UInt8) (limits : Limits) (choose : Nat → Payloads) :
    let start := ofFeed (Tape.ofBytes bytes) limits
    let full := snapshots (fun _ => .decoded) start
    let mixed := snapshots choose start
    let reported := full.items.mapIdx fun n snapshot => snapshot.under (choose n)
    reported <+: mixed.items ∧
    (full.failure = none →
      mixed.items = reported ∧ mixed.failure = none ∧ mixed.final = full.final) ∧
    ∀ visit : Nat → Row → Except Fault Unit,
      (∀ n row, visit n row = .ok () → visit n (row.under .skipped) = .ok ()) →
      ∀ s, (Listing.of (Tape.ofBytes bytes) limits .decoded visit).outcome = .ok s →
        (Listing.of (Tape.ofBytes bytes) limits .skipped visit).outcome = .ok s := by
  intro start full mixed reported
  have hlt : Feed.unread start.tokens.feed < start.bound := Nat.lt_succ_self _
  have hunder : ∀ {t snaps}, Run.Yields (nextSnapshot fun _ => .decoded) (0, start) snaps t →
      Run.Yields (nextSnapshot choose) (0, start)
        (snaps.mapIdx fun n snapshot => snapshot.under (choose n)) t := by
    intro t snaps hyields
    have hmixed := yields_under choose hyields rfl
    simp only [Nat.zero_add] at hmixed
    exact hmixed
  refine ⟨?_, ?_, fun visit hvisit s hs => Listing.outcome_under hvisit hs⟩
  · -- The full decoding may have failed.  What it returned before is returned by the mixed one,
    -- which may then go on.
    obtain ⟨t, hyields⟩ :
        ∃ t, Run.Yields (nextSnapshot fun _ => .decoded) (0, start) full.items t :=
      Run.yields_of_ask (nextSnapshot_shortens fun _ => .decoded) rfl hlt
    have hmixed := hunder hyields
    exact Run.prefix_of_yields hmixed
      (Nat.le_of_lt (hmixed.length_lt (nextSnapshot_shortens choose) rfl hlt))
  · intro hfailure
    obtain ⟨t, hyields, hend⟩ :=
      Run.ends_of_ask (nextSnapshot_shortens fun _ => .decoded) rfl hlt hfailure
    have hends : Run.Ends (nextSnapshot choose) (0, start) reported full.final :=
      ⟨t, hunder hyields, nextSnapshot_none choose hend⟩
    have hall : mixed = ⟨reported, none, full.final⟩ :=
      hends.ask_eq (nextSnapshot_shortens choose) rfl hlt
    rw [hall]
    exact ⟨rfl, rfl, rfl⟩

end Decoder

end DictLog
