/-
# Records are read exactly by the grammar

A decoder between records is a scope of the grammar (`Decoder.scope`).  `nextRecord_eq_some` says
that it returns a record exactly when the bytes in front of it are a record in its scope, and that
afterwards it has moved on by these bytes, with the dictionary that the grammar gives
(`Decoder.completed`).  The first record of a stream must be a header.  Where the tape ends inside
a record, `nextRecord_cut` says that it is reported as truncated.
-/
import DictLog.Proofs.RecordParts

namespace DictLog

open OnTape Step

/-! ## 1. Records, token by token -/

/-- What may follow the token that opens a record at `offset`, what is then reported, and the
dictionary behind it. -/
def Token.Rest (limits : Limits) (dictionary : List String) (offset : Nat) :
    Token → List UInt8 → Entry → List String → Prop
  | .header, bs, entry, after =>
    ∃ digits, Varint.Spells digits Format.version ∧
      bs = Tag.natural.byte :: (digits ++ Format.terminator) ∧
      entry = ⟨offset, none, .header Format.version⟩ ∧ after = dictionary
  | .clear, bs, entry, after =>
    bs = Format.terminator ∧ entry = ⟨offset, none, .clear⟩ ∧ after = []
  | .add backlink, bs, entry, after =>
    ∃ cs strings, Grammar.Sequence (Grammar.StringLiteral limits) cs strings ∧
      dictionary.length + strings.length ≤ limits.maxDictionaryEntries ∧
      bs = cs ++ Format.terminator ∧ entry = ⟨offset, some backlink, .add strings.length⟩ ∧
      after = dictionary ++ strings
  | .value backlink length, bs, entry, after =>
    ∃ payload v, Grammar.Value limits dictionary limits.maxNestingDepth payload v ∧
      payload.length = length ∧ bs = payload ++ Format.terminator ∧
      entry = ⟨offset, some backlink, .value length (some v)⟩ ∧ after = dictionary
  | _, _, _, _ => False

/-- A record is a token and what may follow it.  The backlink and the declared length belong to the
token, so that what follows depends on them only by the length of the payload. -/
theorem Grammar.record_iff {limits : Limits} {s : Scope} {bs : List UInt8} {entry : Entry}
    {after : List String} :
    Record limits s bs entry after ↔ ∃ (token : Token) (cs ds : List UInt8),
      token.Body limits s.offset s.lastDictionary cs ∧
        token.Rest limits s.dictionary s.offset ds entry after ∧
          bs = token.tag.byte :: (cs ++ ds) := by
  constructor
  · intro h
    cases h with
    | header spells => exact ⟨.header, [], _, rfl, ⟨_, spells, rfl, rfl, rfl⟩, rfl⟩
    | clear => exact ⟨.clear, [], _, rfl, ⟨rfl, rfl, rfl⟩, rfl⟩
    | add spells linked literals limit =>
      exact ⟨.add _, _, _, ⟨spells, linked⟩, ⟨_, _, literals, limit, rfl, rfl, rfl⟩, rfl⟩
    | value spells linked length limit denotes =>
      exact ⟨.value _ _, _, _, ⟨_, _, ⟨spells, linked⟩, ⟨length, limit⟩, rfl⟩,
        ⟨_, _, denotes, rfl, rfl, rfl, rfl⟩, rfl⟩
  · intro h
    obtain ⟨token, cs, ds, hbody, hrest, rfl⟩ := h
    cases token with
    | header =>
      obtain rfl : cs = [] := hbody
      obtain ⟨digits, spells, rfl, rfl, rfl⟩ := hrest
      exact .header spells
    | clear =>
      obtain rfl : cs = [] := hbody
      obtain ⟨rfl, rfl, rfl⟩ := hrest
      exact .clear
    | add backlink =>
      obtain ⟨spells, linked⟩ := hbody
      obtain ⟨bs, strings, literals, limit, rfl, rfl, rfl⟩ := hrest
      exact .add spells linked literals limit
    | value backlink length =>
      obtain ⟨digits, lengthDigits, ⟨spells, linked⟩, ⟨hlength, limit⟩, rfl⟩ := hbody
      obtain ⟨payload, v, denotes, rfl, rfl, rfl, rfl⟩ := hrest
      exact .value spells linked hlength limit denotes
    | _ => exact hrest.elim

namespace Decoder

/-- What a record depends on. -/
def scope (d : Decoder Tape) : Grammar.Scope where
  offset := d.tokens.offset
  lastDictionary := d.tokens.lastDictionary
  dictionary := d.dictionary.toList

/-- The mark that a record leaves. -/
def markedBy (d : Decoder Tape) (entry : Entry) : Decoder Tape :=
  match entry.record with
  | .clear => d.marked entry.offset .clear
  | .add n => d.marked entry.offset (.add n)
  | _ => d

/-- A decoder whose tape stands behind a record, once the record is complete: the mark is left, the
dictionary is the new one, and the record is counted. -/
def completed (d : Decoder Tape) (entry : Entry) (dictionary : List String) : Decoder Tape :=
  { d.markedBy entry with
    dictionary := .ofList dictionary
    started := true
    stats := { d.stats.count entry.record with bytesRead := d.tokens.offset } }

variable {limits : Limits} {dictionary : List String} {bound : Nat} {d d' : Decoder Tape}

/-- Behind its first token, a record is read exactly from what may follow the token.  Only four
tokens open a record, and each has its own lemma in the module before; any other is refused. -/
theorem opened_eq_ok (hd : Ready limits dictionary bound d)
    (hdict : dictionary.length ≤ limits.maxDictionaryEntries) {offset : Nat} {token : Token}
    {entry : Entry} :
    opened .decoded offset token d = .ok entry d' ↔ ∃ bs after t,
      token.Rest limits dictionary offset bs entry after ∧ Reads d bs t ∧
      d' = { t with
        dictionary := .ofList after
        started := t.started || token = .header
        stats := t.stats.count entry.record } := by
  have hsame : ∀ {t : Decoder Tape} {bs : List UInt8}, Reads d bs t →
      Dictionary.ofList dictionary = t.dictionary := fun hr => by
    rw [← (hd.reads hr).dictionary, Dictionary.ofList_toList]
  cases token with
  | header =>
    rw [opened, bind_eq_ok]
    constructor
    · intro h
      obtain ⟨r, t, hr, h⟩ := h
      cases h
      obtain ⟨digits, t, hspells, hreads, rfl, rfl⟩ := (headerRecord_eq_ok hd).mp hr
      refine ⟨_, dictionary, t, ⟨digits, hspells, rfl, rfl, rfl⟩, hreads, ?_⟩
      rw [hsame hreads]
      simp [DecodeStats.count]
    · intro h
      obtain ⟨_, _, t, ⟨digits, hspells, rfl, rfl, rfl⟩, hreads, rfl⟩ := h
      rw [hsame hreads]
      refine ⟨_, _, (headerRecord_eq_ok hd).mpr ⟨digits, t, hspells, hreads, rfl, rfl⟩, ?_⟩
      simp [DecodeStats.count]
  | clear =>
    rw [opened, bind_eq_ok]
    constructor
    · intro h
      obtain ⟨r, t, hr, h⟩ := h
      cases h
      obtain ⟨t, hreads, rfl, rfl⟩ := (clearRecord_eq_ok hd).mp hr
      refine ⟨_, [], t, ⟨rfl, rfl, rfl⟩, hreads, ?_⟩
      simp [Dictionary.empty, Dictionary.ofList]
    · intro h
      obtain ⟨_, _, t, ⟨rfl, rfl, rfl⟩, hreads, rfl⟩ := h
      refine ⟨_, _, (clearRecord_eq_ok hd).mpr ⟨t, hreads, rfl, rfl⟩, ?_⟩
      simp [Dictionary.empty, Dictionary.ofList]
  | add backlink =>
    rw [opened, bind_eq_ok]
    constructor
    · intro h
      obtain ⟨r, t, hr, h⟩ := h
      cases h
      obtain ⟨bs, strings, t, hseq, hlim, hreads, rfl, rfl⟩ := (addRecord_eq_ok hd hdict).mp hr
      refine ⟨_, _, t, ⟨bs, strings, hseq, hlim, rfl, rfl, rfl⟩, hreads, ?_⟩
      simp
    · intro h
      obtain ⟨_, _, t, ⟨bs, strings, hseq, hlim, rfl, rfl, rfl⟩, hreads, rfl⟩ := h
      refine ⟨_, _, (addRecord_eq_ok hd hdict).mpr
        ⟨bs, strings, t, hseq, hlim, hreads, rfl, rfl⟩, ?_⟩
      simp
  | value backlink length =>
    rw [opened, bind_eq_ok]
    constructor
    · intro h
      obtain ⟨r, t, hr, h⟩ := h
      cases h
      obtain ⟨bs, v, t, hv, hlen, hreads, rfl, rfl⟩ := (valueRecord_eq_ok hd).mp hr
      refine ⟨_, _, t, ⟨bs, v, hv, hlen, rfl, rfl, rfl⟩, hreads, ?_⟩
      rw [hsame hreads]
      simp
    · intro h
      obtain ⟨_, _, t, ⟨bs, v, hv, hlen, rfl, rfl, rfl⟩, hreads, rfl⟩ := h
      rw [hsame hreads]
      refine ⟨_, _, (valueRecord_eq_ok hd).mpr ⟨bs, v, t, hv, hlen, hreads, rfl, rfl⟩, ?_⟩
      simp
  | _ =>
    constructor
    · intro h
      cases h
    · intro h
      obtain ⟨_, _, _, hrest, -⟩ := h
      exact hrest.elim

/-- A record that is cut off behind its first token is truncated, whichever of its parts is cut off.
There is nothing wrong with what is there of it, so all that is found is that its end is missing. -/
theorem opened_cut (hd : Ready limits dictionary bound d) {offset : Nat} {token : Token}
    {entry : Entry} {bs : List UInt8} {after : List String}
    (hrest : token.Rest limits dictionary offset bs entry after) (hcut : Cut d bs) :
    ∃ d', opened .decoded offset token d = .error .truncated d' := by
  cases token with
  | header =>
    obtain ⟨digits, hspells, rfl, -⟩ := hrest
    obtain ⟨d', he⟩ := modified_cut (takes_header hd) ⟨digits, hspells, rfl, rfl⟩ hcut
    exact ⟨d', bind_of_error ((headerRecord_eq d).trans he) _⟩
  | clear =>
    obtain ⟨rfl, -⟩ := hrest
    obtain ⟨d', he⟩ := modified_cut (takes_expectTerminator hd) (a := ()) rfl hcut
    exact ⟨d', bind_of_error he _⟩
  | add backlink =>
    obtain ⟨cs, strings, hseq, hlim, rfl, -⟩ := hrest
    obtain ⟨d', he⟩ : ∃ d', additions _ 0 d = .error .truncated d' :=
      additions_cut d.bound hd.bounded hseq hlim hcut
    exact ⟨d', bind_of_error (bind_of_error he _) _⟩
  | value backlink length =>
    obtain ⟨cs, v, hv, hlen, rfl, -⟩ := hrest
    obtain ⟨d', he⟩ := modified_cut (takes_payloadEnd hd offset length) ⟨cs, hv, hlen, rfl⟩ hcut
    exact ⟨d', bind_of_error ((valueRecord_eq offset length d).trans he) _⟩
  | _ => exact hrest.elim

/-! ## 2. Whole records -/

/-- Leaving a mark and reading on commute. -/
theorem reads_marked_iff {bs : List UInt8} {offset : Nat} {token : Token} :
    Reads (d.marked offset token) bs d' ↔ ∃ t, Reads d bs t ∧ d' = t.marked offset token :=
  reads_change_iff (g := fun d : Decoder Tape => d.marked offset token)
    (fun s => by cases token <;> rfl) (fun t s => by cases token <;> rfl)

/-- A record may come once there was a header, and a header may come at any time. -/
theorem checkStarted_eq_ok {token : Token} {u : Unit} :
    checkStarted token d = .ok u d' ↔ (d.started ∨ token = .header) ∧ d' = d := by
  rw [checkStarted, get_bind_apply]
  by_cases h : d.started ∨ token = .header
  · rw [if_pos h, pure_apply]
    simp only [EStateM.Result.ok.injEq, h, true_and]
    exact eq_comm
  · simp [h]

/-- Behind its first token, which may come first or does not, a record is what the token opens. -/
theorem nextRecord_of_advance {payloads : Payloads} {offset : Nat} {token : Token}
    (hadvance : advance d = .ok (some ⟨offset, token⟩) d') (hmay : d'.started ∨ token = .header) :
    nextRecord payloads d = (opened payloads offset token >>= fun entry =>
      markRead >>= fun _ => pure (some entry)) d' := by
  have hcheck : checkStarted token d' = .ok () d' := checkStarted_eq_ok.mpr ⟨hmay, rfl⟩
  rw [nextRecord, bind_of_ok hadvance]
  exact bind_of_ok hcheck _

/-- A record is a header exactly if its first token is, so whether a stream has been started is
decided by the token. -/
theorem kind_of_rest {offset : Nat} {token : Token} {bs : List UInt8} {entry : Entry}
    {after : List String} (h : token.Rest limits dictionary offset bs entry after) :
    token = .header ↔ entry.record.kind = .header := by
  cases token with
  | header =>
    obtain ⟨_, _, _, rfl, _⟩ := h
    exact ⟨fun _ => rfl, fun _ => rfl⟩
  | clear =>
    obtain ⟨_, rfl, _⟩ := h
    exact ⟨nofun, nofun⟩
  | add _ =>
    obtain ⟨_, _, _, _, _, rfl, _⟩ := h
    exact ⟨nofun, nofun⟩
  | value _ _ =>
    obtain ⟨_, _, _, _, _, rfl, _⟩ := h
    exact ⟨nofun, nofun⟩
  | _ => exact h.elim

/-- What the marks, the dictionary and the counts come to once the record is complete.  A decoder
does them one at a time and in another order; with the token at hand they can be told together. -/
theorem completed_of_rest {offset : Nat} {token : Token} {bs : List UInt8} {entry : Entry}
    {after : List String} (h : token.Rest limits dictionary offset bs entry after)
    (hstarted : d.started ∨ token = .header) :
    d.completed entry after =
      { d.marked offset token with
        dictionary := .ofList after
        started := d.started || token = .header
        stats := { d.stats.count entry.record with bytesRead := d.tokens.offset } } := by
  have hs : (d.started || decide (token = .header)) = true := by simpa using hstarted
  rw [hs]
  cases token with
  | header =>
    obtain ⟨_, _, _, rfl, _⟩ := h
    rfl
  | clear =>
    obtain ⟨_, rfl, _⟩ := h
    rfl
  | add _ =>
    obtain ⟨_, _, _, _, _, rfl, _⟩ := h
    rfl
  | value _ _ =>
    obtain ⟨_, _, _, _, _, rfl, _⟩ := h
    rfl
  | _ => exact h.elim

/-- **Records are those of the grammar.**  Between records, a record is read exactly when the
grammar has it in the decoder's scope, and the first is a header.  The decoder then stands behind it,
with its mark left, its dictionary in place and the record counted. -/
theorem nextRecord_eq_some (hd : d.lookahead = none)
    (hsize : d.dictionary.size ≤ d.limits.maxDictionaryEntries) {entry : Entry} :
    nextRecord .decoded d = .ok (some entry) d' ↔
      (d.started ∨ entry.record.kind = .header) ∧ ∃ bs after t,
        Grammar.Record d.limits d.scope bs entry after ∧ Reads d bs t ∧
          d' = t.completed entry after := by
  have hready : Ready d.limits d.scope.dictionary d.bound d :=
    Ready.bounded ⟨hd, rfl, rfl, Nat.lt_succ_self _⟩
  have hdict : d.scope.dictionary.length ≤ d.limits.maxDictionaryEntries := by
    rw [scope, Dictionary.length_toList]
    exact hsize
  have hstarted : ∀ {t : Decoder Tape} {bs : List UInt8}, Reads d bs t → t.started = d.started :=
    fun hr => by
      rw [hr.frame]
      rfl
  rw [nextRecord, bind_eq_ok]
  constructor
  · intro h
    obtain ⟨p, t, hp, h⟩ := h
    rcases p with _ | ⟨offset, token⟩
    · cases h
    obtain ⟨hoffset, cs, u, hbody, hr, rfl⟩ := (advance_eq_some hd).mp hp
    obtain rfl : offset = d.tokens.offset := hoffset
    obtain ⟨_, _, hcheck, h⟩ := bind_eq_ok.mp h
    obtain ⟨hmay, rfl⟩ := checkStarted_eq_ok.mp hcheck
    obtain ⟨entry', v, hv, h⟩ := bind_eq_ok.mp h
    cases h
    have hu := (hready.reads hr).marked d.tokens.offset token
    obtain ⟨ds, after, w, hrest, hrw, rfl⟩ := (opened_eq_ok hu hdict).mp hv
    -- The token has left its mark before the rest was read.  Put behind the rest, it is that of
    -- the whole record.
    obtain ⟨x, hrx, rfl⟩ := reads_marked_iff.mp hrw
    have hx : x.started ∨ token = .header := by
      rw [hstarted (hr.trans hrx), ← hstarted hr]
      cases token <;> exact hmay
    refine ⟨?_, _, after, x, Grammar.record_iff.mpr ⟨token, cs, ds, hbody, hrest, rfl⟩,
      hr.trans hrx, ?_⟩
    · rw [← kind_of_rest hrest, ← hstarted (hr.trans hrx)]
      exact hx
    · rw [completed_of_rest hrest hx]
      cases token <;> rfl
  · intro h
    obtain ⟨hmay, bs, after, x, hrecord, hr, rfl⟩ := h
    obtain ⟨token, cs, ds, hbody, hrest, rfl⟩ := Grammar.record_iff.mp hrecord
    rw [← List.cons_append] at hr
    obtain ⟨u, hru, hrx⟩ := hr.split
    rw [← kind_of_rest hrest] at hmay
    have hx : x.started ∨ token = .header := by
      rw [hstarted hr]
      exact hmay
    -- The other way round, the mark goes in front again.
    have hu : (u.marked d.tokens.offset token).started ∨ token = .header := by
      rw [← hstarted hru] at hmay
      cases token <;> exact hmay
    have hready' := (hready.reads hru).marked d.tokens.offset token
    refine ⟨some ⟨d.tokens.offset, token⟩, _,
      (advance_eq_some hd).mpr ⟨rfl, cs, u, hbody, hru, rfl⟩, ?_⟩
    refine bind_eq_ok.mpr ⟨(), _, checkStarted_eq_ok.mpr ⟨hu, rfl⟩, ?_⟩
    refine bind_eq_ok.mpr ⟨entry, _, (opened_eq_ok hready' hdict).mpr
      ⟨ds, after, _, hrest, reads_marked_iff.mpr ⟨x, hrx, rfl⟩, rfl⟩, ?_⟩
    rw [completed_of_rest hrest hx]
    cases token <;> rfl

/-- Between records, a record that is cut off behind its first byte is truncated.  If nothing of it
is left, the stream has come to its end (`nextRecord_eq_none`). -/
theorem nextRecord_cut (hd : d.lookahead = none) {entry : Entry} {bs : List UInt8}
    {after : List String} (hmay : d.started ∨ entry.record.kind = .header)
    (hrecord : Grammar.Record d.limits d.scope bs entry after) (hcut : Cut d bs)
    (hne : (tape d).rest ≠ []) : ∃ d', nextRecord .decoded d = .error .truncated d' := by
  have hready : Ready d.limits d.scope.dictionary d.bound d :=
    Ready.bounded ⟨hd, rfl, rfl, Nat.lt_succ_self _⟩
  obtain ⟨token, cs, ds, hbody, hrest, rfl⟩ := Grammar.record_iff.mp hrecord
  rw [← List.cons_append] at hcut
  rcases hcut.split with hhead | ⟨u, hru, hbehind⟩
  · obtain ⟨d', he⟩ := advance_cut hd hbody hhead hne
    exact ⟨d', bind_of_error he _⟩
  · have hu : (u.marked d.tokens.offset token).started ∨ token = .header := by
      rw [← kind_of_rest hrest] at hmay
      rw [hru.frame]
      cases token <;> exact hmay
    have hcut' : Cut (u.marked d.tokens.offset token) ds := by
      cases token <;> exact ⟨hbehind.clean, hbehind.inside⟩
    obtain ⟨d', he⟩ := opened_cut ((hready.reads hru).marked d.tokens.offset token) hrest hcut'
    have hadvance : advance d =
        .ok (some ⟨d.tokens.offset, token⟩) (u.marked d.tokens.offset token) :=
      (advance_eq_some hd).mpr ⟨rfl, cs, u, hbody, hru, rfl⟩
    exact ⟨d', (nextRecord_of_advance hadvance hu).trans (bind_of_error he _)⟩

/-- Between records, the end is reached exactly where the tape ends cleanly.  The only trace is the
number of bytes read, which is brought up to date. -/
theorem nextRecord_eq_none {payloads : Payloads} (hd : d.lookahead = none) :
    nextRecord payloads d = .ok none d' ↔ (tape d).rest = [] ∧ (tape d).ending = .clean ∧
      d' = { d with stats := { d.stats with bytesRead := d.tokens.offset } } := by
  rw [nextRecord, bind_eq_ok]
  constructor
  · intro h
    obtain ⟨p, t, hp, h⟩ := h
    rcases p with _ | ⟨offset, token⟩
    · obtain ⟨hrest, hend, rfl⟩ := (advance_eq_none hd).mp hp
      cases h
      exact ⟨hrest, hend, rfl⟩
    · obtain ⟨_, _, -, h⟩ := bind_eq_ok.mp h
      obtain ⟨_, _, -, h⟩ := bind_eq_ok.mp h
      cases h
  · intro h
    obtain ⟨hrest, hend, rfl⟩ := h
    exact ⟨none, d, (advance_eq_none hd).mpr ⟨hrest, hend, rfl⟩, rfl⟩

end Decoder

end DictLog
