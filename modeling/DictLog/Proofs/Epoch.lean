/-
# What comes before a `clear` record does not matter behind it

A `clear` record empties the dictionary and is the place that backlinks are measured from.  So from
there on a decoder goes the same way whatever it has read before, and only the offsets tell how much
that was: the same records with the same dictionaries, and the same end or the same fault
(`epochs_local`).  That is why streams can be concatenated, why the records from a `clear` record on
can stand behind any other stream, and why a `clear` record may be repeated.
-/
import DictLog.Proofs.Framing
import DictLog.Proofs.Parallel

namespace DictLog

open OnTape Step

namespace Decoder

/-! ## 1. Records and the dictionaries behind them -/

/-- A record, and the dictionary once it is read. -/
structure Applied where
  entry : Entry
  dictionary : Dictionary

/-- The record found `n` bytes further on, with the same dictionary. -/
def Applied.shift (n : Nat) (a : Applied) : Applied :=
  { a with entry := a.entry.shift n }

@[simp] theorem Applied.shift_zero (a : Applied) : a.shift 0 = a := rfl

section AnyFeed

variable {σ τ : Type} [Feed σ] [Feed τ] {c : Coupling σ τ} {d d' : Decoder σ} {e : Decoder τ}
  {a : Applied} {fault : Fault}

/-- The next record, and the dictionary behind it. -/
def nextApplied : EStateM Fault (Decoder σ) (Option Applied) := do
  match ← nextRecord .decoded with
  | some entry => return some ⟨entry, (← get).dictionary⟩
  | none => return none

/-- A record and the dictionary that is there once it has been read.  Later dictionaries would show
less, as an epoch may be over by then. -/
theorem nextApplied_eq_some :
    nextApplied d = .ok (some a) d' ↔
      nextRecord .decoded d = .ok (some a.entry) d' ∧ a.dictionary = d'.dictionary := by
  rw [nextApplied, bind_eq_ok]
  constructor
  · rintro ⟨entry, t, hentry, h⟩
    cases entry with
    | none => cases h
    | some entry =>
      cases h
      exact ⟨hentry, rfl⟩
  · rintro ⟨hentry, hdict⟩
    refine ⟨some a.entry, d', hentry, ?_⟩
    show EStateM.Result.ok (some (Applied.mk a.entry d'.dictionary)) d' = _
    rw [← hdict]

/-- There are no more where there are no more records. -/
theorem nextApplied_eq_none :
    nextApplied d = .ok none d' ↔ nextRecord .decoded d = .ok none d' := by
  rw [nextApplied, bind_eq_ok]
  constructor
  · rintro ⟨entry, t, hentry, h⟩
    cases entry with
    | none =>
      cases h
      exact hentry
    | some entry => cases h
  · intro h
    exact ⟨none, d', h, rfl⟩

theorem nextApplied_of_error (h : nextRecord .decoded d = .error fault d') :
    nextApplied d = .error fault d' :=
  bind_of_error h _

/-- There is no other fault than those of records. -/
theorem error_of_nextApplied (h : nextApplied d = .error fault d') :
    nextRecord .decoded d = .error fault d' := by
  cases hnext : nextRecord .decoded d with
  | error other t =>
    rw [nextApplied_of_error hnext] at h
    cases h
    rfl
  | ok entry t =>
    rw [nextApplied, bind_of_ok hnext] at h
    cases entry <;> cases h

/-- Decoders side by side agree on the next record and the dictionary behind it. -/
theorem agree_nextApplied (h : Beside c Eq d e) :
    AgreeNext (c.decoders Eq) 1 (Applied.shift c.shift) d e (nextApplied d) (nextApplied e) := by
  refine AgreeNext.bindNext id id (agree_nextRecord .decoded h) (fun entry d' e' hde => ?_)
    (fun _ => rfl) (fun _ => rfl) (fun _ _ hde => hde)
  simp only [get_bind_apply, ← hde.beside.dictionary]
  exact .item (a := Applied.mk entry d'.dictionary) (.refl hde.beside)

end AnyFeed

/-- The records of a decoder, with the dictionaries behind them, up to the end or the first
failure. -/
def appliedFrom (d : Decoder Tape) : Run (Decoder Tape) Applied :=
  Run.ask nextApplied d.bound d

/-- The records of some bytes, with the dictionaries behind them. -/
def applied (bytes : List UInt8) (limits : Limits) : Run (Decoder Tape) Applied :=
  appliedFrom (ofFeed (Tape.ofBytes bytes) limits)

variable {limits : Limits} {d d' e final : Decoder Tape} {items : List Applied} {fault : Fault}
  {p q rest : List UInt8} {n k : Nat} {entry : Entry}

/-- Each takes a byte or more. -/
theorem nextApplied_shortens :
    Run.Shrinks nextApplied (fun d : Decoder Tape => d.lookahead = none)
      (fun d => Feed.unread d.tokens.feed) := by
  intro d a d' hd h
  exact nextRecord_shortens .decoded d a.entry d' hd (nextApplied_eq_some.mp h).1

theorem appliedFrom_of_ends (hd : d.lookahead = none) (h : Run.Ends nextApplied d items final) :
    appliedFrom d = ⟨items, none, final⟩ :=
  h.ask_eq nextApplied_shortens hd (Nat.lt_succ_self _)

theorem appliedFrom_of_fails (hd : d.lookahead = none)
    (h : Run.Fails nextApplied d items fault final) :
    appliedFrom d = ⟨items, some fault, final⟩ :=
  h.ask_eq nextApplied_shortens hd (Nat.lt_succ_self _)

theorem ends_or_fails_applied (hd : d.lookahead = none) :
    (∃ items final, Run.Ends nextApplied d items final) ∨
      ∃ items fault final, Run.Fails nextApplied d items fault final :=
  Run.ends_or_fails nextApplied_shortens _ d (Nat.lt_succ_self _) hd

theorem yields_entries (h : Run.Yields nextApplied d items d') :
    Run.Yields (nextRecord .decoded) d (items.map Applied.entry) d' := by
  induction h with
  | nil => exact .nil
  | cons head _ ih => exact .cons (nextApplied_eq_some.mp head).1 ih

theorem ends_entries (h : Run.Ends nextApplied d items final) :
    Run.Ends (nextRecord .decoded) d (items.map Applied.entry) final := by
  obtain ⟨t, hyields, hend⟩ := h
  exact ⟨t, yields_entries hyields, nextApplied_eq_none.mp hend⟩

theorem fails_entries (h : Run.Fails nextApplied d items fault final) :
    Run.Fails (nextRecord .decoded) d (items.map Applied.entry) fault final := by
  obtain ⟨t, hyields, hfail⟩ := h
  exact ⟨t, yields_entries hyields, error_of_nextApplied hfail⟩

/-- The values of some bytes are those of their records, if there is no failure. -/
theorem decodeValues_eq_ok {bytes : List UInt8} {us : List Json} :
    decodeValues bytes limits = .ok us ↔ (applied bytes limits).failure = none ∧
      us = Entry.values ((applied bytes limits).items.map Applied.entry) := by
  have hd := between_ofFeed (Tape.ofBytes bytes) limits
  rcases ends_or_fails_applied hd.lookahead with ⟨items, final, h⟩ | ⟨items, fault, final, h⟩
  · rw [applied, appliedFrom_of_ends hd.lookahead h, decodeValues_of_ends (ends_entries h),
      Except.ok.injEq, and_iff_right rfl]
    exact eq_comm
  · rw [applied, appliedFrom_of_fails hd.lookahead h, decodeValues,
      values_of_fails (fails_entries h) hd rfl]
    simp [Run.toExcept]

/-! ## 2. In front of a `clear` record -/

/-- A decoder that has begun, stands between records at an offset, and has these bytes to come. -/
structure InFront (limits : Limits) (q : List UInt8) (n : Nat) (d : Decoder Tape) : Prop where
  lookahead : d.lookahead = none
  started : d.started = true
  limits : d.limits = limits
  rest : (tape d).rest = q
  offset : (tape d).offset = n
  ending : (tape d).ending = .clean

/-- What is read does not touch the rest of the decoder, so behind some of the bytes it stands in
front of the others. -/
theorem InFront.reads (h : InFront limits (p ++ q) n d) {d' : Decoder Tape} (hr : Reads d p d') :
    InFront limits q (n + p.length) d' where
  lookahead := by
    rw [hr.frame]
    exact h.lookahead
  started := by
    rw [hr.frame]
    exact h.started
  limits := by
    rw [hr.frame]
    exact h.limits
  rest := List.append_cancel_left (hr.rest.symm.trans h.rest)
  offset := by rw [hr.offset, h.offset]
  ending := hr.ending.trans h.ending

/-- The tag of a `clear` record leaves its mark, whatever the mark before it was. -/
theorem advance_clear (h : InFront limits (Tag.clear.byte :: rest) n d) :
    ∃ d', advance d = .ok (some ⟨n, .clear⟩) d' ∧ InFront limits rest (n + 1) d' ∧
      d'.tokens.lastDictionary = n := by
  have h' : InFront limits ([Tag.clear.byte] ++ rest) n d := h
  obtain ⟨t, ht, -⟩ := Reads.exists_of_rest h'.rest
  obtain ⟨hlook, hstarted, hlimits, hrest, hoffset, hending⟩ := h'.reads ht
  have hn : d.tokens.offset = n := h.offset
  rw [← hn]
  exact ⟨t.marked d.tokens.offset .clear,
    (advance_eq_some h.lookahead).mpr ⟨rfl, [], t, rfl, ht, rfl⟩,
    ⟨hlook, hstarted, hlimits, hrest, hn ▸ hoffset, hending⟩, rfl⟩

/-- Decoders that have the same bytes to come and measure backlinks from corresponding places stand
side by side, their dictionaries apart. -/
theorem beside_of_inFront (hd : InFront limits q n d) (he : InFront limits q (n + k) e)
    (hlast : e.tokens.lastDictionary = d.tokens.lastDictionary + k) :
    Beside (.lawful Tape Tape .nothing k) (fun _ _ => True) d e where
  tokens := by
    refine ⟨⟨he.offset.trans (hd.offset ▸ rfl), [], ?_, rfl, ?_⟩, ?_, hlast⟩
    · rw [List.append_nil]
      exact he.rest.trans hd.rest.symm
    · exact he.ending.trans hd.ending.symm
    · exact he.limits.trans hd.limits.symm
  lookahead := hd.lookahead
  lookahead' := he.lookahead
  dictionary := trivial
  started := he.started.trans hd.started.symm

/-- Behind a `clear` record, the dictionary is empty, whatever was in it.  This is what makes the
rest of a stream independent of what comes before. -/
theorem dictionary_of_clear {payloads : Payloads}
    (h : recordAt payloads ⟨n, .clear⟩ d = .ok entry d') : d'.dictionary = .empty := by
  obtain ⟨_, t, -, h⟩ := bind_eq_ok.mp h
  obtain ⟨found, u, hopened, h⟩ := bind_eq_ok.mp h
  obtain ⟨_, v, hmark, h⟩ := bind_eq_ok.mp h
  cases hmark
  cases h
  obtain ⟨record, w, hclear, h⟩ := bind_eq_ok.mp hopened
  cases h
  obtain ⟨_, x, -, hclear⟩ := bind_eq_ok.mp hclear
  cases hclear
  rfl

/-- Decoders that differ in their past make the same of a `clear` record.  Its tag brings their marks
in line, and what follows the tag looks up no string. -/
theorem agree_clear (hd : InFront limits (Tag.clear.byte :: rest) n d)
    (he : InFront limits (Tag.clear.byte :: rest) (n + k) e) :
    ∃ t u, AgreeNext ((Coupling.lawful Tape Tape .nothing k).decoders fun _ _ => True) 0
      (Entry.shift k) t u (nextRecord .decoded d) (nextRecord .decoded e) := by
  obtain ⟨t, ht, htq, htlast⟩ := advance_clear hd
  obtain ⟨u, hu, huq, hulast⟩ := advance_clear he
  have hbeside : Beside (.lawful Tape Tape .nothing k) (fun _ _ => True) t u := by
    refine beside_of_inFront htq ?_ ?_
    · rw [Nat.add_right_comm]
      exact huq
    · rw [htlast, hulast]
  rw [nextRecord_eq, bind_of_ok ht, bind_of_ok hu]
  exact ⟨t, u, (agree_recordAt hbeside
    (parallel_openedClear trivial .decoded n)).next⟩

/-- The tag of a `clear` record is there, so its record is returned or fails. -/
theorem nextRecord_clear (hd : InFront limits (Tag.clear.byte :: rest) n d) :
    ∃ t, nextRecord .decoded d =
      (recordAt .decoded ⟨n, .clear⟩ >>= fun entry => pure (some entry)) t := by
  obtain ⟨t, ht, -⟩ := advance_clear hd
  exact ⟨t, by rw [nextRecord_eq, bind_of_ok ht]⟩

/-- A `clear` record that is returned leaves an empty dictionary. -/
theorem empty_of_clear (hd : InFront limits (Tag.clear.byte :: rest) n d)
    (h : nextRecord .decoded d = .ok (some entry) d') : d'.dictionary = .empty := by
  obtain ⟨t, ht⟩ := nextRecord_clear hd
  rw [ht] at h
  obtain ⟨found, u, hrecord, h⟩ := bind_eq_ok.mp h
  cases h
  exact dictionary_of_clear hrecord

/-- With a tag in front of it, a decoder does not come to the end. -/
theorem nextRecord_clear_ne_none (hd : InFront limits (Tag.clear.byte :: rest) n d) :
    nextRecord .decoded d ≠ .ok none d' := by
  intro h
  obtain ⟨t, ht⟩ := nextRecord_clear hd
  rw [ht] at h
  obtain ⟨found, u, -, h⟩ := bind_eq_ok.mp h
  cases h

section Epoch

variable {a : Applied} (hd : InFront limits (Tag.clear.byte :: rest) n d)
  (he : InFront limits (Tag.clear.byte :: rest) (n + k) e)

include hd he

/-- Behind the `clear` record, the decoders stand side by side, and now their dictionaries are the
same, since both are empty. -/
theorem nextApplied_of_clear (h : nextApplied d = .ok (some a) d') :
    ∃ e', nextApplied e = .ok (some (a.shift k)) e' ∧
      Beside (.lawful Tape Tape .nothing k) Eq d' e' := by
  obtain ⟨hnext, hdict⟩ := nextApplied_eq_some.mp h
  obtain ⟨t, u, hagree⟩ := agree_clear hd he
  rw [hnext] at hagree
  obtain ⟨e', he', hbehind⟩ := hagree.of_item
  have hd' : d'.dictionary = .empty := empty_of_clear hd hnext
  have hempty : e'.dictionary = .empty := empty_of_clear he he'
  refine ⟨e', nextApplied_eq_some.mpr ⟨he', ?_⟩, ?_⟩
  · rw [hempty, ← hd']
    exact hdict
  · have hst := hbehind.beside
    exact ⟨hst.tokens, hst.lookahead, hst.lookahead', hd'.trans hempty.symm, hst.started⟩

/-- If the record fails, it fails in both decoders in the same way. -/
theorem nextApplied_of_clear_error (h : nextApplied d = .error fault d') :
    ∃ e', nextApplied e = .error (fault.shift k) e' := by
  obtain ⟨t, u, hagree⟩ := agree_clear hd he
  rw [error_of_nextApplied h] at hagree
  rcases hagree.of_error with ⟨-, e', he'⟩ | ⟨-, hno⟩
  · exact ⟨e', nextApplied_of_error he'⟩
  · exact hno.elim

/-- From a `clear` record on, two decoders come to the same end.  Behind the record, all is said by
the agreement of decoders that stand side by side. -/
theorem ends_shift (h : Run.Ends nextApplied d items final) :
    ∃ final', Run.Ends nextApplied e (items.map (Applied.shift k)) final' := by
  obtain ⟨t, hyields, hend⟩ := h
  cases hyields with
  | nil => exact absurd (nextApplied_eq_none.mp hend) (nextRecord_clear_ne_none hd)
  | @cons _ d' _ a items head tail =>
    obtain ⟨e', he', hbeside⟩ := nextApplied_of_clear hd he head
    have htail : Run.Ends nextApplied d' items final := ⟨t, tail, hend⟩
    rcases htail.agree (fun _ _ hst => agree_nextApplied hst) hbeside with
      ⟨-, final', hends⟩ | ⟨_, -, hno⟩
    · exact ⟨final', hends.cons he'⟩
    · exact hno.elim

/-- From a `clear` record on, two decoders come to the same fault, with every offset in it shifted.
The `clear` record is read on its own; behind it the decoders stand side by side. -/
theorem fails_shift (h : Run.Fails nextApplied d items fault final) :
    ∃ final', Run.Fails nextApplied e (items.map (Applied.shift k)) (fault.shift k) final' := by
  obtain ⟨t, hyields, hfail⟩ := h
  cases hyields with
  | nil =>
    obtain ⟨final', hfinal⟩ := nextApplied_of_clear_error hd he hfail
    exact ⟨final', e, .nil, hfinal⟩
  | @cons _ d' _ a items head tail =>
    obtain ⟨e', he', hbeside⟩ := nextApplied_of_clear hd he head
    have htail : Run.Fails nextApplied d' items fault final := ⟨t, tail, hfail⟩
    rcases htail.agree (fun _ _ hst => agree_nextApplied hst) hbeside with
      ⟨-, final', hfails⟩ | ⟨-, _, -, hno⟩
    · exact ⟨final', hfails.cons he'⟩
    · exact hno.elim

end Epoch

/-! ## 3. Behind a stream -/

/-- A decoder of nothing but `q`, as if it had begun. -/
def resumed (q : List UInt8) (limits : Limits) : Decoder Tape :=
  { ofFeed (Tape.ofBytes q) limits with started := true }

theorem inFront_resumed (q : List UInt8) (limits : Limits) :
    InFront limits q 0 (resumed q limits) :=
  ⟨rfl, rfl, rfl, rfl, rfl, rfl⟩

/-- Records that take as many bytes as a stream has in front of `q` leave `q` to come.  Some record
has been read, so the stream has been started. -/
theorem inFront_of_yields {entries : List Entry}
    (h : Run.Yields (nextRecord .decoded) (ofFeed (Tape.ofBytes (p ++ q)) limits) entries e)
    (hp : p ≠ []) (hoffset : (tape e).offset = p.length) : InFront limits q p.length e := by
  obtain ⟨-, bs, hrecords, hadv⟩ := yields_sound h (between_ofFeed _ limits)
  have hlen : (tape e).offset = 0 + bs.length := hrecords.offset_eq
  have hrest : p ++ q = bs ++ (tape e).rest := hadv.rest
  obtain ⟨rfl, rfl⟩ := List.append_inj hrest (by omega)
  have hentries : entries ≠ [] := by
    rintro rfl
    generalize e.scope = behind at hrecords
    cases hrecords
    exact hp rfl
  refine ⟨hadv.between.lookahead, ?_, hadv.limits, rfl, hoffset, hadv.ending⟩
  rw [hadv.started]
  simp [hentries]

/-- Behind a stream, a decoder that has `q` in front of it has returned the records of the stream
and stands in front of `q`. -/
theorem yields_applied (q : List UInt8) (hp : p ≠ []) (h : (applied p limits).failure = none) :
    ∃ e, Run.Yields nextApplied (ofFeed (Tape.ofBytes (p ++ q)) limits) (applied p limits).items e ∧
      InFront limits q p.length e := by
  obtain ⟨t, hyields, hend⟩ := Run.ends_of_ask nextApplied_shortens rfl (Nat.lt_succ_self _) h
  have hbeside : Beside (.lawful Tape Tape .anything 0) Eq (ofFeed (Tape.ofBytes p) limits)
      (ofFeed (Tape.ofBytes (p ++ q)) limits) :=
    ⟨⟨⟨rfl, q, rfl, rfl⟩, rfl, rfl⟩, rfl, rfl, rfl, rfl⟩
  obtain ⟨e, he, hte⟩ := hyields.agree (fun _ _ hst => agree_nextApplied hst) hbeside
  have hshift : Applied.shift (Coupling.lawful Tape Tape .anything 0).shift = id :=
    funext Applied.shift_zero
  rw [hshift, List.map_id] at he
  refine ⟨e, he, inFront_of_yields (yields_entries he) hp ?_⟩
  -- the decoder of `p` alone has read all of it
  obtain ⟨-, bs, hrecords, hadv⟩ := yields_sound (yields_entries hyields) (between_ofFeed _ limits)
  obtain ⟨hrest, -, -⟩ :=
    (nextRecord_eq_none hadv.between.lookahead).mp (nextApplied_eq_none.mp hend)
  have hbytes : p = bs ++ (tape t).rest := hadv.rest
  rw [hrest, List.append_nil] at hbytes
  have hoffset : (tape t).offset = 0 + bs.length := hrecords.offset_eq
  have hoffset' : (tape e).offset = (tape t).offset + 0 := hte.tokens.feed.offset
  rw [hoffset', hoffset, hbytes]
  omega

/-- A stream and what begins with a `clear` record behind it.  Its records are those of the stream,
and then those of the rest as they would be found by a decoder of their own. -/
theorem applied_append (hq : q.head? = some Tag.clear.byte) (hp : p ≠ [])
    (h : (applied p limits).failure = none) :
    (applied (p ++ q) limits).items = (applied p limits).items ++
        (appliedFrom (resumed q limits)).items.map (Applied.shift p.length) ∧
      (applied (p ++ q) limits).failure =
        (appliedFrom (resumed q limits)).failure.map (Fault.shift p.length) := by
  obtain ⟨rest, rfl⟩ := List.head?_eq_some_iff.mp hq
  obtain ⟨e, he, hfront⟩ := yields_applied (Tag.clear.byte :: rest) hp h
  rw [← Nat.zero_add p.length] at hfront
  have hresumed := inFront_resumed (Tag.clear.byte :: rest) limits
  -- What the resumed decoder comes to is what the decoder behind the stream comes to.
  rcases ends_or_fails_applied hresumed.lookahead with
    ⟨items, final, hrun⟩ | ⟨items, fault, final, hrun⟩
  · obtain ⟨final', hrun'⟩ := ends_shift hresumed hfront hrun
    rw [appliedFrom_of_ends rfl hrun, applied, appliedFrom_of_ends rfl (he.ends hrun')]
    exact ⟨rfl, rfl⟩
  · obtain ⟨final', hrun'⟩ := fails_shift hresumed hfront hrun
    rw [appliedFrom_of_fails rfl hrun, applied, appliedFrom_of_fails rfl (he.fails hrun')]
    exact ⟨rfl, rfl⟩

/-- Values do not know where they were found. -/
theorem values_shift (items : List Applied) (n : Nat) :
    Entry.values ((items.map (Applied.shift n)).map Applied.entry) =
      Entry.values (items.map Applied.entry) := by
  rw [Entry.values, List.map_map, List.filterMap_map, Entry.values, List.filterMap_map]
  rfl

/-! ## 4. Values behind a stream -/

variable {us ws : List Json} {bs : List UInt8}

/-- The values behind a stream are the same, whatever the stream was: those of a decoder that begins
there. -/
theorem decodeValues_append (hq : q.head? = some Tag.clear.byte) (hp : p ≠ [])
    (h : decodeValues p limits = .ok us) :
    decodeValues (p ++ q) limits = .ok ws ↔
      (appliedFrom (resumed q limits)).failure = none ∧
        ws = us ++ Entry.values ((appliedFrom (resumed q limits)).items.map Applied.entry) := by
  obtain ⟨hclean, rfl⟩ := decodeValues_eq_ok.mp h
  obtain ⟨hitems, hfailure⟩ := applied_append hq hp hclean
  rw [decodeValues_eq_ok, hitems, hfailure, Option.map_eq_none_iff, List.map_append,
    Entry.values_append, values_shift]

/-- A record without a value can stand behind any stream, and changes nothing of what is decoded. -/
theorem decodeValues_snoc (hp : p ≠ []) (h : decodeValues p limits = .ok us)
    (hrecord : ∀ s : Grammar.Scope, ∃ entry after,
      Grammar.Record limits s bs entry after ∧ entry.value? = none) :
    decodeValues (p ++ bs) limits = .ok us := by
  obtain ⟨entries, final, hends, rfl⟩ := ends_of_decodeValues h
  obtain ⟨s, hrecords, hheaded⟩ := stream_of_ends hends
  obtain ⟨entry, after, hlast, hnone⟩ := hrecord s
  have hheaded' : Grammar.Headed (entries ++ [entry]) := by
    cases hrecords with
    | nil => exact absurd rfl hp
    | cons _ _ => exact hheaded
  rw [decodeValues_of_stream ⟨hrecords.append (.single hlast), hheaded'⟩, Entry.values_append]
  simp [Entry.values, hnone]

/-- A header may stand anywhere between records; it changes nothing. -/
theorem record_header (limits : Limits) (s : Grammar.Scope) : ∃ entry after,
    Grammar.Record limits s (Wire.header Format.version) entry after ∧
      entry.record.kind = .header ∧ entry.value? = none :=
  ⟨_, _, .header (Varint.spells_encode (by decide)), rfl, rfl⟩

/-- A header alone is a stream without values. -/
theorem decodeValues_header (limits : Limits) :
    decodeValues (Wire.header Format.version) limits = .ok [] := by
  obtain ⟨entry, after, hrecord, hkind, hnone⟩ := record_header limits .start
  rw [decodeValues_of_stream ⟨.single hrecord, Grammar.headed_cons.mpr hkind⟩]
  simp [Entry.values, hnone]

/-- What is written is a header and then an epoch. -/
theorem encodeValues_eq {more : List Json} {options : EncodeOptions}
    (h : encodeValues more options = .ok bs) :
    ∃ q, bs = Wire.header Format.version ++ q ∧ q.head? = some Tag.clear.byte := by
  have hstart : (Encoder.new options).start.outcome = .ok () := rfl
  rw [encodeValues, Emission.andThen_of_ok hstart] at h
  dsimp only at h
  split at h
  · cases h
    exact ⟨Wire.clear ++ _, List.append_assoc (Wire.header Format.version) Wire.clear _, rfl⟩
  · cases h

/-! ## 5. Epochs -/

/-- **Epochs are local.**  Take any bytes `q` that begin with the tag of a `clear` record.  Behind
every stream they give the same records and dictionaries and come to the same end or the same fault,
found so many bytes further on as the stream has.  Hence

* the values of `q` are the same behind one stream and behind another;
* what was encoded can stand behind any stream, and its values are added to those of the stream;
* to put one `clear` record more in front of `q` changes no values. -/
theorem epochs_local (limits : Limits) :
    (∀ q : List UInt8, q.head? = some Tag.clear.byte →
      ∃ (items : List Applied) (failure : Option Fault),
        ∀ p, p ≠ [] → (applied p limits).failure = none →
          (applied (p ++ q) limits).items =
              (applied p limits).items ++ items.map (Applied.shift p.length) ∧
            (applied (p ++ q) limits).failure = failure.map (Fault.shift p.length)) ∧
      (∀ q p₁ p₂ us₁ us₂ ws, q.head? = some Tag.clear.byte → p₁ ≠ [] → p₂ ≠ [] →
        decodeValues p₁ limits = .ok us₁ → decodeValues p₂ limits = .ok us₂ →
        decodeValues (p₁ ++ q) limits = .ok ws →
        ∃ vs, ws = us₁ ++ vs ∧ decodeValues (p₂ ++ q) limits = .ok (us₂ ++ vs)) ∧
      (∀ p us values options s vs, p ≠ [] → decodeValues p limits = .ok us →
        encodeValues values options = .ok s → decodeValues s limits = .ok vs →
        decodeValues (p ++ s) limits = .ok (us ++ vs)) ∧
      (∀ q p us ws, q.head? = some Tag.clear.byte → p ≠ [] → decodeValues p limits = .ok us →
        (decodeValues (p ++ Wire.clear ++ q) limits = .ok ws ↔
          decodeValues (p ++ q) limits = .ok ws)) := by
  refine ⟨fun q hq => ?_, fun q p₁ p₂ us₁ us₂ ws hq hp₁ hp₂ h₁ h₂ h => ?_,
    fun p us values options s vs hp h hs hvs => ?_, fun q p us ws hq hp h => ?_⟩
  · exact ⟨_, _, fun p hp h => applied_append hq hp h⟩
  · obtain ⟨hclean, rfl⟩ := (decodeValues_append hq hp₁ h₁).mp h
    exact ⟨_, rfl, (decodeValues_append hq hp₂ h₂).mpr ⟨hclean, rfl⟩⟩
  · obtain ⟨q, rfl, hq⟩ := encodeValues_eq hs
    obtain ⟨hclean, rfl⟩ :=
      (decodeValues_append hq (List.cons_ne_nil _ _) (decodeValues_header limits)).mp hvs
    have hheader : decodeValues (p ++ Wire.header Format.version) limits = .ok us :=
      decodeValues_snoc hp h fun s => by
        obtain ⟨entry, after, hrecord, -, hnone⟩ := record_header limits s
        exact ⟨entry, after, hrecord, hnone⟩
    rw [← List.append_assoc]
    exact (decodeValues_append hq (by simp [hp]) hheader).mpr ⟨hclean, rfl⟩
  · have hclear : decodeValues (p ++ Wire.clear) limits = .ok us :=
      decodeValues_snoc hp h fun s => ⟨_, _, .clear, rfl⟩
    rw [decodeValues_append hq (by simp [hp]) hclear, decodeValues_append hq hp h]

/-- A header, and an epoch with a null in it. -/
theorem epochs_local_null :
    let header := Wire.header Format.version
    let q := [0x43, 0x45, 0x0A, 0x56, 0x03, 0x01, 0x4E, 0x45, 0x0A]
    ∃ ws, decodeValues (header ++ q) {} = .ok ws ∧
      decodeValues (header ++ Wire.clear ++ q) {} = .ok ws := by
  intro header q
  have hread : (applied (header ++ q) {}).failure = none := by decide +kernel
  have hq := decodeValues_eq_ok.mpr ⟨hread, rfl⟩
  obtain ⟨-, -, -, hrepeat⟩ := epochs_local {}
  exact ⟨_, hq, (hrepeat q header [] _ rfl (List.cons_ne_nil _ _) (decodeValues_header {})).mpr hq⟩

end Decoder

end DictLog
