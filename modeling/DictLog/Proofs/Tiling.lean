/-
# Records lie end to end

Whoever asks a decoder for one record after the other, each time with its payload or without, is
told where the records are, how far back the last change of the dictionary was, and what the
dictionary is.  That is what the bytes say (`records_tile`): the records are these bytes from the
first on, cut up without a gap, each from its tag to its terminator.

A record of which the payload is left out need not have a meaning.  So such a record is described by
an **outline**, which says of its payload only how long it is, and a step of the decoder is told for
outlines (`nextRecord_outline`).  What is said of a record refers to those in front of it
(`Tile.Fits`); the invariant that carries this along a run is that the decoder stands behind them
(`Behind`).
-/
import DictLog.Proofs.Acceptance
import DictLog.Proofs.Skipping
import DictLog.Wire

namespace DictLog

open OnTape Step

/-! ## 1. Outlines of records -/

namespace Grammar

/-- A record in a scope, of which the payload may have been left out. -/
inductive Outline (limits : Limits) (s : Scope) : List UInt8 → Entry → List String → Prop
  | full {bs : List UInt8} {entry : Entry} {after : List String}
      (h : Record limits s bs entry after) : Outline limits s bs entry after
  | skipped {digits lengthDigits payload : List UInt8} {backlink : Nat}
      (spells : Varint.Spells digits backlink) (linked : s.lastDictionary + backlink = s.offset)
      (length : Varint.Spells lengthDigits payload.length)
      (limit : payload.length ≤ limits.maxPayloadLength) :
      Outline limits s
        (Tag.value.byte :: (digits ++ lengthDigits ++ (payload ++ Format.terminator)))
        ⟨s.offset, some backlink, .value payload.length none⟩ s.dictionary

/-- The bytes are an `add` record that announces these strings. -/
def Announces (limits : Limits) (bs : List UInt8) (strings : List String) : Prop :=
  ∃ digits backlink literals, Varint.Spells digits backlink ∧
    Sequence (StringLiteral limits) literals strings ∧
    bs = Tag.add.byte :: (digits ++ (literals ++ Format.terminator))

variable {limits : Limits} {s : Scope} {bs : List UInt8} {entry : Entry} {after : List String}

/-- A record is reported where it stands. -/
theorem Outline.offset_eq (h : Outline limits s bs entry after) : entry.offset = s.offset := by
  cases h with
  | full h => exact h.offset_eq
  | skipped => rfl

theorem Outline.length_le (h : Outline limits s bs entry after)
    (hs : s.dictionary.length ≤ limits.maxDictionaryEntries) :
    after.length ≤ limits.maxDictionaryEntries := by
  cases h with
  | full h => exact h.length_le hs
  | skipped => exact hs

/-- A record goes from its tag to its terminator. -/
theorem Outline.extent (h : Outline limits s bs entry after) :
    ∃ tag body, Tag.recordKind? tag = some entry.record.kind ∧
      bs = tag.byte :: (body ++ Format.terminator) := by
  cases h with
  | full h =>
    cases h with
    | header => exact ⟨.header, _, rfl, congrArg _ (List.cons_append ..).symm⟩
    | clear => exact ⟨.clear, [], rfl, rfl⟩
    | add => exact ⟨.add, _, rfl, congrArg _ (List.append_assoc ..).symm⟩
    | value => exact ⟨.value, _, rfl, congrArg _ (List.append_assoc ..).symm⟩
  | skipped => exact ⟨.value, _, rfl, congrArg _ (List.append_assoc ..).symm⟩

/-- Records that refer to the dictionary say how far back its last change was, and the others have
no backlink.  A payload that is left out makes no difference to it. -/
theorem Outline.backlink (h : Outline limits s bs entry after) :
    if entry.record.kind = .add ∨ entry.record.kind = .value then
      ∃ distance, entry.backlink = some distance ∧ s.lastDictionary + distance = entry.offset
    else entry.backlink = none := by
  cases h with
  | full h =>
    cases h with
    | header => rfl
    | clear => rfl
    | add _ linked => exact ⟨_, rfl, linked⟩
    | value _ linked => exact ⟨_, rfl, linked⟩
  | skipped _ linked => exact ⟨_, rfl, linked⟩

/-- What a record makes of the dictionary. -/
theorem Outline.dictionary (h : Outline limits s bs entry after) :
    ∃ strings, (if entry.record.kind = .add then Announces limits bs strings else strings = []) ∧
      after = if entry.record.kind = .clear then [] else s.dictionary ++ strings := by
  cases h with
  | full h =>
    cases h with
    | header => exact ⟨[], rfl, (List.append_nil _).symm⟩
    | clear => exact ⟨[], rfl, rfl⟩
    | add spells _ literals => exact ⟨_, ⟨_, _, _, spells, literals, rfl⟩, rfl⟩
    | value => exact ⟨[], rfl, (List.append_nil _).symm⟩
  | skipped => exact ⟨[], rfl, (List.append_nil _).symm⟩

/-- What a record makes of a scope, told by its kind. -/
theorem Scope.after_eq (s : Scope) (bs : List UInt8) (entry : Entry) (after : List String) :
    s.after bs entry after = ⟨s.offset + bs.length,
      if entry.record.kind = .clear ∨ entry.record.kind = .add then s.offset else s.lastDictionary,
      after⟩ := by
  obtain ⟨offset, backlink, record⟩ := entry
  cases record <;> rfl

end Grammar

namespace Decoder

variable {limits : Limits} {bytes bs : List UInt8} {d d' t : Decoder Tape} {payloads : Payloads}
  {entry : Entry} {record : Record} {offset length : Nat} {after : List String}

/-! ## 2. One record -/

/-- The rest of a `value` record whose payload is left out: as many bytes as are declared, whatever
they are, and a terminator. -/
theorem valueRecord_skipped_eq_ok (hd : d.lookahead = none)
    (h : valueRecord .skipped offset length d = .ok record d') :
    ∃ payload t, payload.length = length ∧ Reads d (payload ++ Format.terminator) t ∧
      record = .value length none ∧ d' = { t with stats := t.stats.count record } := by
  obtain ⟨v, t, hskipped, h⟩ := bind_eq_ok.mp h
  obtain ⟨u, w, hskip, hv⟩ := bind_eq_ok.mp hskipped
  cases hv
  obtain ⟨payload, hlength, hpayload⟩ := ((takes_skip length d).ok_iff u t).mp hskip
  obtain ⟨_, w, hend, h⟩ := bind_eq_ok.mp h
  obtain ⟨_, rfl, hterminator⟩ :=
    ((takes_expectTerminator ((ready_self hd).reads hpayload)).ok_iff _ w).mp hend
  cases h
  exact ⟨payload, w, hlength, hpayload.trans hterminator, rfl, rfl⟩

/-- Unless it is a `value` record, leaving out payloads makes no difference to a record. -/
theorem recordAt_skipped {p : Placed} (h : p.token.tag ≠ .value) (d : Decoder Tape) :
    recordAt .skipped p d = recordAt .decoded p d := by
  obtain ⟨offset, token⟩ := p
  cases token with
  | value => exact absurd rfl h
  | _ => rfl

/-- Between records, a decoder returns a record whose outline is in front of it, and moves behind
it. -/
theorem nextRecord_outline (hd : Between d) (h : nextRecord payloads d = .ok (some entry) d') :
    ∃ bs after t, Grammar.Outline d.limits d.scope bs entry after ∧ Reads d bs t ∧
      d' = t.completed entry after := by
  have hdecoded : nextRecord .decoded d = .ok (some entry) d' →
      ∃ bs after t, Grammar.Outline d.limits d.scope bs entry after ∧ Reads d bs t ∧
        d' = t.completed entry after := fun h => by
    obtain ⟨-, bs, after, t, hrecord, hr, ht⟩ := (nextRecord_eq_some hd.lookahead hd.size).mp h
    exact ⟨bs, after, t, .full hrecord, hr, ht⟩
  cases payloads with
  | decoded => exact hdecoded h
  | skipped =>
    rw [nextRecord_eq, bind_eq_ok] at h
    obtain ⟨p, t, hp, h⟩ := h
    cases p with
    | none => cases h
    | some p =>
      -- Only a `value` record is read in another way, and then up to the end of its head.
      by_cases htag : p.token.tag = .value
      · obtain ⟨found, u, hfound, h⟩ := bind_eq_ok.mp h
        cases h
        obtain ⟨_, v, hcheck, hrest⟩ := bind_eq_ok.mp hfound
        obtain ⟨found, w, hopened, hmark⟩ := bind_eq_ok.mp hrest
        cases hmark
        obtain ⟨hmay, rfl⟩ := checkStarted_eq_ok.mp hcheck
        have hlook := lookahead_of_advance hd.lookahead hp
        obtain ⟨hoffset, _, t, hbody, hhead, rfl⟩ := (advance_eq_some hd.lookahead).mp hp
        obtain ⟨offset, token⟩ := p
        obtain rfl : offset = d.tokens.offset := hoffset
        obtain ⟨backlink, length, rfl⟩ := Token.openedBy_of_tag htag
        obtain ⟨digits, lengthDigits, ⟨spells, linked⟩, ⟨hlength, limit⟩, rfl⟩ := hbody
        obtain ⟨record, x, hrecord, hentry⟩ := bind_eq_ok.mp hopened
        cases hentry
        obtain ⟨payload, y, rfl, hpayload, rfl, rfl⟩ := valueRecord_skipped_eq_ok hlook hrecord
        have hreads : Reads d _ y := hhead.trans hpayload
        have hdictionary : Dictionary.ofList d.scope.dictionary = y.dictionary := by
          rw [hreads.frame]
          exact Dictionary.ofList_toList _
        have hstarted : y.started = true := by
          have hsame : y.started = t.started := by
            rw [hpayload.frame]
            rfl
          rw [hsame]
          exact hmay.resolve_right nofun
        refine ⟨_, _, y, .skipped spells linked hlength limit, hreads, ?_⟩
        rw [completed, hdictionary, ← hstarted]
        rfl
      · refine hdecoded ?_
        rw [nextRecord_eq, bind_of_ok hp]
        change (recordAt .skipped p >>= fun entry => pure (some entry)) t = _ at h
        change (recordAt .decoded p >>= fun entry => pure (some entry)) t = _
        rwa [bind_congr (recordAt_skipped htag t)] at h

end Decoder

/-! ## 3. Records as tiles -/

/-- A record that was reported, the bytes that it takes, and the strings that it announces. -/
structure Tile where
  snapshot : Decoder.Snapshot
  bytes : List UInt8
  strings : List String

namespace Tile

/-- Where the record stands. -/
def offset (tile : Tile) : Nat :=
  tile.snapshot.entry.offset

/-- Its kind. -/
def kind (tile : Tile) : RecordKind :=
  tile.snapshot.entry.record.kind

/-- The bytes of all records. -/
def covered (tiles : List Tile) : List UInt8 :=
  tiles.flatMap Tile.bytes

/-- The records behind the last `clear` record, or all of them. -/
def sinceClear (tiles : List Tile) : List Tile :=
  (tiles.reverse.takeWhile (·.kind ≠ .clear)).reverse

/-- The strings announced since the last `clear` record. -/
def announced (tiles : List Tile) : List String :=
  (sinceClear tiles).flatMap Tile.strings

/-- The offset of the last record that changed the dictionary, or of the first record. -/
def lastChange (tiles : List Tile) : Nat :=
  (tiles.reverse.find? fun tile => tile.kind = .clear ∨ tile.kind = .add).elim 0 offset

/-- What is reported of a record that stands behind others. -/
structure Fits (limits : Limits) (front : List Tile) (tile : Tile) : Prop where
  /-- The record takes the bytes behind those of the others, -/
  offset : tile.offset = (covered front).length
  /-- which is how far the decoder had read, -/
  next : ∀ previous ∈ front.getLast?, tile.offset = previous.snapshot.stats.bytesRead
  /-- from its tag to its terminator, -/
  extent : ∃ tag body, Tag.recordKind? tag = some tile.kind ∧
    tile.bytes = tag.byte :: (body ++ Format.terminator)
  /-- which is how far the decoder has read now. -/
  read : tile.snapshot.stats.bytesRead = tile.offset + tile.bytes.length
  backlink :
    if tile.kind = .add ∨ tile.kind = .value then
      ∃ distance, tile.snapshot.entry.backlink = some distance ∧
        lastChange front + distance = tile.offset
    else tile.snapshot.entry.backlink = none
  strings :
    if tile.kind = .add then Grammar.Announces limits tile.bytes tile.strings else tile.strings = []
  dictionary : tile.snapshot.dictionary.toList = announced (front ++ [tile])

variable {limits : Limits} {front : List Tile} {tile : Tile}

/-- One more record takes its bytes behind the others. -/
theorem covered_snoc (front : List Tile) (tile : Tile) :
    covered (front ++ [tile]) = covered front ++ tile.bytes := by
  simp [covered]

theorem lastChange_snoc (front : List Tile) (tile : Tile) :
    lastChange (front ++ [tile]) =
      if tile.kind = .clear ∨ tile.kind = .add then tile.offset else lastChange front := by
  by_cases h : tile.kind = .clear ∨ tile.kind = .add <;>
    simp [lastChange, h]

theorem announced_snoc (front : List Tile) (tile : Tile) :
    announced (front ++ [tile]) =
      if tile.kind = .clear then [] else announced front ++ tile.strings := by
  by_cases h : tile.kind = .clear <;> simp [announced, sinceClear, h]

end Tile

namespace Decoder

variable {limits : Limits} {bytes : List UInt8} {d d' : Decoder Tape} {payloads : Payloads}
  {entry : Entry} {front tiles : List Tile} {choose : Nat → Payloads} {k k' : Nat}
  {reported : List Snapshot}

/-- A decoder of some bytes that stands behind these records. -/
structure Behind (limits : Limits) (bytes : List UInt8) (front : List Tile) (d : Decoder Tape) :
    Prop where
  between : Between d
  limits : d.limits = limits
  rest : bytes = Tile.covered front ++ (tape d).rest
  ending : (tape d).ending = .clean
  scope : d.scope = ⟨(Tile.covered front).length, Tile.lastChange front, Tile.announced front⟩
  read : ∀ previous ∈ front.getLast?, previous.snapshot.stats = d.stats
  counted : d.stats.bytesRead = (Tile.covered front).length

theorem behind_ofFeed (bytes : List UInt8) (limits : Limits) :
    Behind limits bytes [] (ofFeed (Tape.ofBytes bytes) limits) :=
  ⟨between_ofFeed _ _, rfl, rfl, rfl, rfl, nofun, rfl⟩

/-- A record that is returned fits behind the others, and the decoder stands behind it.  What it
covers is known from where the decoder stood before and stands now. -/
theorem Behind.step (h : Behind limits bytes front d)
    (hnext : nextRecord payloads d = .ok (some entry) d') :
    ∃ tile : Tile, tile.snapshot = ⟨entry, d'.dictionary, d'.stats⟩ ∧ tile.Fits limits front ∧
      Behind limits bytes (front ++ [tile]) d' := by
  obtain ⟨bs, after, t, houtline, hr, rfl⟩ := nextRecord_outline h.between hnext
  have hadvanced : Advanced d bs [entry] (t.completed entry after) :=
    advanced_completed h.between hr (houtline.length_le h.between.length_le)
  have hscope : (t.completed entry after).scope = _ := scope_completed hr houtline.offset_eq
  have hoffset := houtline.offset_eq
  have hbacklink := houtline.backlink
  obtain ⟨strings, hstrings, hafter⟩ := houtline.dictionary
  rw [h.scope] at hscope hoffset hbacklink hafter
  have hread : (t.completed entry after).stats.bytesRead =
      (Tile.covered front).length + bs.length := by
    have ht : t.tokens.offset = d.tokens.offset + bs.length := hr.offset
    have hd : d.tokens.offset = (Tile.covered front).length := congrArg Grammar.Scope.offset h.scope
    rw [← hd, ← ht]
    rfl
  let tile : Tile :=
    ⟨⟨entry, (t.completed entry after).dictionary, (t.completed entry after).stats⟩, bs, strings⟩
  have hkind : tile.kind = entry.record.kind := rfl
  have hannounced : Tile.announced (front ++ [tile]) = after := by
    rw [Tile.announced_snoc, hafter]
    rfl
  refine ⟨tile, rfl, ⟨hoffset, fun previous hprevious => ?_, houtline.extent, ?_, hbacklink, ?_,
    hannounced.symm⟩, hadvanced.between, hadvanced.limits.trans h.limits, ?_,
    hadvanced.ending.trans h.ending, ?_, ?_, ?_⟩
  · rw [h.read previous hprevious, h.counted]
    exact hoffset
  · exact hread.trans (congrArg (· + bs.length) hoffset.symm)
  · rw [← h.limits]
    exact hstrings
  · rw [Tile.covered_snoc, List.append_assoc, ← hadvanced.rest]
    exact h.rest
  · rw [hscope, Grammar.Scope.after_eq, Tile.covered_snoc, hannounced, List.length_append,
      Tile.lastChange_snoc, show tile.offset = (Tile.covered front).length from hoffset, hkind]
  · intro previous hprevious
    rw [List.getLast?_concat, Option.mem_some] at hprevious
    rw [← hprevious]
  · rw [Tile.covered_snoc, List.length_append]
    exact hread

/-- Records that are returned one after the other fit behind each other, and the decoder stands
behind them all. -/
theorem Behind.run {s s' : Nat × Decoder Tape}
    (hyields : Run.Yields (nextSnapshot choose) s reported s') :
    ∀ {front : List Tile}, Behind limits bytes front s.2 →
      ∃ tiles : List Tile, tiles.map Tile.snapshot = reported ∧
        (∀ before tile behind, tiles = before ++ tile :: behind → tile.Fits limits (front ++ before)) ∧
        Behind limits bytes (front ++ tiles) s'.2 := by
  induction hyields with
  | nil => exact fun h => ⟨[], rfl, by simp, by rwa [List.append_nil]⟩
  | @cons s t s' snapshot reported head tail ih =>
    intro front h
    obtain ⟨hnext, -, hdictionary, hstats⟩ := nextSnapshot_eq_some.mp head
    obtain ⟨tile, htile, hfits, hbehind⟩ := h.step hnext
    have hsnapshot : tile.snapshot = snapshot := by
      rw [htile, ← hdictionary, ← hstats]
    obtain ⟨tiles, hmap, hall, hrun⟩ := ih hbehind
    refine ⟨tile :: tiles, by rw [List.map_cons, hsnapshot, hmap], ?_, ?_⟩
    · -- The first record fits behind those in front, and the others fit behind it as well.
      intro before other behind hsplit
      cases before with
      | nil =>
        obtain ⟨rfl, -⟩ := List.cons.inj hsplit
        rwa [List.append_nil]
      | cons first before =>
        obtain ⟨rfl, htiles⟩ := List.cons.inj hsplit
        rw [List.append_cons]
        exact hall before other behind htiles
    · rwa [List.append_cons]

/-- **A listing tiles the stream.**  A decoder of some bytes is asked for one record after the
other, each time with its payload or without, and each time there is one.  Then the records are these
bytes from the first on: each stands where the decoder had read up to, and takes the bytes from its
tag to its terminator, up to where the decoder has read then.

Its backlink, if it has one, is how far it stands behind the last `clear` or `add` record; and the
dictionary is the strings that were announced since the last `clear` record.  If the end is found
then, the records are all the bytes. -/
theorem records_tile (bytes : List UInt8) (limits : Limits) (choose : Nat → Payloads)
    {reported : List Snapshot} {s : Nat × Decoder Tape}
    (h : Run.Yields (nextSnapshot choose) (0, ofFeed (Tape.ofBytes bytes) limits) reported s) :
    ∃ tiles : List Tile, tiles.map Tile.snapshot = reported ∧
      (∀ before tile behind, tiles = before ++ tile :: behind → tile.Fits limits before) ∧
      Tile.covered tiles = bytes.take s.2.stats.bytesRead ∧
      s.2.stats.bytesRead ≤ bytes.length ∧
      s.2.dictionary.toList = Tile.announced tiles ∧
      ∀ final, nextSnapshot choose s = .ok none final →
        Tile.covered tiles = bytes ∧ final.2.stats.bytesRead = bytes.length := by
  obtain ⟨tiles, hmap, hall, hbehind⟩ := Behind.run h (behind_ofFeed bytes limits)
  rw [List.nil_append] at hbehind
  have hrest := hbehind.rest
  have hcounted := hbehind.counted
  refine ⟨tiles, hmap, by simpa using hall, ?_, ?_, congrArg Grammar.Scope.dictionary hbehind.scope,
    fun final hend => ?_⟩
  · rw [hrest, hcounted, List.take_left]
  · rw [hcounted, hrest, List.length_append]
    exact Nat.le_add_right _ _
  · obtain ⟨hnext, -⟩ := nextSnapshot_eq_none.mp hend
    obtain ⟨hnil, -, hfinal⟩ := (nextRecord_eq_none hbehind.between.lookahead).mp hnext
    rw [hnil, List.append_nil] at hrest
    refine ⟨hrest.symm, ?_⟩
    have hoffset := congrArg Grammar.Scope.offset hbehind.scope
    rw [hrest, hfinal]
    exact hoffset

/-- A key that is announced, and a value whose payload is left out. -/
theorem records_tile_key :
    let bytes : List UInt8 := Wire.header Format.version ++ Wire.clear ++ Wire.add 3 ["k"] ++
      Wire.value 7 (Tag.reference.byte :: Varint.encode 0)
    let choose : Nat → Payloads := fun number => if number = 3 then .skipped else .decoded
    let d : Decoder Tape := ofFeed (Tape.ofBytes bytes) {}
    let found := (snapshots choose d).items
    found.map (·.entry.offset) = [0, 5, 8, 15] ∧
      found.map (·.entry.backlink) = [none, none, some 3, some 7] ∧
      found.map (·.dictionary.toList) = [[], [], ["k"], ["k"]] ∧
      ∃ s, Run.Yields (nextSnapshot choose) (0, d) found s ∧
        ∃ tiles : List Tile, tiles.map Tile.snapshot = found ∧
          (∀ before tile behind, tiles = before ++ tile :: behind → tile.Fits {} before) ∧
          Tile.covered tiles = bytes.take s.2.stats.bytesRead ∧
          s.2.stats.bytesRead ≤ bytes.length ∧
          s.2.dictionary.toList = Tile.announced tiles ∧
          ∀ final, nextSnapshot choose s = .ok none final →
            Tile.covered tiles = bytes ∧ final.2.stats.bytesRead = bytes.length := by
  intro bytes choose d found
  obtain ⟨s, hyields⟩ : ∃ s, Run.Yields (nextSnapshot choose) (0, d) found s :=
    Run.yields_of_ask (s := (0, d)) (nextSnapshot_shortens choose) rfl (Nat.lt_succ_self _)
  exact ⟨by decide +kernel, by decide +kernel, by decide +kernel, s, hyields,
    records_tile bytes {} choose hyields⟩

end Decoder

end DictLog
