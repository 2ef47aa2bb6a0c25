/-
# What stands behind the tag of a record

The steps that read a record once its first token is known, and the bytes that they take: a
version, strings up to the terminator, a payload of the declared length.  Unlike the steps before,
they change the dictionary and the counts, which commutes with reading on
(`reads_dictionary_iff`).
-/
import DictLog.Proofs.Value

namespace DictLog

open OnTape Step

/-! ## 1. What a record changes -/

namespace Dictionary

/-- The dictionary of some strings. -/
def ofList (strings : List String) : Dictionary :=
  ⟨strings.toArray⟩

@[simp] theorem toList_ofList (strings : List String) : (ofList strings).toList = strings := rfl

@[simp] theorem ofList_toList (d : Dictionary) : ofList d.toList = d :=
  ext_toList (toList_ofList _)

/-- One more string after another. -/
def append (d : Dictionary) (strings : List String) : Dictionary :=
  strings.foldl Dictionary.add d

@[simp] theorem toList_append (strings : List String) :
    ∀ d : Dictionary, (d.append strings).toList = d.toList ++ strings := by
  induction strings with
  | nil => intro d; simp [append]
  | cons s rest ih =>
    intro d
    show ((d.add s).append rest).toList = _
    rw [ih, toList_add, List.append_assoc, List.singleton_append]

theorem append_eq (d : Dictionary) (strings : List String) :
    d.append strings = ofList (d.toList ++ strings) :=
  ext_toList (toList_append strings d)

end Dictionary

/-- The counts after one more record. -/
def DecodeStats.count (stats : DecodeStats) (record : Record) : DecodeStats :=
  match record with
  | .header _ => stats
  | .clear => { stats with clearRecords := stats.clearRecords + 1 }
  | .add _ => { stats with addRecords := stats.addRecords + 1 }
  | .value _ _ => { stats with valueRecords := stats.valueRecords + 1 }

namespace Decoder

variable {limits : Limits} {dictionary : List String} {bound : Nat} {d d' : Decoder Tape}
  {bs : List UInt8}

/-! ## 2. The rest of a record -/

/-- What ends a record is the tag of a terminator and its line feed.  The latter is the body of the
token, and checked when the token is read. -/
theorem takes_expectTerminator (hd : Ready limits dictionary bound d) :
    Takes expectTerminator (fun bs _ => bs = Format.terminator) d := by
  refine (takes_require (Q := fun token ds _ => token = .terminator ∧ ds = []) hd
    (fun p d' _ => ?_) (fun _ _ h => nomatch h.1) (fun _ _ _ h => nomatch h.1)).congr ?_
  · obtain ⟨offset, token⟩ := p
    cases token with
    | terminator => exact (Takes.pure ()).congr fun ds u => by simp
    | _ => exact (Takes.throw _).congr fun ds u => by simp
  · intro bs u
    constructor
    · rintro ⟨_, cs, _, hbody, ⟨rfl, rfl⟩, rfl⟩
      obtain rfl : cs = [0x0A] := hbody
      rfl
    · rintro rfl
      exact ⟨.terminator, [0x0A], [], rfl, ⟨rfl, rfl⟩, rfl⟩

/-- A version is a number, and the one that this format has; it may be written in more groups than
it needs. -/
theorem takes_version (hd : Ready limits dictionary bound d) :
    Takes version (fun bs n => ∃ digits, Varint.Spells digits Format.version ∧
      bs = Tag.natural.byte :: digits ∧ n = Format.version) d := by
  refine (takes_require (Q := fun token ds n => ∃ w : UInt64, token = .natural w ∧
    w.toNat = Format.version ∧ ds = [] ∧ n = w.toNat) hd (fun p d' _ => ?_)
    (fun _ _ ⟨_, h, _⟩ => nomatch h) (fun _ _ _ ⟨_, h, _⟩ => nomatch h)).congr ?_
  · obtain ⟨offset, token⟩ := p
    cases token with
    | natural w => exact (Takes.checked _ _).congr fun ds n => by simp
    | _ => exact (Takes.throw _).congr fun ds n => by simp
  · intro bs n
    constructor
    · rintro ⟨_, digits, _, hbody, ⟨w, rfl, hw, rfl, rfl⟩, rfl⟩
      exact ⟨digits, hw ▸ hbody, by rw [List.append_nil]; rfl, hw⟩
    · rintro ⟨digits, hspells, rfl, rfl⟩
      exact ⟨.natural 1, digits, [], hspells, ⟨1, rfl, rfl, rfl, rfl⟩, by rw [List.append_nil]; rfl⟩

/-- Changing the dictionary and reading on commute.  An `add` record changes it between two strings,
and this is what lets all of its bytes be read first. -/
theorem reads_dictionary_iff {g : Dictionary → Dictionary} :
    Reads { d with dictionary := g d.dictionary } bs d' ↔
      ∃ t, Reads d bs t ∧ d' = { t with dictionary := g t.dictionary } :=
  reads_change_iff (g := fun d : Decoder Tape => { d with dictionary := g d.dictionary })
    (fun _ => rfl) (fun _ _ => rfl)

/-- A string is added exactly if the dictionary has room for it. -/
theorem addString_eq_ok {s : String} {u : Unit} :
    addString s d = .ok u d' ↔ d.dictionary.size < d.limits.maxDictionaryEntries ∧
      d' = { d with dictionary := d.dictionary.add s } := by
  rw [addString, get_bind_apply]
  by_cases hfull : d.limits.maxDictionaryEntries ≤ d.dictionary.size
  · simp [hfull, Nat.not_lt.mpr hfull]
  · simp only [if_neg hfull, set_apply, EStateM.Result.ok.injEq, Nat.not_le.mp hfull, true_and]
    exact eq_comm

theorem Ready.add (h : Ready limits dictionary bound d) (s : String) :
    Ready limits (dictionary ++ [s]) bound { d with dictionary := d.dictionary.add s } :=
  ⟨h.lookahead, h.limits, by rw [Dictionary.toList_add, h.dictionary], h.unread⟩

/-- A string literal is the token of its string: the tag, and behind it the body. -/
theorem literal_body {bs : List UInt8} {s : String} (h : Grammar.StringLiteral limits bs s)
    (offset lastDictionary : Nat) :
    ∃ cs, bs = Tag.string.byte :: cs ∧ (Token.string s).Body limits offset lastDictionary cs := by
  obtain ⟨hspells, hlen, hdecode⟩ := h
  exact ⟨_, rfl, _, _, hspells, hlen, hdecode, rfl⟩

theorem require_terminator (hd : d.lookahead = none) (hr : Reads d Format.terminator d') :
    require d = .ok ⟨d.tokens.offset, .terminator⟩ d' :=
  require_eq_ok.mpr ((advance_eq_some hd).mpr ⟨rfl, [0x0A], d', rfl, hr, rfl⟩)

/-- Room in the grammar is room in the decoder. -/
theorem roomy (hd : Ready limits dictionary bound d)
    (hroom : dictionary.length < limits.maxDictionaryEntries) :
    d.dictionary.size < d.limits.maxDictionaryEntries := by
  rwa [← Dictionary.length_toList, hd.dictionary, hd.limits]

/-- Room for one more string and the rest is room for the rest once the string is there. -/
theorem length_snoc_add (s : String) (strings : List String) :
    (dictionary ++ [s]).length + strings.length = dictionary.length + (s :: strings).length := by
  rw [List.length_append, List.length_singleton, List.length_cons]
  omega

section Additions

variable {times n : Nat} {bs : List UInt8} {s : String}

/-- A string literal adds its string before the others.  What is left to do is what would be left in
a decoder that had the string from the start, with one repetition less. -/
theorem additions_of_literal (added : Nat) (hd : Ready limits dictionary (times + 1) d)
    (h : Grammar.StringLiteral limits bs s) (hr : Reads d bs d')
    (hroom : dictionary.length < limits.maxDictionaryEntries) :
    Ready limits (dictionary ++ [s]) times { d' with dictionary := d'.dictionary.add s } ∧
      additions (times + 1) added d =
        additions times (added + 1) { d' with dictionary := d'.dictionary.add s } := by
  obtain ⟨cs, rfl, hbody⟩ := literal_body h d.tokens.offset d.tokens.lastDictionary
  have hd' := hd.reads_lt (List.cons_ne_nil _ _) hr
  rw [← hd.limits] at hbody
  have hreq : require d = .ok ⟨d.tokens.offset, .string s⟩ d' :=
    require_eq_ok.mpr ((advance_eq_some hd.lookahead).mpr ⟨rfl, cs, d', hbody, hr, rfl⟩)
  refine ⟨hd'.add s, ?_⟩
  rw [additions, bind_of_ok hreq]
  show (addString s >>= fun _ => additions times (added + 1)) d' = _
  rw [bind_of_ok (addString_eq_ok (u := ()).mpr ⟨roomy hd' hroom, rfl⟩)]

/-- Where strings were added, the terminator came first, or a string literal and then the others.  No
other token is accepted between them. -/
theorem additions_cases {added : Nat} (hd : Ready limits dictionary (times + 1) d)
    (h : additions (times + 1) added d = .ok n d') :
    (Reads d Format.terminator d' ∧ n = added) ∨
      ∃ bs s t, Grammar.StringLiteral limits bs s ∧ Reads d bs t ∧
        dictionary.length < limits.maxDictionaryEntries ∧
        additions times (added + 1) { t with dictionary := t.dictionary.add s } = .ok n d' := by
  rw [additions, bind_eq_ok] at h
  obtain ⟨⟨offset, token⟩, t, hp, h⟩ := h
  obtain ⟨-, cs, u, hbody, hr, rfl⟩ := (advance_eq_some hd.lookahead).mp (require_eq_ok.mp hp)
  have hu := hd.reads_lt (List.cons_ne_nil _ _) hr
  rw [hd.limits] at hbody
  cases token with
  | terminator =>
    obtain rfl : cs = [0x0A] := hbody
    cases h
    exact .inl ⟨hr, rfl⟩
  | string s =>
    obtain ⟨_, v, hv, h⟩ := bind_eq_ok.mp h
    obtain ⟨hroom, rfl⟩ := addString_eq_ok.mp hv
    change u.dictionary.size < u.limits.maxDictionaryEntries at hroom
    rw [← Dictionary.length_toList, hu.dictionary, hu.limits] at hroom
    obtain ⟨digits, content, hspells, hlen, hdecode, rfl⟩ := hbody
    exact .inr ⟨_, s, u, ⟨hspells, hlen, hdecode⟩, hr, hroom, h⟩
  | _ => cases h

end Additions

/-- The strings of an `add` record are read exactly from string literals and the terminator, if the
dictionary has room for them.  The strings are added as they are read; that they may as well be added
at the end is `reads_dictionary_iff`. -/
theorem additions_eq_ok (times : Nat) :
    ∀ {dictionary : List String} {d d' : Decoder Tape} {added n : Nat},
      Ready limits dictionary times d → dictionary.length ≤ limits.maxDictionaryEntries →
      (additions times added d = .ok n d' ↔ ∃ bs strings t,
        Grammar.Sequence (Grammar.StringLiteral limits) bs strings ∧
        dictionary.length + strings.length ≤ limits.maxDictionaryEntries ∧
        Reads d (bs ++ Format.terminator) t ∧ n = added + strings.length ∧
        d' = { t with dictionary := t.dictionary.append strings }) := by
  induction times with
  | zero =>
    intro dictionary d d' added n hd
    exact absurd hd.unread (Nat.not_lt_zero _)
  | succ times ih =>
    intro dictionary d d' added n hd hdict
    constructor
    · intro h
      rcases additions_cases hd h with ⟨hr, rfl⟩ | hmore
      · exact ⟨[], [], d', .nil, hdict, hr, rfl, rfl⟩
      · obtain ⟨bs, s, t, hliteral, hr, hroom, h⟩ := hmore
        obtain ⟨hready, -⟩ := additions_of_literal added hd hliteral hr hroom
        obtain ⟨cs, strings, w, hseq, hlim, hrw, rfl, rfl⟩ :=
          (ih hready (by rw [List.length_append]; exact hroom)).mp h
        obtain ⟨x, hrx, rfl⟩ := (reads_dictionary_iff (g := (·.add s))).mp hrw
        -- The others were read with the string in the dictionary.  It could have been put there
        -- when they were read, and the limit comes to the same.
        rw [length_snoc_add] at hlim
        refine ⟨bs ++ cs, s :: strings, x, .cons hliteral hseq, hlim, ?_, ?_, rfl⟩
        · rw [List.append_assoc]
          exact hr.trans hrx
        · rw [List.length_cons]
          omega
    · intro h
      obtain ⟨_, _, t, hseq, hlim, hr, rfl, rfl⟩ := h
      cases hseq with
      | nil =>
        rw [additions, bind_of_ok (require_terminator hd.lookahead hr)]
        rfl
      | @cons bs cs s strings hliteral hseq =>
        rw [List.append_assoc] at hr
        obtain ⟨u, hru, hrt⟩ := hr.split
        have hroom : dictionary.length < limits.maxDictionaryEntries := by
          rw [List.length_cons] at hlim
          omega
        rw [← length_snoc_add] at hlim
        obtain ⟨hready, hnext⟩ := additions_of_literal added hd hliteral hru hroom
        rw [hnext]
        refine (ih hready (Nat.le_trans (Nat.le_add_right _ _) hlim)).mpr ⟨cs, strings, _, hseq,
          hlim, (reads_dictionary_iff (g := (·.add s))).mpr ⟨t, hrt, rfl⟩, ?_, rfl⟩
        rw [List.length_cons]
        omega

/-- Where the tape ends among the strings of an `add` record that would have had room, the record is
truncated. -/
theorem additions_cut (times : Nat) :
    ∀ {dictionary : List String} {d : Decoder Tape} {added : Nat} {bs : List UInt8}
      {strings : List String}, Ready limits dictionary times d →
      Grammar.Sequence (Grammar.StringLiteral limits) bs strings →
      dictionary.length + strings.length ≤ limits.maxDictionaryEntries →
      Cut d (bs ++ Format.terminator) → ∃ d', additions times added d = .error .truncated d' := by
  induction times with
  | zero =>
    intro dictionary d added bs strings hd
    exact absurd hd.unread (Nat.not_lt_zero _)
  | succ times ih =>
    intro dictionary d added bs strings hd hseq hlim hcut
    cases hseq with
    | nil =>
      have hbody : Token.terminator.Body d.limits d.tokens.offset d.tokens.lastDictionary [0x0A] :=
        rfl
      obtain ⟨d', he⟩ := require_cut hd.lookahead hbody hcut
      exact ⟨d', bind_of_error he _⟩
    | @cons bs cs s strings hliteral hseq =>
      rw [List.append_assoc] at hcut
      rcases hcut.split with hcut | ⟨u, hru, hcut⟩
      · -- The tape ends inside the first string.
        obtain ⟨cs, rfl, hbody⟩ := literal_body hliteral d.tokens.offset d.tokens.lastDictionary
        rw [← hd.limits] at hbody
        obtain ⟨d', he⟩ := require_cut hd.lookahead hbody hcut
        exact ⟨d', bind_of_error he _⟩
      · have hroom : dictionary.length < limits.maxDictionaryEntries := by
          rw [List.length_cons] at hlim
          omega
        rw [← length_snoc_add] at hlim
        obtain ⟨hready, hnext⟩ := additions_of_literal added hd hliteral hru hroom
        rw [hnext]
        exact ih hready hseq hlim ⟨hcut.clean, hcut.inside⟩

/-- A payload is read exactly from a value of its length.  The length is compared once the value is
there, so it is the number of bytes that the value took, and not a bound on what is looked at. -/
theorem takes_payload (hd : Ready limits dictionary bound d) (offset length : Nat) :
    Takes (payload offset length)
      (fun bs v => Grammar.Value limits dictionary limits.maxNestingDepth bs v ∧
        bs.length = length) d := by
  have hlength : ∀ {bs : List UInt8} {t : Decoder Tape}, Reads d bs t →
      t.tokens.offset - d.tokens.offset = bs.length := fun hr => by
    have hoffset : _ = d.tokens.offset + _ := hr.offset
    exact Nat.sub_eq_of_eq_add' hoffset
  refine ⟨fun v d' => ?_, ?_⟩
  · rw [payload, get_bind_apply, bind_eq_ok]
    constructor
    · rintro ⟨w, t, hw, h⟩
      obtain ⟨bs, hbs, hr⟩ := ((takes_value hd).ok_iff w t).mp hw
      rw [get_bind_apply, hlength hr] at h
      by_cases hlen : bs.length = length
      · rw [if_pos hlen] at h
        cases h
        exact ⟨bs, ⟨hbs, hlen⟩, hr⟩
      · rw [if_neg hlen] at h
        cases h
    · rintro ⟨bs, ⟨hbs, hlen⟩, hr⟩
      refine ⟨v, d', ((takes_value hd).ok_iff v d').mpr ⟨bs, hbs, hr⟩, ?_⟩
      rw [get_bind_apply, hlength hr, if_pos hlen]
      rfl
  · rintro bs v ⟨hbs, -⟩ hcut
    obtain ⟨d', he⟩ := (takes_value hd).cut bs v hbs hcut
    exact ⟨d', bind_of_error he _⟩

section Modified

variable {α β : Type} {m : EStateM Fault (Decoder Tape) α} {P : List UInt8 → α → Prop}
  {change : Decoder Tape → Decoder Tape} {g : α → β}

/-- A step that only reads, and after it a change of the state.  All four records end like this: the
change is made only if everything was read. -/
theorem modified_eq_ok (hm : Takes m P d) {b : β} :
    (m >>= fun a => modify change >>= fun _ => pure (g a)) d = .ok b d' ↔
      ∃ bs a t, P bs a ∧ Reads d bs t ∧ b = g a ∧ d' = change t := by
  rw [bind_eq_ok]
  constructor
  · rintro ⟨a, t, ha, h⟩
    obtain ⟨bs, hbs, hr⟩ := (hm.ok_iff a t).mp ha
    cases h
    exact ⟨bs, a, t, hbs, hr, rfl, rfl⟩
  · rintro ⟨bs, a, t, hbs, hr, rfl, rfl⟩
    exact ⟨a, t, (hm.ok_iff a t).mpr ⟨bs, hbs, hr⟩, rfl⟩

/-- Where the step is truncated, nothing is changed, and the fault is passed on. -/
theorem modified_cut (hm : Takes m P d) {bs : List UInt8} {a : α} (ha : P bs a) (hcut : Cut d bs) :
    ∃ d', (m >>= fun a => modify change >>= fun _ => pure (g a)) d = .error .truncated d' := by
  obtain ⟨d', he⟩ := hm.cut bs a ha hcut
  exact ⟨d', bind_of_error he _⟩

end Modified

/-- A header is its version and its terminator, and only then is the stream started. -/
theorem headerRecord_eq (d : Decoder Tape) : headerRecord d =
    ((version >>= fun n => expectTerminator >>= fun _ => pure n) >>= fun n =>
      modify (fun d : Decoder Tape => { d with started := true }) >>= fun _ =>
        pure (Record.header n)) d := by
  simp only [bind_assoc, pure_bind]
  rfl

/-- The rest of a header is its version and its terminator. -/
theorem takes_header (hd : Ready limits dictionary bound d) :
    Takes (version >>= fun n => expectTerminator >>= fun _ => pure n)
      (fun bs n => ∃ digits, Varint.Spells digits Format.version ∧
        bs = Tag.natural.byte :: (digits ++ Format.terminator) ∧ n = Format.version) d := by
  refine ((takes_version hd).bind (f := fun n => expectTerminator >>= fun _ => pure n)
    fun n t bs _ hr => (takes_expectTerminator (hd.reads hr)).map fun _ => n).congr fun bs n => ?_
  constructor
  · rintro ⟨_, _, _, ⟨digits, hspells, rfl, rfl⟩, ⟨_, rfl, rfl⟩, rfl⟩
    exact ⟨digits, hspells, rfl, rfl⟩
  · rintro ⟨digits, hspells, rfl, rfl⟩
    exact ⟨_, _, _, ⟨digits, hspells, rfl, rfl⟩, ⟨(), rfl, rfl⟩, rfl⟩

/-- A header starts the stream. -/
theorem headerRecord_eq_ok (hd : Ready limits dictionary bound d) {r : Record} :
    headerRecord d = .ok r d' ↔ ∃ digits t, Varint.Spells digits Format.version ∧
      Reads d (Tag.natural.byte :: (digits ++ Format.terminator)) t ∧
      r = .header Format.version ∧ d' = { t with started := true } := by
  rw [headerRecord_eq, modified_eq_ok (takes_header hd)]
  constructor
  · rintro ⟨_, _, t, ⟨digits, hspells, rfl, rfl⟩, hr, rfl, rfl⟩
    exact ⟨digits, t, hspells, hr, rfl, rfl⟩
  · rintro ⟨digits, t, hspells, hr, rfl, rfl⟩
    exact ⟨_, Format.version, t, ⟨digits, hspells, rfl, rfl⟩, hr, rfl, rfl⟩

/-- A `clear` record empties the dictionary and is counted. -/
theorem clearRecord_eq_ok (hd : Ready limits dictionary bound d) {r : Record} :
    clearRecord d = .ok r d' ↔ ∃ t, Reads d Format.terminator t ∧ r = .clear ∧
      d' = { t with dictionary := .empty, stats := t.stats.count .clear } := by
  rw [clearRecord, modified_eq_ok (g := fun _ => Record.clear) (takes_expectTerminator hd)]
  constructor
  · rintro ⟨_, _, t, rfl, hr, rfl, rfl⟩
    exact ⟨t, hr, rfl, rfl⟩
  · rintro ⟨t, hr, rfl, rfl⟩
    exact ⟨_, (), t, rfl, hr, rfl, rfl⟩

/-- An `add` record adds its strings and is counted, if there is room for all of them.  It is the one
record that changes a decoder before its end is reached. -/
theorem addRecord_eq_ok (hd : Ready limits dictionary bound d)
    (hdict : dictionary.length ≤ limits.maxDictionaryEntries) {r : Record} :
    addRecord d = .ok r d' ↔ ∃ bs strings t,
      Grammar.Sequence (Grammar.StringLiteral limits) bs strings ∧
      dictionary.length + strings.length ≤ limits.maxDictionaryEntries ∧
      Reads d (bs ++ Format.terminator) t ∧ r = .add strings.length ∧
      d' = { t with
        dictionary := .ofList (dictionary ++ strings)
        stats := t.stats.count (.add strings.length) } := by
  have happend : ∀ {t : Decoder Tape} {bs strings : List _}, Reads d bs t →
      t.dictionary.append strings = .ofList (dictionary ++ strings) := fun hr => by
    rw [Dictionary.append_eq, (hd.reads hr).dictionary]
  rw [addRecord, get_bind_apply, bind_eq_ok]
  constructor
  · rintro ⟨n, t, hn, h⟩
    obtain ⟨bs, strings, u, hseq, hlim, hr, rfl, rfl⟩ :=
      (additions_eq_ok d.bound hd.bounded hdict).mp hn
    cases h
    rw [Nat.zero_add, happend hr]
    exact ⟨bs, strings, u, hseq, hlim, hr, rfl, rfl⟩
  · rintro ⟨bs, strings, t, hseq, hlim, hr, rfl, rfl⟩
    refine ⟨strings.length, _, (additions_eq_ok d.bound hd.bounded hdict).mpr
      ⟨bs, strings, t, hseq, hlim, hr, (Nat.zero_add _).symm, rfl⟩, ?_⟩
    rw [happend hr]
    rfl

/-- The rest of a `value` record is its payload and its terminator, and only then is it counted. -/
theorem valueRecord_eq (offset length : Nat) (d : Decoder Tape) :
    valueRecord .decoded offset length d =
      ((payload offset length >>= fun v => expectTerminator >>= fun _ => pure v) >>= fun v =>
        modify (fun d : Decoder Tape => { d with
          stats := { d.stats with valueRecords := d.stats.valueRecords + 1 } }) >>= fun _ =>
            pure (Record.value length (some v))) d := by
  simp only [bind_assoc, pure_bind, valueRecord, payloadIf]

/-- A payload takes a value of its length, and its terminator behind it.  The length is compared when
the value has been read. -/
theorem takes_payloadEnd (hd : Ready limits dictionary bound d) (offset length : Nat) :
    Takes (payload offset length >>= fun v => expectTerminator >>= fun _ => pure v)
      (fun bs v => ∃ cs, Grammar.Value limits dictionary limits.maxNestingDepth cs v ∧
        cs.length = length ∧ bs = cs ++ Format.terminator) d := by
  refine ((takes_payload hd offset length).bind
    (f := fun v => expectTerminator >>= fun _ => pure v)
    fun v t bs _ hr => (takes_expectTerminator (hd.reads hr)).map fun _ => v).congr fun bs v => ?_
  constructor
  · rintro ⟨_, cs, _, ⟨hv, hlen⟩, ⟨_, rfl, rfl⟩, rfl⟩
    exact ⟨cs, hv, hlen, rfl⟩
  · rintro ⟨cs, hv, hlen, rfl⟩
    exact ⟨v, cs, _, ⟨hv, hlen⟩, ⟨(), rfl, rfl⟩, rfl⟩

/-- A `value` record leaves the dictionary alone, and is counted.  That is all that is left of it in
the decoder. -/
theorem valueRecord_eq_ok (hd : Ready limits dictionary bound d) {offset length : Nat}
    {r : Record} :
    valueRecord .decoded offset length d = .ok r d' ↔ ∃ bs v t,
      Grammar.Value limits dictionary limits.maxNestingDepth bs v ∧ bs.length = length ∧
      Reads d (bs ++ Format.terminator) t ∧ r = .value length (some v) ∧
      d' = { t with stats := t.stats.count (.value length (some v)) } := by
  rw [valueRecord_eq, modified_eq_ok (takes_payloadEnd hd offset length)]
  constructor
  · rintro ⟨_, v, t, ⟨bs, hv, hlen, rfl⟩, hr, rfl, rfl⟩
    exact ⟨bs, v, t, hv, hlen, hr, rfl, rfl⟩
  · rintro ⟨bs, v, t, hv, hlen, hr, rfl, rfl⟩
    exact ⟨_, v, t, ⟨bs, hv, hlen, rfl⟩, hr, rfl, rfl⟩

end Decoder

end DictLog
