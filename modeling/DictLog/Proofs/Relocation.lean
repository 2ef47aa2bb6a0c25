/-
# Records in other places

A record says the same wherever it stands, as long as the last record that changed the dictionary
stands as far in front of it as before, and the strings that it refers to keep their indices
(`Records.moved`, `Records.back`).  So when bytes are taken out of a stream, or put into it, one has
to look at the next record only: if it is read, the others are read as before, some bytes further
back or on.

What is taken out or put in is a record of a stream that is accepted, and `Amid` says where it
stands: behind some records, and in front of others.
-/
import DictLog.Proofs.Agreement
import DictLog.Proofs.Truncation

namespace DictLog

/-! ## 1. Longer dictionaries -/

namespace Grammar

variable {limits : Limits} {dictionary : List String} {room : Nat} {bs : List UInt8}

/-- A reference that is good stays good when strings are added at the end. -/
theorem Text.longer {s : String} (h : Text limits dictionary bs s) (more : List String) :
    Text limits (dictionary ++ more) bs s := by
  cases h with
  | literal h => exact .literal h
  | reference spells lookup =>
    refine .reference spells ?_
    rw [List.getElem?_append_left (List.getElem?_eq_some_iff.mp lookup).1]
    exact lookup

mutual

/-- Where a payload has a meaning, it has the same in every longer dictionary. -/
theorem Value.longer (more : List String) : ∀ {room : Nat} {bs : List UInt8} {v : Json},
    Value limits dictionary room bs v → Value limits (dictionary ++ more) room bs v
  | _, _, _, .null => .null
  | _, _, _, .boolTrue => .boolTrue
  | _, _, _, .boolFalse => .boolFalse
  | _, _, _, .natural spells => .natural spells
  | _, _, _, .negative spells opposite => .negative spells opposite
  | _, _, _, .double length bits => .double length bits
  | _, _, _, .text h => .text (h.longer more)
  | _, _, _, .array h => .array (Items.longer more h)
  | _, _, _, .object h => .object (MemberList.longer more h)

theorem Items.longer (more : List String) : ∀ {room : Nat} {bs : List UInt8} {items : List Json},
    Items limits dictionary room bs items → Items limits (dictionary ++ more) room bs items
  | _, _, _, .nil => .nil
  | _, _, _, .cons head tail => .cons (Value.longer more head) (Items.longer more tail)

theorem MemberList.longer (more : List String) :
    ∀ {room : Nat} {bs : List UInt8} {members : List (String × Json)},
      MemberList limits dictionary room bs members →
        MemberList limits (dictionary ++ more) room bs members
  | _, _, _, .nil => .nil
  | _, _, _, .cons key value tail =>
    .cons (key.longer more) (Value.longer more value) (MemberList.longer more tail)

end

end Grammar

/-! ## 2. Records further on, and further back -/

/-- What is left of the epoch: the records in front of the next `clear` record. -/
def Entry.epoch (entries : List Entry) : List Entry :=
  entries.takeWhile fun entry => entry.record.kind ≠ .clear

/-- Values do not know where they were found. -/
theorem Entry.values_map_shift (k : Nat) (entries : List Entry) :
    Entry.values (entries.map (Entry.shift k)) = Entry.values entries := by
  rw [values, List.filterMap_map]
  rfl

/-- Only `value` records count here. -/
theorem Entry.values_cons_of_kind {entry : Entry} (h : entry.record.kind ≠ .value)
    (entries : List Entry) : Entry.values (entry :: entries) = Entry.values entries := by
  obtain ⟨offset, backlink, record⟩ := entry
  cases record with
  | value n v => exact absurd rfl h
  | _ => rfl

namespace Grammar

variable {limits : Limits} {s t : Scope} {bs : List UInt8} {entry : Entry} {entries : List Entry}
  {after more : List String} {k : Nat}

/-- Records in front, and the records behind them. -/
theorem Records.split {others : List Entry} (h : Records limits s bs (entries ++ others) t) :
    ∃ cs ds u, bs = cs ++ ds ∧ Records limits s cs entries u ∧ Records limits u ds others t := by
  induction entries generalizing s bs with
  | nil => exact ⟨[], bs, s, rfl, .nil, h⟩
  | cons entry entries ih =>
    cases h with
    | @cons _ _ bs cs _ _ after head tail =>
      obtain ⟨ds, es, u, rfl, hfront, hbehind⟩ := ih tail
      exact ⟨bs ++ ds, es, u, (List.append_assoc ..).symm, .cons head hfront, hbehind⟩

/-- The scope so many bytes further on, with more strings behind those of the dictionary. -/
def Scope.moved (k : Nat) (more : List String) (s : Scope) : Scope where
  offset := s.offset + k
  lastDictionary := s.lastDictionary + k
  dictionary := s.dictionary ++ more

/-- The record is the same further on.  What the dictionary has more it has behind the record, too,
unless the record clears it; the record must not add to it. -/
theorem Record.moved (h : Record limits s bs entry after) (k : Nat)
    (hadd : more = [] ∨ entry.record.kind ≠ .add) :
    ∃ left, (left = [] ∨ left = more ∧ entry.record.kind ≠ .clear) ∧
      Record limits (s.moved k more) bs (entry.shift k) (after ++ left) ∧
      (s.moved k more).after bs (entry.shift k) (after ++ left) =
        (s.after bs entry after).moved k left := by
  cases h with
  | header spells => exact ⟨more, .inr ⟨rfl, by simp [DictLog.Record.kind]⟩, .header spells, by
      simp [Scope.after, Scope.moved, Entry.shift, Nat.add_right_comm]⟩
  | clear => exact ⟨[], .inl rfl, .clear, by
      simp [Scope.after, Scope.moved, Entry.shift, Nat.add_right_comm]⟩
  | @add digits literals backlink strings spells linked sequence limit =>
    obtain rfl := hadd.resolve_right fun h => h rfl
    have hlinked : s.lastDictionary + k + backlink = s.offset + k := by
      rw [Nat.add_right_comm, linked]
    have hlimit :
        (s.moved k []).dictionary.length + strings.length ≤ limits.maxDictionaryEntries := by
      rw [Scope.moved, List.append_nil]
      exact limit
    have hrecord := Record.add (s := s.moved k []) spells hlinked sequence hlimit
    rw [show (s.moved k []).dictionary = s.dictionary from List.append_nil _] at hrecord
    refine ⟨[], .inl rfl, ?_, by
      simp [Scope.after, Scope.moved, Entry.shift, Nat.add_right_comm]⟩
    rw [List.append_nil]
    exact hrecord
  | @value digits lengthDigits payload backlink v spells linked length limit denotes =>
    have hlinked : s.lastDictionary + k + backlink = s.offset + k := by
      rw [Nat.add_right_comm, linked]
    exact ⟨more, .inr ⟨rfl, by simp [DictLog.Record.kind]⟩,
      .value (s := s.moved k more) spells hlinked length limit (denotes.longer more), by
        simp [Scope.after, Scope.moved, Entry.shift, Nat.add_right_comm]⟩

/-- Records are the same further on, also with more in the dictionary, unless they add to it.  What
the dictionary has too many is gone behind the next `clear` record, and from there on an `add`
record does no harm; so only the epoch is asked about. -/
theorem Records.moved (h : Records limits s bs entries t) (k : Nat) :
    ∀ {more : List String},
      (more = [] ∨ ∀ entry ∈ Entry.epoch entries, entry.record.kind ≠ .add) →
      ∃ left,
        Records limits (s.moved k more) bs (entries.map (Entry.shift k)) (t.moved k left) := by
  induction h with
  | nil => exact fun {more} _ => ⟨more, .nil⟩
  | @cons s t bs cs entry entries after head tail ih =>
    intro more hadd
    -- The first record adds nothing while there is more in the dictionary: it is in the epoch, or
    -- it is a `clear` record.
    have hhead : more = [] ∨ entry.record.kind ≠ .add := by
      refine hadd.imp_right fun hno => ?_
      by_cases hclear : entry.record.kind = .clear
      · rw [hclear]
        nofun
      · exact hno entry (by simp [Entry.epoch, hclear])
    obtain ⟨left, hleft, hrecord, hafter⟩ := head.moved k hhead
    have htail : left = [] ∨ ∀ entry ∈ Entry.epoch entries, entry.record.kind ≠ .add := by
      rcases hleft with hnil | ⟨rfl, hclear⟩
      · exact .inl hnil
      · refine hadd.imp_right fun hno other hother => hno other ?_
        rw [Entry.epoch, List.takeWhile_cons_of_pos (by simpa using hclear)]
        exact List.mem_cons_of_mem _ hother
    obtain ⟨final, hrecords⟩ := ih htail
    rw [← hafter] at hrecords
    exact ⟨final, .cons hrecord hrecords⟩

/-- The record is the same further back.  Here nothing is more in the dictionary, and so every record
may follow. -/
theorem Record.back (h : Record limits (s.moved k []) bs entry after) :
    ∃ found, entry = found.shift k ∧ Record limits s bs found after ∧
      (s.moved k []).after bs entry after = (s.after bs found after).moved k [] := by
  have hdictionary : (s.moved k []).dictionary = s.dictionary := List.append_nil _
  have hlinked : ∀ {backlink : Nat}, (s.moved k []).lastDictionary + backlink =
      (s.moved k []).offset → s.lastDictionary + backlink = s.offset := by
    intro backlink hlinked
    change s.lastDictionary + k + backlink = s.offset + k at hlinked
    omega
  cases h with
  | header spells =>
    rw [hdictionary]
    exact ⟨_, rfl, .header spells, by simp [Scope.after, Scope.moved, Nat.add_right_comm]⟩
  | clear =>
    exact ⟨⟨s.offset, none, .clear⟩, rfl, .clear, by
      simp [Scope.after, Scope.moved, Nat.add_right_comm]⟩
  | add spells linked literals limit =>
    rw [hdictionary] at limit ⊢
    exact ⟨⟨s.offset, _, _⟩, rfl, .add spells (hlinked linked) literals limit, by
      simp [Scope.after, Scope.moved, Nat.add_right_comm]⟩
  | value spells linked length limit denotes =>
    rw [hdictionary] at denotes ⊢
    exact ⟨⟨s.offset, _, _⟩, rfl, .value spells (hlinked linked) length limit denotes, by
      simp [Scope.after, Scope.moved, Nat.add_right_comm]⟩

/-- So it is with records one after the other. -/
theorem Records.back (h : Records limits s bs entries t) :
    ∀ {u : Scope}, s = u.moved k [] → ∃ found final, entries = found.map (Entry.shift k) ∧
      Records limits u bs found final := by
  induction h with
  | nil => exact fun {u} _ => ⟨[], u, rfl, .nil⟩
  | cons head tail ih =>
    rintro u rfl
    obtain ⟨first, rfl, hfirst, hafter⟩ := head.back
    obtain ⟨rest, final, rfl, hrest⟩ := ih hafter
    exact ⟨first :: rest, final, rfl, .cons hfirst hrest⟩

/-- More records behind some leave the first of them where it is. -/
theorem Headed.append (h : Headed entries) (others : List Entry) (hne : entries ≠ []) :
    Headed (entries ++ others) := by
  cases entries with
  | nil => exact absurd rfl hne
  | cons first entries => exact h

/-! ## 3. How far apart -/

/-- If there are strings in the dictionary, the last record that changed it is longer than a `clear`
record. -/
def Scope.Spaced (s : Scope) : Prop :=
  s.dictionary = [] ∨ s.lastDictionary + 3 < s.offset

/-- One record keeps that up: an `add` record has a backlink, and so is longer than a `clear`
record. -/
theorem Record.spaced (h : Record limits s bs entry after) (hs : s.Spaced) :
    (s.after bs entry after).Spaced := by
  cases h with
  | header _ =>
    refine hs.imp_right fun hlt => ?_
    simp only [Scope.after]
    omega
  | clear => exact .inl rfl
  | add spells _ _ _ =>
    have hdigits := spells.groups.length_pos
    refine .inr ?_
    simp only [Scope.after, List.length_cons, List.length_append, Format.terminator,
      List.length_nil]
    omega
  | value _ _ _ _ _ =>
    refine hs.imp_right fun hlt => ?_
    simp only [Scope.after]
    omega

theorem Records.spaced (h : Records limits s bs entries t) : s.Spaced → t.Spaced := by
  induction h with
  | nil => exact id
  | cons head _ ih => exact fun hs => ih (head.spaced hs)

end Grammar

/-! ## 4. A record amid others -/

namespace Decoder

open Grammar

variable {limits : Limits} {bytes pre bs rest : List UInt8} {values : List Json} {span : Span}
  {front behind : List Span} {s t : Scope} {after : List String} {d d' : Decoder Tape}

/-- Where a record of a stream stands: behind some records, in front of others. -/
structure Amid (limits : Limits) (bytes : List UInt8) (front : List Span) (span : Span)
    (behind : List Span) (pre bs rest : List UInt8) (s : Scope) (after : List String)
    (t : Scope) : Prop where
  bytes : bytes = pre ++ (bs ++ rest)
  start : span.entry.offset = pre.length
  stop : span.stop = pre.length + bs.length
  headed : Headed ((front ++ span :: behind).map Span.entry)
  before : Records limits .start pre (front.map Span.entry) s
  record : Grammar.Record limits s bs span.entry after
  onward : Records limits (s.after bs span.entry after) rest (behind.map Span.entry) t

/-- A run over records with their ends is a run over the records. -/
theorem yields_of_nextSpan {spans : List Span} (h : Run.Yields nextSpan d spans d') :
    Run.Yields (nextRecord .decoded) d (spans.map Span.entry) d' := by
  induction h with
  | nil => exact .nil
  | cons head _ ih => exact .cons (nextSpan_eq_some.mp head).1 ih

/-- Every record of a stream that is accepted stands amid the others: some records are in front of
it, and the rest is read from the scope that it leaves. -/
theorem exists_amid (h : decodeValues bytes limits = .ok values)
    (hspans : spans bytes limits = front ++ span :: behind) :
    ∃ pre bs rest s after t, Amid limits bytes front span behind pre bs rest s after t := by
  obtain ⟨_, _, hends, -⟩ := ends_of_decodeValues h
  obtain ⟨final, hyields, hrest⟩ := spans_eq hends
  rw [hspans] at hyields
  have hbetween := between_ofFeed (Tape.ofBytes bytes) limits
  obtain ⟨hheaded, -⟩ := yields_sound (yields_of_nextSpan hyields) hbetween
  -- The run is cut in front of the record and behind it, and each part gives its piece of the
  -- bytes.
  obtain ⟨u, hfront, htail⟩ := hyields.split
  obtain ⟨-, pre, hbefore, hadv⟩ := yields_sound (yields_of_nextSpan hfront) hbetween
  cases htail with
  | @cons _ w _ _ _ head tail =>
    obtain ⟨hnext, hstop⟩ := nextSpan_eq_some.mp head
    obtain ⟨-, bs, after, hrecord, hscope, hadv'⟩ := nextRecord_sound hadv.between hnext
    obtain ⟨-, rest, hbehind, hadv''⟩ := yields_sound (yields_of_nextSpan tail) hadv'.between
    rw [hadv.limits] at hrecord
    rw [hscope, hadv'.limits, hadv.limits] at hbehind
    have hbytes : bytes = pre ++ (bs ++ (rest ++ [])) := by
      rw [← hrest, ← hadv''.rest, ← hadv'.rest, ← hadv.rest]
      rfl
    have hoffset : u.tokens.offset = pre.length := hbefore.offset_eq.trans (Nat.zero_add _)
    rw [List.append_nil] at hbytes
    refine ⟨pre, bs, rest, u.scope, after, final.scope, hbytes, hrecord.offset_eq.trans hoffset,
      ?_, hheaded.resolve_left nofun, hbefore, hrecord, hbehind⟩
    rw [hstop, stop_eq hscope, hoffset]

namespace Amid

variable (h : Amid limits bytes front span behind pre bs rest s after t)

include h

theorem take_start : bytes.take span.entry.offset = pre := by
  rw [h.start, h.bytes, List.take_left]

theorem drop_start : bytes.drop span.entry.offset = bs ++ rest := by
  rw [h.start, h.bytes, List.drop_left]

theorem take_stop : bytes.take span.stop = pre ++ bs := by
  rw [h.stop, h.bytes, ← List.append_assoc, ← List.length_append, List.take_left]

theorem drop_stop : bytes.drop span.stop = rest := by
  rw [h.stop, h.bytes, ← List.append_assoc, ← List.length_append, List.drop_left]

/-- The scope in front of a record has the offset of the record. -/
theorem scope_offset : s.offset = span.entry.offset := by
  rw [h.start, h.before.offset_eq]
  exact Nat.zero_add _

/-- Streams begin with an empty dictionary, so what is said of distances holds in front of the
record. -/
theorem spaced : s.Spaced :=
  h.before.spaced (.inl rfl)

/-- The values of the stream are those of all its records. -/
theorem values_eq (hvalues : decodeValues bytes limits = .ok values) :
    values = Entry.values ((front ++ span :: behind).map Span.entry) := by
  have hrecords := h.before.append (.cons h.record h.onward)
  rw [← h.bytes, ← List.map_cons, ← List.map_append] at hrecords
  rw [decodeValues_of_stream ⟨hrecords, h.headed⟩] at hvalues
  cases hvalues
  rfl

/-- If the record is no header, the first record is in front of it. -/
theorem headed_front (hkind : span.entry.record.kind ≠ .header) (entries : List Entry) :
    front.map Span.entry ≠ [] ∧ Headed (front.map Span.entry ++ entries) := by
  have hheaded := h.headed
  cases front with
  | nil => exact absurd (hheaded span.entry rfl) hkind
  | cons first front => exact ⟨nofun, hheaded⟩

end Amid

end Decoder

end DictLog
