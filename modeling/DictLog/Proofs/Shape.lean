/-
# The shape of every stream that is written

Whatever is asked of an encoder, and whether or not it is refused, what it has emitted is a header, a
`clear` record, and records of which each `add` record stands right in front of a `value` record
(`exists_shaped_run`).  `Shaped` says so, and more: an `add` record announces at least one string,
none that its epoch has announced before, and no payload refers to a string that its epoch has not
announced.

A payload is taken apart without any reader for that, into the pieces that it is made of (`Piece`);
there is one way to do so (`Sequence.piece_unique`).
-/
import DictLog.Proofs.Announced

namespace DictLog

/-! ## 1. The pieces of a payload -/

namespace Grammar

/-- What stands behind a tag within a payload, and the index if that is a reference. -/
inductive Trails : Tag → List UInt8 → Option Nat → Prop
  | null : Trails .null [] none
  | boolTrue : Trails .boolTrue [] none
  | boolFalse : Trails .boolFalse [] none
  | arrayStart : Trails .arrayStart [] none
  | arrayEnd : Trails .arrayEnd [] none
  | objectStart : Trails .objectStart [] none
  | objectEnd : Trails .objectEnd [] none
  | natural {digits : List UInt8} {n : Nat} (groups : Varint.Groups digits n) :
      Trails .natural digits none
  | negative {digits : List UInt8} {n : Nat} (groups : Varint.Groups digits n) :
      Trails .negative digits none
  | double {content : List UInt8} (length : content.length = 8) : Trails .double content none
  | string {digits content : List UInt8} (groups : Varint.Groups digits content.length) :
      Trails .string (digits ++ content) none
  | reference {digits : List UInt8} {index : Nat} (groups : Varint.Groups digits index) :
      Trails .reference digits (some index)

/-- A piece of a payload: a tag and what stands behind it. -/
inductive Piece : List UInt8 → Option Nat → Prop
  | intro {tag : Tag} {bs : List UInt8} {index : Option Nat} (h : Trails tag bs index) :
      Piece (tag.byte :: bs) index

variable {tag : Tag} {bs cs x y : List UInt8} {i j : Option Nat} {is js : List (Option Nat)}

/-- Behind a tag, the bytes say where the piece ends: by their number, by a length, or by a last
group. -/
theorem Trails.unique (h : Trails tag bs i) (k : Trails tag cs j) (heq : bs ++ x = cs ++ y) :
    bs = cs ∧ i = j := by
  cases h with
  | natural hn =>
    cases k with
    | natural hm => exact ⟨(hn.unique hm heq).1, rfl⟩
  | negative hn =>
    cases k with
    | negative hm => exact ⟨(hn.unique hm heq).1, rfl⟩
  | double hlength =>
    cases k with
    | double hlength' => exact ⟨(List.append_inj heq (hlength.trans hlength'.symm)).1, rfl⟩
  | string hn =>
    cases k with
    | string hm =>
      rw [List.append_assoc, List.append_assoc] at heq
      obtain ⟨rfl, hlength⟩ := hn.unique hm heq
      obtain ⟨rfl, -⟩ := List.append_inj (List.append_cancel_left heq) hlength
      exact ⟨rfl, rfl⟩
  | reference hn =>
    cases k with
    | reference hm =>
      obtain ⟨rfl, rfl⟩ := hn.unique hm heq
      exact ⟨rfl, rfl⟩
  | _ =>
    cases k
    exact ⟨rfl, rfl⟩

/-- A piece is told by its bytes: the tag by the first of them, and its end by those behind it. -/
theorem Piece.unique (h : Piece bs i) (k : Piece cs j) (heq : bs ++ x = cs ++ y) :
    bs = cs ∧ i = j := by
  obtain ⟨h⟩ := h
  obtain ⟨k⟩ := k
  obtain ⟨hbyte, hrest⟩ := List.cons.inj heq
  obtain rfl := Tag.byte_injective hbyte
  obtain ⟨rfl, rfl⟩ := h.unique k hrest
  exact ⟨rfl, rfl⟩

/-- A piece has a tag at least. -/
theorem Piece.ne_nil (h : Piece bs i) : bs ≠ [] := by
  cases h
  exact List.cons_ne_nil _ _

/-- There is one way to take a payload apart, as each piece is told by its tag and ends where its
bytes say. -/
theorem Sequence.piece_unique (h : Sequence Piece bs is) :
    ∀ {js : List (Option Nat)}, Sequence Piece bs js → is = js := by
  induction h with
  | nil =>
    intro js k
    generalize hnil : ([] : List UInt8) = cs at k
    cases k with
    | nil => rfl
    | cons head _ => exact absurd (List.append_eq_nil_iff.mp hnil.symm).1 head.ne_nil
  | cons head _ ih =>
    intro js k
    generalize hbytes : (_ ++ _ : List UInt8) = all at k
    cases k with
    | nil => exact absurd (List.append_eq_nil_iff.mp hbytes).1 head.ne_nil
    | cons head' tail =>
      obtain ⟨rfl, rfl⟩ := head.unique head' hbytes
      obtain rfl := List.append_cancel_left hbytes
      rw [ih tail]

/-- Parts one after the other, and others behind them. -/
theorem Sequence.append {α : Type} {P : List UInt8 → α → Prop} {as others : List α}
    (h : Sequence P bs as) (k : Sequence P cs others) : Sequence P (bs ++ cs) (as ++ others) := by
  induction h with
  | nil => exact k
  | cons head _ ih =>
    rw [List.append_assoc]
    exact .cons head ih

theorem Sequence.single {α : Type} {P : List UInt8 → α → Prop} {a : α} (h : P bs a) :
    Sequence P bs [a] := by
  have hcons := Sequence.cons h Sequence.nil
  rwa [List.append_nil] at hcons

end Grammar

/-! ## 2. References in what is written -/

namespace Wire

open Grammar

/-- The bytes are pieces, and all references among them are below a size. -/
structure RefersBelow (size : Nat) (bs : List UInt8) : Prop where
  pieces : ∃ found, Sequence Piece bs found
  below : ∀ {found : List (Option Nat)}, Sequence Piece bs found →
    ∀ index, some index ∈ found → index < size

variable {size : Nat} {bs cs : List UInt8} {found : List (Option Nat)}

/-- It is enough to look at one way to take the bytes apart, since there is no other. -/
theorem RefersBelow.of_pieces (h : Sequence Piece bs found)
    (hbelow : ∀ index, some index ∈ found → index < size) : RefersBelow size bs := by
  refine ⟨⟨found, h⟩, fun k => ?_⟩
  obtain rfl := h.piece_unique k
  exact hbelow

theorem refersBelow_nil (size : Nat) : RefersBelow size [] :=
  .of_pieces .nil nofun

/-- References stay in range when bytes are put together. -/
theorem RefersBelow.append (h : RefersBelow size bs) (k : RefersBelow size cs) :
    RefersBelow size (bs ++ cs) := by
  obtain ⟨found, hpieces⟩ := h.pieces
  obtain ⟨more, hmore⟩ := k.pieces
  refine .of_pieces (hpieces.append hmore) fun index hindex => ?_
  exact (List.mem_append.mp hindex).elim (h.below hpieces index) (k.below hmore index)

theorem refersBelow_piece (size : Nat) (h : Piece bs none) : RefersBelow size bs := by
  refine .of_pieces (.single h) fun index hindex => ?_
  exact nomatch List.mem_singleton.mp hindex

theorem refersBelow_reference {index : Nat} (h : index < size) :
    RefersBelow size (Tag.reference.byte :: Varint.encode index) := by
  refine .of_pieces (.single (.intro (.reference (Varint.groups_encode index)))) fun i hi => ?_
  obtain rfl := Option.some.inj (List.mem_singleton.mp hi)
  exact h

/-- A string in full is a piece, whatever characters are in it. -/
theorem piece_stringLiteral (s : String) : Piece (Wire.stringLiteral s) none :=
  .intro (.string (Varint.groups_encode _))

end Wire

namespace Lexicon

variable {l : Lexicon} {s : String} {role : Role}

/-- A string that cannot be looked up is not there. -/
theorem not_mem_of_lookup (h : l.lookup s = none) : s ∉ l.entries := by
  unfold lookup Dictionary.indexOf? at h
  rwa [List.idxOf?_eq_none_iff] at h

/-- No string enters the dictionary twice. -/
theorem nodup_see (h : l.entries.Nodup) : (l.see s role).2.entries.Nodup := by
  rcases see_cases l s role with ⟨i, -, hsee⟩ | ⟨hlookup, -, hsee⟩ | ⟨-, -, hsee⟩
  · rwa [hsee]
  · have hnew := not_mem_of_lookup hlookup
    rw [hsee, entries, Dictionary.toList_add, List.nodup_append]
    refine ⟨h, List.pairwise_singleton _ s, fun t ht u hu => ?_⟩
    obtain rfl := List.mem_singleton.mp hu
    exact fun heq => hnew (heq ▸ ht)
  · rwa [hsee]

end Lexicon

namespace Payload

open Wire

variable {l : Lexicon} {e : Emission Lexicon} {next : Lexicon → Emission Lexicon}
  {limit room : Nat}

/-- No string enters it twice while a value is written. -/
theorem nodup_write (limit room : Nat) (v : Json) (h : l.entries.Nodup) :
    (write limit room v l).state.entries.Nodup :=
  related_write (R := fun l m => l.entries.Nodup → m.entries.Nodup) (fun _ => id)
    (fun h k => k ∘ h) room v l (fun _ _ _ _ => Lexicon.nodup_see) h

/-- What was emitted refers to strings of the lexicon that it left, or of a larger one. -/
def Refers (e : Emission Lexicon) : Prop :=
  ∀ size, e.state.size ≤ size → RefersBelow size e.bytes

/-- One emission after another.  The lexicon may have grown in between, and what was in range stays
in range. -/
theorem Refers.andThen (h : Refers e) (hnext : Refers (next e.state))
    (hgrows : e.state.entries <+: (next e.state).state.entries) : Refers (e.andThen next) := by
  intro size hsize
  cases hok : e.outcome with
  | error fault =>
    rw [Emission.andThen_of_error hok] at hsize ⊢
    exact h size hsize
  | ok u =>
    rw [Emission.andThen_of_ok hok] at hsize ⊢
    have hlength := hgrows.length_le
    rw [Lexicon.length_entries, Lexicon.length_entries] at hlength
    exact (h size (Nat.le_trans hlength hsize)).append (hnext size hsize)

theorem refers_piece {bs : List UInt8} (h : Grammar.Piece bs none) (l : Lexicon) :
    Refers (.write bs l) :=
  fun size _ => refersBelow_piece size h

/-- A number is one piece. -/
theorem piece_number (n : Number) : Grammar.Piece (number n) none := by
  cases n with
  | double d => exact .intro (.double (Double.length_littleEndian _))
  | integer n =>
    rw [number]
    split
    · exact .intro (.natural (Varint.groups_encode _))
    · exact .intro (.negative (Varint.groups_encode _))

/-- A string is spelled in full, or by an index that the lexicon holds, be it one that has just been
given out. -/
theorem refers_string (role : Role) (s : String) (l : Lexicon) : Refers (string role s l) := by
  have hseen := Lexicon.seen_see l s role
  intro size hsize
  unfold string at hsize ⊢
  revert hsize hseen
  generalize l.see s role = result
  intro hseen hsize
  cases hseen with
  | known hindex =>
    have hlt := (List.getElem?_eq_some_iff.mp hindex).1
    rw [Lexicon.length_entries] at hlt
    exact refersBelow_reference (Nat.lt_of_lt_of_le hlt hsize)
  | @added sightings =>
    have hadded : Lexicon.size { l with dictionary := l.dictionary.add s, sightings } =
        l.size + 1 := by
      rw [← Lexicon.length_entries, Lexicon.entries, Dictionary.toList_add, List.length_append,
        Dictionary.length_toList]
      rfl
    exact refersBelow_reference (Nat.lt_of_lt_of_le (hadded ▸ Nat.lt_succ_self _) hsize)
  | passed => exact refersBelow_piece size (piece_stringLiteral s)

/-- What is enclosed by two tags. -/
theorem refers_enclosed {opening closing : Tag} (hopening : Grammar.Trails opening [] none)
    (hclosing : Grammar.Trails closing [] none) (h : Refers (next l))
    (hgrows : l.entries <+: (next l).state.entries) :
    Refers ((tag opening l).andThen fun l => (next l).andThen (tag closing)) := by
  have hinner : Refers ((next l).andThen (tag closing)) :=
    h.andThen (refers_piece (.intro hclosing) _) List.prefix_rfl
  exact (refers_piece (.intro hopening) l).andThen hinner
    (entries_andThen hgrows fun _ => List.prefix_rfl)

mutual

/-- A value refers to strings that its lexicon holds behind it, even if it cannot be written to
the end. -/
theorem refers_write : ∀ (room : Nat) (v : Json) (l : Lexicon), Refers (write limit room v l)
  | _, .null, l => refers_piece (.intro .null) l
  | _, .bool true, l => refers_piece (.intro .boolTrue) l
  | _, .bool false, l => refers_piece (.intro .boolFalse) l
  | _, .number n, l => refers_piece (piece_number n) l
  | _, .string s, l => refers_string .value s l
  | 0, .array _, _ => fun size _ => refersBelow_nil size
  | room + 1, .array items, l =>
    refers_enclosed .arrayStart .arrayEnd (refers_writeItems room items l)
      (entries_writeItems _ _ _ _)
  | 0, .object _, _ => fun size _ => refersBelow_nil size
  | room + 1, .object members, l =>
    refers_enclosed .objectStart .objectEnd (refers_writeMembers room members l)
      (entries_writeMembers _ _ _ _)

theorem refers_writeItems : ∀ (room : Nat) (items : List Json) (l : Lexicon),
    Refers (writeItems limit room items l)
  | _, [], _ => fun size _ => refersBelow_nil size
  | room, v :: rest, l => by
    rw [writeItems]
    exact (refers_write room v l).andThen (refers_writeItems room rest _)
      (entries_writeItems _ _ _ _)

/-- Members are written one by one, each its key and then its value. -/
theorem refers_writeMembers : ∀ (room : Nat) (members : List (String × Json)) (l : Lexicon),
    Refers (writeMembers limit room members l)
  | _, [], _ => fun size _ => refersBelow_nil size
  | room, (k, v) :: rest, l => by
    rw [writeMembers]
    have hgrows := fun m => entries_writeMembers limit room rest m
    exact (refers_string .key k l).andThen
      ((refers_write room v _).andThen (refers_writeMembers room rest _) (hgrows _))
      (entries_andThen (entries_write _ _ _ _) hgrows)

end

end Payload

/-! ## 3. Records in shape -/

namespace Wire

/-- Records behind the first `clear` record, where the epoch has announced these strings. -/
inductive Shaped : List String → List Draft → Prop
  | nil {announced : List String} : Shaped announced []
  | clear {announced : List String} {drafts : List Draft} (tail : Shaped [] drafts) :
      Shaped announced (.clear :: drafts)
  | value {announced : List String} {backlink : Nat} {payload : List UInt8} {drafts : List Draft}
      (below : RefersBelow announced.length payload) (tail : Shaped announced drafts) :
      Shaped announced (.value backlink payload :: drafts)
  | add {announced strings : List String} {backlink link : Nat} {payload : List UInt8}
      {drafts : List Draft} (some : strings ≠ []) (fresh : (announced ++ strings).Nodup)
      (tail : Shaped (announced ++ strings) (.value link payload :: drafts)) :
      Shaped announced (.add backlink strings :: .value link payload :: drafts)

/-- The payload of a record that has one. -/
def Draft.payload? : Draft → Option (List UInt8)
  | value _ payload => some payload
  | _ => none

end Wire

/-- What has been encoded, one record more included. -/
def EncodeStats.count (stats : EncodeStats) (draft : Wire.Draft) : EncodeStats :=
  match draft with
  | .header => { stats with bytesFramed := stats.bytesFramed + draft.bytes.length }
  | .clear => { stats with
      clearRecords := stats.clearRecords + 1
      bytesFramed := stats.bytesFramed + draft.bytes.length }
  | .add _ strings => { stats with
      addRecords := stats.addRecords + 1
      stringsInterned := stats.stringsInterned + strings.length
      bytesFramed := stats.bytesFramed + draft.bytes.length }
  | .value _ _ => { stats with
      valueRecords := stats.valueRecords + 1
      bytesFramed := stats.bytesFramed + draft.bytes.length }

namespace Encoder

open Wire

variable {e : Encoder} {m : Emission Encoder} {next : Encoder → Emission Encoder} {v : Json}
  {drafts more : List Draft}

/-- An encoder that has begun a stream, with its books in order and no string twice in its
dictionary. -/
structure Sound (e : Encoder) : Prop where
  started : e.started = true
  consistent : Consistent e
  nodup : e.lexicon.entries.Nodup

/-- What was emitted is these records, which are counted and go in front of others that are in shape
from there on. -/
structure Shapes (e : Encoder) (m : Emission Encoder) (drafts : List Draft) : Prop where
  bytes : m.bytes = drafts.flatMap Draft.bytes
  sound : Sound m.state
  stats : m.state.stats = drafts.foldl EncodeStats.count e.stats
  shaped : ∀ {rest : List Draft}, Shaped m.state.scope.dictionary rest →
    Shaped e.scope.dictionary (drafts ++ rest)

theorem shapes_skip (h : Sound e) : Shapes e (.skip e) [] :=
  ⟨rfl, h, rfl, id⟩

/-- What was emitted is in shape if its parts are. -/
theorem Shapes.andThen (h : Shapes e m drafts) (hok : m.outcome = .ok ())
    (k : Shapes m.state (next m.state) more) : Shapes e (m.andThen next) (drafts ++ more) := by
  rw [Emission.andThen_of_ok hok]
  refine ⟨?_, k.sound, ?_, fun hrest => ?_⟩
  · rw [List.flatMap_append, ← h.bytes, ← k.bytes]
  · rw [List.foldl_append, ← h.stats]
    exact k.stats
  · rw [List.append_assoc]
    exact h.shaped (k.shaped hrest)

/-- A `clear` record is in shape anywhere, and what follows begins an epoch. -/
theorem shapes_clear (hstarted : e.started = true) (h : Consistent e) :
    Shapes e e.clear [.clear] where
  bytes := (List.flatMap_singleton ..).symm
  sound := ⟨hstarted, h.clear, List.nodup_nil⟩
  stats := rfl
  shaped hrest := .clear hrest

/-- An epoch that is over is ended by such a record.  Either way there is no payload. -/
theorem shapes_renew (h : Sound e) : ∃ drafts, Shapes e e.renew drafts ∧
    drafts.filterMap Draft.payload? = [] := by
  rw [renew]
  split
  · exact ⟨_, shapes_clear h.started h.consistent, rfl⟩
  · exact ⟨[], shapes_skip h, rfl⟩

/-- Seeing the strings of a value, also of one that is refused then. -/
theorem Sound.seen (h : Sound e) (v : Json) : Sound (e.seen v) :=
  ⟨h.started, h.consistent.seen v, Payload.nodup_write _ _ v h.nodup⟩

/-- A value that is refused leaves no record, and what the next `add` record is about to announce. -/
theorem shapes_refused (h : Sound e) (v : Json) (fault : Fault) :
    Shapes e (.fail fault (e.seen v)) [] := by
  refine ⟨rfl, h.seen v, rfl, fun hrest => ?_⟩
  rw [← scope_seen h.consistent v]
  exact hrest

/-- Behind its announcements, an encoder has announced all that its lexicon holds. -/
theorem dictionary_announce (h : Consistent e) :
    e.announce.state.scope.dictionary = e.lexicon.entries := by
  obtain ⟨hentries, hall⟩ := lexicon_announce h
  rw [scope, hentries, hall, Lexicon.take_size]

theorem Sound.announce (h : Sound e) : Sound e.announce.state where
  started := (started_announce e).trans h.started
  consistent := h.consistent.announce
  nodup := by
    rw [(lexicon_announce h.consistent).1]
    exact h.nodup

/-- A `value` record, where all strings that it may refer to have been announced. -/
theorem shapes_emitValue (h : Sound e) {payload : List UInt8}
    (hbelow : RefersBelow e.scope.dictionary.length payload) :
    Shapes e (emitValue payload e) [.value e.backlink payload] where
  bytes := (List.flatMap_singleton ..).symm
  sound := ⟨h.started, h.consistent.emitValue payload, h.nodup⟩
  stats := rfl
  shaped hrest := .value hbelow hrest

/-- The record that announces the pending strings, and what it counts for. -/
theorem announce_of_pending (h : Consistent e) (hpending : e.lexicon.hasPending = true) :
    e.announce.bytes = (Draft.add e.backlink e.lexicon.pending).bytes ∧
      e.announce.state.stats = e.stats.count (.add e.backlink e.lexicon.pending) := by
  have hcount := length_pending h.announced
  have hadded : e.lexicon.pending.length = e.lexicon.size - e.lexicon.announced := by omega
  rw [announce, if_pos hpending, EncodeStats.count, hadded]
  exact ⟨rfl, rfl⟩

/-- The pending strings, if there are any, in an `add` record right in front of a `value` record.
There is no way for anything to come between the two. -/
theorem shapes_announce (h : Sound e) {payload : List UInt8}
    (hvalue : Shapes e.announce.state (emitValue payload e.announce.state)
      [.value e.announce.state.backlink payload]) :
    ∃ added, Shapes e (e.announce.andThen (emitValue payload))
        (added ++ [.value e.announce.state.backlink payload]) ∧
      added.filterMap Draft.payload? = [] := by
  have hdictionary := dictionary_announce h.consistent
  rw [Emission.andThen_of_ok (outcome_announce e)]
  by_cases hpending : e.lexicon.hasPending
  · obtain ⟨hbytes, hstats⟩ := announce_of_pending h.consistent hpending
    refine ⟨[.add e.backlink e.lexicon.pending], ⟨?_, hvalue.sound, ?_, fun hrest => ?_⟩, rfl⟩
    · rw [List.flatMap_append, List.flatMap_singleton, ← hbytes, ← hvalue.bytes]
    · have hcounted := hvalue.stats
      rw [hstats] at hcounted
      exact hcounted
    · have hnew := Lexicon.take_append_pending e.lexicon
      have htail := hvalue.shaped hrest
      -- The next epoch of strings is what was announced before, and the pending ones behind it.
      rw [hdictionary, ← hnew] at htail
      refine .add (List.ne_nil_of_length_pos ?_) ?_ htail
      · have hlt := of_decide_eq_true hpending
        have hcount := length_pending h.consistent.announced
        omega
      · show (e.lexicon.entries.take e.lexicon.announced ++ e.lexicon.pending).Nodup
        rw [hnew]
        exact h.nodup
  · have hskip : e.announce = .skip e := by
      rw [announce, if_neg hpending]
    rw [hskip] at hvalue ⊢
    exact ⟨[], hvalue, rfl⟩

/-- A value that is accepted, in its epoch: the strings that are new, if there are any, and its
record. -/
theorem shapes_written (h : Sound e) (v : Json) :
    ∃ drafts, Shapes e ((e.seen v).announce.andThen (emitValue (e.payload v).bytes)) drafts ∧
      drafts.filterMap Draft.payload? = [(e.payload v).bytes] := by
  have hseen := h.seen v
  have hbelow : RefersBelow (e.seen v).announce.state.scope.dictionary.length
      (e.payload v).bytes := by
    rw [dictionary_announce hseen.consistent, Lexicon.length_entries]
    exact Payload.refers_write _ v e.lexicon _ (Nat.le_refl _)
  obtain ⟨added, hshapes, hadded⟩ :=
    shapes_announce hseen (shapes_emitValue hseen.announce hbelow)
  refine ⟨_, ⟨hshapes.bytes, hshapes.sound, hshapes.stats, fun hrest => ?_⟩, ?_⟩
  · rw [← scope_seen h.consistent v]
    exact hshapes.shaped hrest
  · rw [List.filterMap_append, hadded]
    rfl

end Encoder

namespace Call

open Wire Encoder

variable {e : Encoder}

/-- The payload that an encoder writes when asked. -/
def payloads (e : Encoder) : Call → List (List UInt8)
  | put v =>
    match (e.put v).outcome with
    | .ok () => [(e.renew.state.payload v).bytes]
    | .error _ => []
  | clear => []

/-- The payloads that an encoder writes when asked for one after the other. -/
def allPayloads (e : Encoder) : List Call → List (List UInt8)
  | [] => []
  | call :: rest => call.payloads e ++ allPayloads (call.emit e).state rest

/-- What an encoder does when asked is records in shape, a value with its payload if it is
accepted. -/
theorem shapes_emit (h : Sound e) (call : Call) : ∃ drafts, Shapes e (call.emit e) drafts ∧
    drafts.filterMap Draft.payload? = call.payloads e := by
  cases call with
  | clear => exact ⟨_, shapes_clear h.started h.consistent, rfl⟩
  | put v =>
    have hput : e.put v = e.renew.andThen (Encoder.putValue v) := Encoder.put_eq h.started v
    have hrenew := outcome_renew e
    obtain ⟨first, hfirst, hnone⟩ := shapes_renew h
    have hboth : ∀ {second}, Shapes e.renew.state (Encoder.putValue v e.renew.state) second →
        Shapes e ((put v).emit e) (first ++ second) := by
      intro second hsecond
      rw [show (put v).emit e = e.put v from rfl, hput]
      exact hfirst.andThen hrenew hsecond
    have houtcome : (e.put v).outcome = (Encoder.putValue v e.renew.state).outcome := by
      rw [hput, Emission.andThen_of_ok hrenew]
    rw [payloads, houtcome]
    rw [putValue_eq] at hboth ⊢
    cases hpayload : (e.renew.state.payload v).outcome with
    | error fault =>
      rw [hpayload] at hboth
      refine ⟨_, hboth (shapes_refused hfirst.sound v fault), ?_⟩
      rw [List.append_nil, hnone]
      rfl
    | ok u =>
      rw [hpayload] at hboth
      obtain ⟨second, hsecond, hone⟩ := shapes_written hfirst.sound v
      refine ⟨_, hboth hsecond, ?_⟩
      rw [List.filterMap_append, hnone, hone]
      dsimp only
      rw [Emission.andThen_of_ok (outcome_announce _)]
      rfl

end Call

namespace Output

open Wire Encoder

variable {out : Output} {drafts : List Draft}

theorem sound_start (options : EncodeOptions) : Sound (start options).encoder :=
  ⟨rfl, consistent_start options, List.nodup_nil⟩

/-- Whatever is asked of an encoder, it emits records in shape, and one payload for each value that
it accepts. -/
theorem shapes_run (calls : List Call) : ∀ {out : Output}, Sound out.encoder → ∃ drafts,
    (out.run calls).bytes = out.bytes ++ drafts.flatMap Draft.bytes ∧
      Shapes out.encoder ⟨drafts.flatMap Draft.bytes, (out.run calls).encoder, .ok ()⟩ drafts ∧
      drafts.filterMap Draft.payload? = Call.allPayloads out.encoder calls := by
  induction calls with
  | nil =>
    intro out h
    exact ⟨[], (List.append_nil _).symm, shapes_skip h, rfl⟩
  | cons call rest ih =>
    intro out h
    obtain ⟨first, hfirst, hpayload⟩ := Call.shapes_emit h call
    obtain ⟨more, hbytes, hmore, hpayloads⟩ := @ih (out.step call) hfirst.sound
    refine ⟨first ++ more, ?_, ⟨rfl, hmore.sound, ?_, fun hrest => ?_⟩, ?_⟩
    · show ((out.step call).run rest).bytes = _
      rw [hbytes, List.flatMap_append, ← hfirst.bytes, ← List.append_assoc]
      rfl
    · rw [List.foldl_append, ← hfirst.stats]
      exact hmore.stats
    · rw [List.append_assoc]
      exact hfirst.shaped (hmore.shaped hrest)
    · rw [List.filterMap_append, hpayload, hpayloads]
      rfl

/-- **The shape of a stream.**  Whatever is asked of an encoder that has started, refused values
included, it has emitted a header, a `clear` record, and records in shape, with a payload for each
value that was accepted. -/
theorem exists_shaped_run (options : EncodeOptions) (calls : List Call) : ∃ drafts,
    ((start options).run calls).bytes =
        (Draft.header :: Draft.clear :: drafts).flatMap Draft.bytes ∧
      Shaped [] drafts ∧
      drafts.filterMap Draft.payload? = Call.allPayloads (start options).encoder calls := by
  obtain ⟨drafts, hbytes, hshapes, hpayloads⟩ := shapes_run calls (sound_start options)
  refine ⟨drafts, ?_, ?_, hpayloads⟩
  · rw [hbytes, List.flatMap_cons, List.flatMap_cons, ← List.append_assoc]
    rfl
  · have hshaped := hshapes.shaped .nil
    rwa [List.append_nil] at hshaped

end Output

end DictLog
