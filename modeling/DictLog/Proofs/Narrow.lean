/-
# Reading with a smaller dictionary

A reader whose dictionary lacks some strings at its end reads a value as before, up to the first
reference to one of them, and finds the index out of range there.  `Narrows` says so of a step that
is known to succeed with the larger dictionary.  Sequences keep it (`Narrows.bind`), and nothing in
a `value` record asks for more of a dictionary than the string at an index; so it holds of such a
record as a whole (`narrowed_nextRecord`).
-/
import DictLog.Proofs.Skipping

namespace DictLog

open Step

namespace Decoder

variable {σ α β : Type} {small : Dictionary} {d d' : Decoder σ}
  {m : EStateM Fault (Decoder σ) α}

/-- The decoder with another dictionary. -/
def withDictionary (dictionary : Dictionary) (d : Decoder σ) : Decoder σ :=
  { d with dictionary }

/-! ## 1. Steps -/

/-- What becomes of a step that succeeded, with a smaller dictionary. -/
inductive Narrowed (small : Dictionary) (a : α) (d' : Decoder σ) :
    EStateM.Result Fault (Decoder σ) α → Prop
  | same : Narrowed small a d' (.ok a (d'.withDictionary small))
  | missing {index : Nat} {e : Decoder σ} (h : small.size ≤ index) :
      Narrowed small a d' (.error (.indexOutOfRange index small.size) e)

/-- Where the step succeeds with a larger dictionary, it leaves the dictionary alone, and does the
same with the smaller one up to a reference that this has no string for. -/
def Narrows (small : Dictionary) (m : EStateM Fault (Decoder σ) α) : Prop :=
  ∀ d a d', small.toList <+: d.dictionary.toList → m d = .ok a d' →
    d'.dictionary = d.dictionary ∧ Narrowed small a d' (m (d.withDictionary small))

namespace Narrows

theorem pure (a : α) : Narrows small (Pure.pure a : EStateM Fault (Decoder σ) α) := by
  intro d b d' _ h
  cases h
  exact ⟨rfl, .same⟩

theorem throw (fault : Fault) :
    Narrows small (MonadExcept.throw fault : EStateM Fault (Decoder σ) α) := by
  intro d b d' _ h
  cases h

/-- One step after the other.  The first leaves the dictionary alone, so the second begins where
there are more strings again. -/
theorem bind {f : α → EStateM Fault (Decoder σ) β} (hm : Narrows small m)
    (hf : ∀ a, Narrows small (f a)) : Narrows small (m >>= f) := by
  intro d b d'' hd h
  obtain ⟨a, d', ha, hb⟩ := bind_eq_ok.mp h
  obtain ⟨hkeep, hfirst⟩ := hm d a d' hd ha
  obtain ⟨hkeep', hsecond⟩ := hf a d' b d'' (hkeep ▸ hd) hb
  refine ⟨hkeep'.trans hkeep, ?_⟩
  generalize hr : m (d.withDictionary small) = r at hfirst
  cases hfirst with
  | same =>
    rw [bind_of_ok hr]
    exact hsecond
  | missing hle =>
    rw [bind_of_error hr]
    exact .missing hle

/-- What a step makes of the state it starts in must not depend on the dictionary. -/
theorem get {f : Decoder σ → EStateM Fault (Decoder σ) β} (hf : ∀ d, Narrows small (f d))
    (hsame : ∀ d : Decoder σ, f (d.withDictionary small) = f d) :
    Narrows small (MonadState.get >>= f) := by
  intro d b d' hd h
  obtain ⟨hkeep, hnarrowed⟩ := hf d d b d' hd h
  rw [get_bind_apply, hsame]
  exact ⟨hkeep, hnarrowed⟩

theorem ite {c : Prop} [Decidable c] {m' : EStateM Fault (Decoder σ) α} (h : Narrows small m)
    (h' : Narrows small m') : Narrows small (if c then m else m') := by
  split
  · exact h
  · exact h'

/-- A change of the decoder that has nothing to do with the dictionary. -/
theorem modified {change : Decoder σ → Decoder σ}
    (hkeep : ∀ d, (change d).dictionary = d.dictionary)
    (hsame : ∀ d, change (d.withDictionary small) = (change d).withDictionary small) :
    Narrows small (modify change) := by
  intro d b d' _ h
  cases h
  refine ⟨hkeep d, ?_⟩
  show Narrowed small _ _ (.ok PUnit.unit (change (d.withDictionary small)))
  rw [hsame]
  exact .same

/-- A step of the tokenizer, which knows no dictionary. -/
theorem onTokens (step : EStateM Fault (TokenStream σ) α) :
    Narrows small (Decoder.onTokens step) := by
  intro d a d' _ h
  obtain ⟨t, ht, rfl⟩ := onPart_eq_ok.mp h
  have hsmall : Decoder.onTokens step (d.withDictionary small) =
      .ok a (Decoder.withDictionary small { d with tokens := t }) :=
    onPart_eq_ok.mpr ⟨t, ht, rfl⟩
  rw [hsmall]
  exact ⟨rfl, .same⟩

end Narrows

/-! ## 2. Strings and scalars -/

theorem lookup_of_some {index : UInt64} {s : String}
    (h : d.dictionary.get? index.toNat = some s) : lookup index d = .ok s d := by
  rw [lookup, get_bind_apply]
  simp only [h, pure_apply]

/-- Looking up one that is not.  The fault names the size of the dictionary. -/
theorem lookup_of_none {index : UInt64} (h : d.dictionary.get? index.toNat = none) :
    lookup index d = .error (.indexOutOfRange index.toNat d.dictionary.size) d := by
  rw [lookup, get_bind_apply]
  simp only [h, throw_apply]

/-- The string at an index is the same, or is missing.  A smaller dictionary has the strings of the
larger one, at the same indices, as far as it goes. -/
theorem narrows_lookup (index : UInt64) :
    Narrows small (lookup index : EStateM Fault (Decoder σ) String) := by
  intro d s d' hd h
  cases hlarge : d.dictionary.get? index.toNat with
  | none =>
    rw [lookup_of_none hlarge] at h
    cases h
  | some t =>
    rw [lookup_of_some hlarge] at h
    cases h
    refine ⟨rfl, ?_⟩
    rcases Nat.lt_or_ge index.toNat small.size with hlt | hle
    · have hsmall : small.get? index.toNat = some s := by
        obtain ⟨rest, hrest⟩ := hd
        rw [← Dictionary.length_toList] at hlt
        rw [Dictionary.get?_eq, ← hrest, List.getElem?_append_left hlt] at hlarge
        rw [Dictionary.get?_eq, hlarge]
      rw [lookup_of_some (d := d.withDictionary small) hsmall]
      exact .same
    · have hsmall : small.get? index.toNat = none := by
        rw [← Dictionary.length_toList] at hle
        rw [Dictionary.get?_eq, List.getElem?_eq_none hle]
      rw [lookup_of_none (d := d.withDictionary small) hsmall]
      exact .missing hle

/-- Among the scalars, only a reference asks for a string, so the others do not depend on the
dictionary at all. -/
theorem narrows_scalar (offset : Nat) (token : Token) :
    Narrows small (scalar offset token : EStateM Fault (Decoder σ) Json) := by
  cases token with
  | negative magnitude =>
    rw [scalar, negated]
    split
    · exact .pure _
    · exact .throw _
  | double bits =>
    rw [scalar, finite]
    split
    · exact .pure _
    · exact .throw _
  | reference index => exact (narrows_lookup index).bind fun s => .pure _
  | null => exact .pure _
  | bool b => exact .pure _
  | natural n => exact .pure _
  | string s => exact .pure _
  | _ => exact .throw _

theorem narrows_tooDeep (offset : Nat) :
    Narrows small (tooDeep offset : EStateM Fault (Decoder σ) α) :=
  .get (fun _ => .throw _) (fun _ => rfl)

/-! ## 3. Tokens -/

variable [Feed σ]

/-- A token that is held is given out, and otherwise one is read.  The dictionary has no part in
either. -/
theorem narrows_advance : Narrows small (advance : EStateM Fault (Decoder σ) _) := by
  intro d p d' hd h
  cases hheld : d.lookahead with
  | none =>
    have hheld' : (d.withDictionary small).lookahead = none := hheld
    rw [advance_of_none hheld] at h
    rw [advance_of_none hheld']
    exact Narrows.onTokens _ d p d' hd h
  | some token =>
    have hall : ∀ dictionary : Dictionary, advance (d.withDictionary dictionary) =
        .ok (some token) (Decoder.withDictionary dictionary { d with lookahead := none }) := by
      intro dictionary
      simp only [advance, withDictionary, hheld]
    cases (hall d.dictionary).symm.trans h
    rw [hall small]
    exact ⟨rfl, .same⟩

theorem narrows_require : Narrows small (require : EStateM Fault (Decoder σ) _) := by
  refine narrows_advance.bind fun p => ?_
  cases p with
  | none => exact .throw _
  | some p => exact .pure p

theorem narrows_peek : Narrows small (peek : EStateM Fault (Decoder σ) _) := by
  refine narrows_require.bind fun p => .bind ?_ fun _ => .pure p
  exact .modified (fun _ => rfl) (fun _ => rfl)

theorem narrows_expectTerminator :
    Narrows small (expectTerminator : EStateM Fault (Decoder σ) _) := by
  refine narrows_require.bind fun p => ?_
  obtain ⟨offset, token⟩ := p
  cases token with
  | terminator => exact .pure ()
  | _ => exact .throw _

/-! ## 4. Values -/

theorem narrows_key : Narrows small (key : EStateM Fault (Decoder σ) String) := by
  refine narrows_require.bind fun p => ?_
  obtain ⟨offset, token⟩ := p
  cases token with
  | string s => exact .pure s
  | reference index => exact narrows_lookup index
  | _ => exact .throw _

/-- The parts of a container, up to its bracket.  The induction is on how often a part may be tried. -/
theorem narrows_partsUntil {close : Tag} {part : EStateM Fault (Decoder σ) α}
    (hpart : Narrows small part) (times : Nat) :
    ∀ parts, Narrows small (partsUntil close part times parts) := by
  induction times with
  | zero => exact fun _ => .throw _
  | succ times ih =>
    refine fun parts => narrows_peek.bind fun next => .ite ?_ ?_
    · exact (narrows_advance.bind fun _ => .pure ()).bind fun _ => .pure _
    · exact hpart.bind fun item => ih (item :: parts)

/-- A value, however deep it may nest.  The induction is on the room for it, as `valueWithin`
recurses on it. -/
theorem narrows_valueWithin (times room : Nat) :
    Narrows small (valueWithin times room : EStateM Fault (Decoder σ) Json) := by
  induction room with
  | zero =>
    refine narrows_require.bind fun p => ?_
    obtain ⟨offset, token⟩ := p
    cases token with
    | arrayStart => exact narrows_tooDeep offset
    | objectStart => exact narrows_tooDeep offset
    | _ => exact narrows_scalar offset _
  | succ room ih =>
    refine narrows_require.bind fun p => ?_
    obtain ⟨offset, token⟩ := p
    cases token with
    | arrayStart => exact (narrows_partsUntil ih times []).bind fun items => .pure _
    | objectStart =>
      have hpair (k : String) (v : Json) :
          Narrows small (pure (k, v) : EStateM Fault (Decoder σ) (String × Json)) :=
        .pure (k, v)
      have hmember := narrows_key.bind fun k => ih.bind fun v => hpair k v
      exact (narrows_partsUntil hmember times []).bind fun members => .pure _
    | _ => exact narrows_scalar offset _

/-! ## 5. Records of values -/

/-- A payload of a declared length.  Where it begins and ends does not depend on the dictionary. -/
theorem narrows_payload (offset length : Nat) :
    Narrows small (payload offset length : EStateM Fault (Decoder σ) Json) := by
  have hvalue : Narrows small (value : EStateM Fault (Decoder σ) Json) :=
    .get (fun _ => narrows_valueWithin _ _) (fun _ => rfl)
  refine .get (fun _ => hvalue.bind fun v => .get (fun _ => ?_) (fun _ => rfl)) (fun _ => rfl)
  exact .ite (.pure v) (.throw _)

/-- What stands behind the tag of a `value` record.  Other records are not said anything about: an
`add` record makes the dictionary larger. -/
theorem narrows_opened {token : Token} (htoken : token.tag = .value) (offset : Nat) :
    Narrows small (opened .decoded offset token : EStateM Fault (Decoder σ) Entry) := by
  cases token with
  | value backlink length =>
    have hrecord : Narrows small
        (valueRecord .decoded offset length : EStateM Fault (Decoder σ) Record) := by
      refine ((narrows_payload offset length).bind fun v => .pure _).bind fun v =>
        narrows_expectTerminator.bind fun _ => .bind ?_ fun _ => .pure _
      exact .modified (fun _ => rfl) (fun _ => rfl)
    exact hrecord.bind fun record => .pure _
  | bool b => cases b <;> cases htoken
  | _ => cases htoken

theorem narrows_recordAt {p : Placed} (hp : p.token.tag = .value) :
    Narrows small (recordAt .decoded p : EStateM Fault (Decoder σ) Entry) := by
  have hstarted : Narrows small (checkStarted p.token : EStateM Fault (Decoder σ) Unit) :=
    .get (fun _ => .ite (.pure ()) (.throw _)) (fun _ => rfl)
  have hmark : Narrows small (markRead : EStateM Fault (Decoder σ) Unit) :=
    .modified (fun _ => rfl) (fun _ => rfl)
  exact hstarted.bind fun _ => (narrows_opened hp p.offset).bind fun entry =>
    hmark.bind fun _ => .pure entry

/-- A `value` record that is read with a larger dictionary is read with a smaller one, too, or
refers to a string that this has not got. -/
theorem narrowed_nextRecord {d d' : Decoder Tape} {entry : Entry}
    (hd : small.toList <+: d.dictionary.toList)
    (h : nextRecord .decoded d = .ok (some entry) d') (hkind : entry.record.kind = .value) :
    Narrowed small (some entry) d' (nextRecord .decoded (d.withDictionary small)) := by
  rw [nextRecord_eq] at h ⊢
  obtain ⟨p, t, hp, h⟩ := bind_eq_ok.mp h
  cases p with
  | none => cases h
  | some p =>
    -- A record of that kind was opened by that tag, so the smaller dictionary is met by a `value`
    -- record as well.
    have htag : p.token.tag = .value := by
      obtain ⟨found, u, hfound, h⟩ := bind_eq_ok.mp h
      cases h
      obtain ⟨_, _, -, hfound⟩ := bind_eq_ok.mp hfound
      obtain ⟨opened, _, hopened, hfound⟩ := bind_eq_ok.mp hfound
      cases hfound
      exact Decidable.byContradiction fun hother => kind_of_opened hother hopened hkind
    obtain ⟨hkeep, hfirst⟩ := narrows_advance d _ t hd hp
    obtain ⟨-, hsecond⟩ := (narrows_recordAt htag).bind (fun entry => .pure (some entry))
      t (some entry) d' (hkeep ▸ hd) h
    generalize hr : advance (d.withDictionary small) = r at hfirst
    cases hfirst with
    | same =>
      rw [bind_of_ok hr]
      exact hsecond
    | missing hle =>
      rw [bind_of_error hr]
      exact .missing hle

end Decoder

end DictLog
