/-
# How far a declared length lets a record be read

A `value` record declares how long its payload is.  The decoder reads the value token by token and
compares the lengths behind it, so a container that is still open where the payload should end is
read on (`declared_length_exceeded`).  Nothing else makes a decoder read on: unless the payload is
only the beginning of a value, no token that starts at or beyond its end is asked for except the one
at the end itself (`declared_length_bounds`).

What carries this is said of the bytes in front of each token that a step asks for (`Asks`), and
holds whether or not the step fails: a reader of values asks for a token only while the bytes it has
read are `Unfinished`.  Each reader has such a lemma, as it has one that says what it accepts.
-/
import Mathlib.Data.Set.Subsingleton
import Mathlib.Logic.Function.Iterate
import DictLog.Proofs.Hostile
import DictLog.Proofs.Skipping

namespace DictLog

open OnTape Step

/-! ## 1. Asking for tokens -/

namespace TokenStream

section AnyFeed

variable {σ : Type} [Feed σ] {t : TokenStream σ} {first last place : Nat}

/-- The stream behind so many tokens, whether or not they could be read. -/
def asked (t : TokenStream σ) (times : Nat) : TokenStream σ :=
  (fun u => left (next u))^[times] t

theorem asked_add (t : TokenStream σ) (times more : Nat) :
    t.asked (times + more) = (t.asked times).asked more := by
  rw [asked, Nat.add_comm, Function.iterate_add_apply]
  rfl

/-- The places from `first` on and before `last` where tokens of the stream start. -/
def startsIn (t : TokenStream σ) (first last : Nat) : Set Nat :=
  {place | (∃ times, (t.asked times).offset = place) ∧ first ≤ place ∧ place < last}

theorem mem_startsIn : place ∈ t.startsIn first last ↔
    (∃ times, (t.asked times).offset = place) ∧ first ≤ place ∧ place < last :=
  Iff.rfl

variable [LawfulFeed σ] {limits : Limits} {floor length : Nat}

/-- Asking for tokens only moves forward. -/
theorem Spent.asked (h : Spent limits floor length t) (times : Nat) :
    Spent limits floor length (t.asked times) := by
  induction times with
  | zero => exact h
  | succ times ih =>
    rw [asked_add]
    exact keeps_next _ ih

/-- So a later token does not start in front of an earlier one. -/
theorem Spent.offset_asked_le (h : Spent limits floor length t) {times more : Nat}
    (hle : times ≤ more) : (t.asked times).offset ≤ (t.asked more).offset := by
  obtain ⟨further, rfl⟩ := Nat.exists_eq_add_of_le hle
  rw [asked_add]
  exact ((h.asked times).raise.asked further).feed.floor

end AnyFeed

variable {R R' : List UInt8 → Prop} {t u w : TokenStream Tape} {bs : List UInt8}

/-- Tokens were asked for from the one stream to the other, and `R` holds of the bytes in front of
each of them. -/
def Reaches (R : List UInt8 → Prop) (t u : TokenStream Tape) : Prop :=
  ∃ times, u = t.asked times ∧ ∀ k < times,
    ∃ bs, bs <+: t.feed.rest ∧ (t.asked k).offset = t.offset + bs.length ∧ R bs

namespace Reaches

theorem refl : Reaches R t t :=
  ⟨0, rfl, nofun⟩

theorem next (h : R []) : Reaches R t (left t.next) := by
  refine ⟨1, rfl, fun k hk => ?_⟩
  obtain rfl : k = 0 := Nat.lt_one_iff.mp hk
  exact ⟨[], List.nil_prefix, rfl, h⟩

/-- What holds in front of each token may be said more weakly. -/
theorem mono (h : Reaches R t u) (hle : ∀ bs, R bs → R' bs) : Reaches R' t u := by
  obtain ⟨times, hu, hR⟩ := h
  refine ⟨times, hu, fun k hk => ?_⟩
  obtain ⟨bs, hfront, hoffset, hbs⟩ := hR k hk
  exact ⟨bs, hfront, hoffset, hle bs hbs⟩

/-- Tokens were asked for from one stream to another and then on.  In front of the later ones there
are the bytes that were read in between. -/
theorem trans (h : Reaches R t u) (hrest : t.feed.rest = bs ++ u.feed.rest)
    (hoffset : u.offset = t.offset + bs.length) (k : Reaches (fun cs => R (bs ++ cs)) u w) :
    Reaches R t w := by
  obtain ⟨times, rfl, hR⟩ := h
  obtain ⟨more, rfl, hR'⟩ := k
  refine ⟨times + more, (asked_add t times more).symm, fun k hk => ?_⟩
  rcases Nat.lt_or_ge k times with hlt | hge
  · exact hR k hlt
  · obtain ⟨j, rfl⟩ := Nat.exists_eq_add_of_le hge
    obtain ⟨cs, hfront, hplace, hcs⟩ := hR' j (by omega)
    refine ⟨bs ++ cs, ?_, ?_, hcs⟩
    · rw [hrest]
      exact (List.prefix_append_right_inj bs).mpr hfront
    · rw [asked_add, hplace, hoffset, List.length_append, Nat.add_assoc]

/-- Where a token starts before the other stream, it was asked for. -/
theorem of_mem_startsIn {limits : Limits} {floor length first place : Nat} (h : Reaches R t u)
    (ht : Spent limits floor length t) (hplace : place ∈ t.startsIn first u.offset) :
    ∃ bs, bs <+: t.feed.rest ∧ place = t.offset + bs.length ∧ R bs := by
  obtain ⟨times, rfl, hR⟩ := h
  obtain ⟨⟨k, rfl⟩, -, hlt⟩ := hplace
  have hk : k < times := by
    by_contra hge
    exact absurd (ht.offset_asked_le (Nat.le_of_not_lt hge)) (Nat.not_le.mpr hlt)
  exact hR k hk

end Reaches

end TokenStream

/-! ## 2. Unfinished values -/

namespace Grammar

variable {α β : Type} {P : List UInt8 → α → Prop} {Q : List UInt8 → β → Prop} {bs : List UInt8}
  {limits : Limits} {dictionary : List String} {room : Nat}

/-- Something of `P` begins with the bytes and does not end with them. -/
def Unfinished (P : List UInt8 → α → Prop) (bs : List UInt8) : Prop :=
  ∃ more a, more ≠ [] ∧ P (bs ++ more) a

/-- What is a part of something is unfinished in it. -/
theorem Unfinished.within (h : Unfinished P bs) (front behind : List UInt8)
    (hQ : ∀ cs a, P cs a → ∃ b, Q (front ++ (cs ++ behind)) b) : Unfinished Q (front ++ bs) := by
  obtain ⟨more, a, hne, ha⟩ := h
  obtain ⟨b, hb⟩ := hQ _ a ha
  refine ⟨more ++ behind, b, by simp [hne], ?_⟩
  rwa [List.append_assoc, ← List.append_assoc bs]

/-- The beginning of what is unfinished is unfinished. -/
theorem Unfinished.take (h : Unfinished P bs) (n : Nat) : Unfinished P (bs.take n) := by
  obtain ⟨more, a, hne, ha⟩ := h
  refine ⟨bs.drop n ++ more, a, by simp [hne], ?_⟩
  rwa [← List.append_assoc, List.take_append_drop]

/-- Parts one after the other, and the tag that closes them. -/
def Closed (close : Tag) (P : List UInt8 → α → Prop) (bs : List UInt8) (items : List α) : Prop :=
  ∃ inner, Sequence P inner items ∧ bs = inner ++ [close.byte]

/-- Parts that are not closed are unfinished in their container. -/
theorem Unfinished.opened {first : UInt8} {close : Tag} (h : Unfinished (Closed close P) bs)
    (hQ : ∀ inner items, Sequence P inner items → ∃ b, Q (first :: (inner ++ [close.byte])) b) :
    Unfinished Q (first :: bs) := by
  refine h.within [first] [] fun cs items hcs => ?_
  obtain ⟨inner, hinner, rfl⟩ := hcs
  rw [List.append_nil]
  exact hQ inner items hinner

/-- A container that has no parts yet is unfinished. -/
theorem unfinished_closed (close : Tag) : Unfinished (Closed close P) [] :=
  ⟨[close.byte], [], List.cons_ne_nil _ _, [], .nil, rfl⟩

theorem unfinished_text : Unfinished (Text limits dictionary) [] := by
  have hempty : StringLiteral limits (Tag.string.byte :: (Varint.encode 0 ++ [])) "" :=
    ⟨Varint.spells_encode (by decide), Nat.zero_le _, Utf8.decode_encode ""⟩
  exact ⟨_, "", List.cons_ne_nil _ _, .literal hempty⟩

theorem unfinished_value : Unfinished (Value limits dictionary room) [] :=
  ⟨[Tag.null.byte], .null, List.cons_ne_nil _ _, .null⟩

/-- No value begins another.  So once a value is there nothing more is asked for, and where it ends
does not depend on how long it was said to be. -/
theorem Value.not_unfinished {v : Json} (h : Value limits dictionary room bs v) :
    ¬ Unfinished (Value limits dictionary room) bs := by
  rintro ⟨more, w, hne, hmore⟩
  let d : Decoder Tape :=
    { tokens := .ofFeed (Tape.ofBytes (bs ++ more)) limits, dictionary := .ofList dictionary }
  have hd : Decoder.Ready limits dictionary d.bound d :=
    Decoder.Ready.bounded ⟨rfl, rfl, Dictionary.toList_ofList _, Nat.lt_succ_self _⟩
  have hrest : (tape d).rest = bs ++ more := rfl
  obtain ⟨t, ht, -⟩ := Reads.exists_of_rest hrest
  obtain ⟨u, hu, -⟩ := Reads.exists_of_rest (hrest.trans (List.append_nil _).symm)
  -- A decoder reads one of the two, so that it cannot read the other.
  have hv := ((Decoder.takes_valueWithin room hd).ok_iff v t).mpr ⟨bs, h, ht⟩
  have hw := ((Decoder.takes_valueWithin room hd).ok_iff w u).mpr ⟨bs ++ more, hmore, hu⟩
  rw [hv] at hw
  cases hw
  have hlength := ht.offset.symm.trans hu.offset
  rw [List.length_append] at hlength
  exact hne (List.length_eq_zero_iff.mp (by omega))

end Grammar

/-! ## 3. What a decoder asks for -/

namespace Decoder

open Grammar TokenStream

variable {α β : Type} {m : EStateM Fault (Decoder Tape) α} {R R' : List UInt8 → Prop}
  {P : List UInt8 → α → Prop} {limits : Limits} {dictionary : List String} {bound : Nat}
  {d d' u : Decoder Tape} {bs : List UInt8} {offset link n : Nat}

/-- Whether or not it fails, the step only asks for tokens, and `R` holds of the bytes in front of
each of them. -/
def Asks (m : EStateM Fault (Decoder Tape) α) (R : List UInt8 → Prop) (d : Decoder Tape) : Prop :=
  Leaves (fun e => Reaches R d.tokens e.tokens) (m d)

namespace Asks

theorem of_keeps (h : ∀ I, Keeps I m) : Asks m R d :=
  h _ d .refl

theorem mono (h : Asks m R d) (hle : ∀ bs, R bs → R' bs) : Asks m R' d :=
  Leaves.mono h fun _ he => he.mono hle

theorem map (h : Asks m R d) (g : α → β) : Asks (m >>= fun a => pure (g a)) R d :=
  Leaves.bind h (fun _ he => he) fun _ _ _ he => he

/-- Behind what the first step has accepted, the second one asks.  In front of its tokens there are
the bytes of the first. -/
theorem bind {f : α → EStateM Fault (Decoder Tape) β} (hm : Takes m P d) (h : Asks m R d)
    (hf : ∀ a bs d', P bs a → Reads d bs d' → Asks (f a) (fun cs => R (bs ++ cs)) d') :
    Asks (m >>= f) R d := by
  refine Leaves.bind h (fun _ he => he) fun a d' ha hd' => ?_
  obtain ⟨bs, hbs, hr⟩ := (hm.ok_iff a d').mp ha
  exact Leaves.mono (hf a bs d' hbs hr) fun _ he => hd'.trans hr.rest hr.offset he

end Asks

/-- A step asks for one token, with nothing in front of it. -/
theorem asks_require (hd : d.lookahead = none) (hR : R []) : Asks require R d := by
  have hadvance : Asks advance R d := by
    rw [Asks, advance_of_none hd]
    exact Leaves.onPart (I := Reaches R d.tokens) (Reaches.next hR) fun _ he => he
  refine Leaves.bind hadvance (fun _ he => he) fun p d' _ hd' => ?_
  cases p <;> exact hd'

/-- A step that begins with a token asks for it, and then for what follows.  What has been read of
the token is in front of everything that is asked for later. -/
theorem asks_require_bind (hd : Ready limits dictionary bound d) (hR : R [])
    {f : Placed → EStateM Fault (Decoder Tape) α}
    (hf : ∀ p bs d', p.token.Body limits d.tokens.offset d.tokens.lastDictionary bs →
      Ready limits dictionary bound d' →
        Asks (f p) (fun cs => R (p.token.tag.byte :: (bs ++ cs))) d') :
    Asks (require >>= f) R d := by
  refine Leaves.bind (asks_require hd.lookahead hR) (fun _ he => he) fun p d' hp hd' => ?_
  obtain ⟨-, bs, t, hbody, hr, rfl⟩ := (advance_eq_some hd.lookahead).mp (require_eq_ok.mp hp)
  rw [hd.limits] at hbody
  have hmarked : ∀ token, (tape (t.marked d.tokens.offset token)) = tape t := fun token => by
    cases token <;> rfl
  have hrest := hr.rest
  have hoffset := hr.offset
  rw [← hmarked p.token] at hrest hoffset
  exact Leaves.mono (hf p bs _ hbody ((hd.reads hr).marked _ _)) fun _ he =>
    hd'.trans hrest hoffset he

theorem asks_expectTerminator (hd : d.lookahead = none) (hR : R []) :
    Asks expectTerminator R d := by
  refine Leaves.bind (asks_require hd hR) (fun _ he => he) fun p d' _ hd' => ?_
  obtain ⟨offset, token⟩ := p
  cases token <;> exact hd'

/-- A key takes one token. -/
theorem asks_key (hd : Ready limits dictionary bound d) :
    Asks key (Unfinished (Text limits dictionary)) d := by
  refine asks_require_bind hd unfinished_text fun p bs d' _ _ => .of_keeps fun I => ?_
  obtain ⟨offset, token⟩ := p
  cases token with
  | string s => exact .pure s
  | reference index => exact keeps_lookup index
  | _ => exact .throw _

/-- Until the closing tag has been read, the parts are unfinished.  The token that follows a part may
be that tag or open another part, and is asked for in either case. -/
theorem asks_partsUntil {close : Tag} {part : EStateM Fault (Decoder Tape) α}
    (hbegin : BeginsWithToken part)
    (hpart : ∀ d, Ready limits dictionary bound d → Takes part P d)
    (hasks : ∀ d, Ready limits dictionary bound d → Asks part (Unfinished P) d)
    (hopens : ∀ bs a, P bs a → OpensPart bs) (times : Nat) :
    ∀ {d : Decoder Tape} (parts : List α), times ≤ bound → Ready limits dictionary times d →
      Asks (partsUntil close part times parts) (Unfinished (Closed close P)) d := by
  obtain ⟨f, rfl⟩ := hbegin
  induction times with
  | zero => exact fun _ _ hd => absurd hd.unread (Nat.not_lt_zero _)
  | succ times ih =>
    intro d parts hle hd
    have hone := hd.mono hle
    rw [Asks, partsUntil_succ hd.lookahead]
    refine Leaves.bind (asks_require hd.lookahead (unfinished_closed close)) (fun _ he => he)
      fun p t hp ht => ?_
    split
    · exact ht
    · have hitem : Leaves (fun e => Reaches (Unfinished (Closed close P)) d.tokens e.tokens)
          (f p t) := by
        rw [← bind_of_ok hp f]
        refine (hasks d hone).mono fun bs hbs => hbs.within [] [close.byte] fun cs a ha => ?_
        exact ⟨[a], cs, by simpa using Sequence.cons ha .nil, rfl⟩
      -- Behind an item, the others are asked for in a container that has this item already.
      refine hitem.bind (fun _ he => he) fun item d' hd' hreach => ?_
      rw [← bind_of_ok hp f] at hd'
      obtain ⟨bs, hbs, hr⟩ := ((hpart d hone).ok_iff item d').mp hd'
      have hothers := ih (item :: parts) (Nat.le_of_succ_le hle)
        (hd.reads_lt (hopens bs item hbs).ne_nil hr)
      have hmore : ∀ cs, Unfinished (Closed close P) cs → Unfinished (Closed close P) (bs ++ cs) :=
        fun cs hcs => hcs.within bs [] fun ds items hds => by
          obtain ⟨inner, hinner, rfl⟩ := hds
          exact ⟨item :: items, bs ++ inner, .cons hbs hinner, by simp⟩
      exact Leaves.mono hothers fun _ he => hreach.trans hr.rest hr.offset (he.mono hmore)

/-- A member is unfinished until its value has been read.  While it is its key that is unfinished,
some value could still follow, and that is all it takes. -/
theorem asks_member {times room : Nat} (hd : Ready limits dictionary bound d)
    (hvalue : ∀ d, Ready limits dictionary bound d →
      Asks (valueWithin times room) (Unfinished (Value limits dictionary room)) d) :
    Asks (do
      let k ← key
      let v ← valueWithin times room
      return (k, v)) (Unfinished (Member limits dictionary room)) d := by
  refine Asks.bind (takes_key hd) ((asks_key hd).mono fun bs hbs => ?_) fun k bs d' hk hr => ?_
  · refine hbs.within [] [Tag.null.byte] fun cs k hk => ?_
    exact ⟨(k, .null), cs, _, hk, .null, rfl⟩
  · refine ((hvalue d' (hd.reads hr)).map (k, ·)).mono fun cs hcs => ?_
    exact hcs.within bs [] fun ds v hv => ⟨(k, v), bs, ds, (text_iff _ _).mpr hk, hv, by simp⟩

/-- A token of a value is asked for only while the value is unfinished.  Where containers may not
nest any deeper, the one token of a scalar is all that is asked for. -/
theorem asks_valueWithin {times : Nat} (room : Nat) :
    ∀ {d : Decoder Tape}, Ready limits dictionary times d →
      Asks (valueWithin times room) (Unfinished (Value limits dictionary room)) d := by
  induction room with
  | zero =>
    intro d hd
    refine asks_require_bind hd unfinished_value fun p bs d' _ _ => .of_keeps fun I => ?_
    obtain ⟨offset, token⟩ := p
    cases token with
    | arrayStart => exact keeps_tooDeep offset
    | objectStart => exact keeps_tooDeep offset
    | _ => exact keeps_scalar offset _
  | succ room ih =>
    intro d hd
    refine asks_require_bind hd unfinished_value fun p bs d' hbody hd' => ?_
    obtain ⟨offset, token⟩ := p
    cases token with
    | arrayStart =>
      obtain rfl : bs = [] := hbody
      have hparts : Asks (partsUntil .arrayEnd (valueWithin times room) times []) _ d' :=
        asks_partsUntil (beginsWithToken_valueWithin times room)
          (fun d hd => takes_valueWithin room hd) (fun d hd => ih hd) (fun _ _ h => h.opensPart)
          times [] (Nat.le_refl _) hd'
      exact (hparts.map Json.array).mono fun cs hcs => hcs.opened fun inner items hinner =>
        ⟨.array items, .array (items_iff.mpr hinner)⟩
    | objectStart =>
      obtain rfl : bs = [] := hbody
      have hparts : Asks (partsUntil .objectEnd _ times []) _ d' :=
        asks_partsUntil (beginsWithToken_key.bind _)
          (fun d hd => takes_member hd fun d hd => takes_valueWithin room hd)
          (fun d hd => asks_member hd fun d hd => ih hd) (fun _ _ h => h.opensPart)
          times [] (Nat.le_refl _) hd'
      refine (hparts.map fun members => Json.object (Members.ofList members)).mono fun cs hcs => ?_
      exact hcs.opened fun inner members hinner =>
        ⟨.object (Members.ofList members), .object (memberList_iff.mpr hinner)⟩
    | _ => exact .of_keeps fun I => keeps_scalar offset _

/-- A payload asks for the tokens of its value, and compares the length when these have been read. -/
theorem asks_payload (hd : Ready limits dictionary bound d) (offset length : Nat) :
    Asks (payload offset length)
      (Unfinished (Value limits dictionary limits.maxNestingDepth)) d := by
  have hvalue : Asks value (Unfinished (Value limits dictionary limits.maxNestingDepth)) d := by
    rw [← hd.limits]
    exact asks_valueWithin d.limits.maxNestingDepth (hd.limits ▸ hd.bounded)
  rw [Asks, payload, get_bind_apply]
  refine Leaves.bind hvalue (fun _ he => he) fun v d' _ hd' => ?_
  rw [get_bind_apply]
  split <;> exact hd'

/-- What a payload at this point may be, and the value that it denotes. -/
def Denotes (d : Decoder Tape) : List UInt8 → Json → Prop :=
  Value d.limits d.dictionary.toList d.limits.maxNestingDepth

/-- What may stand in front of a token behind the head of a record: a payload that is not finished,
or one of the declared length. -/
def Due (d : Decoder Tape) (n : Nat) (bs : List UInt8) : Prop :=
  Unfinished d.Denotes bs ∨ bs.length = n

/-- Behind its head, a `value` record asks for the tokens of its payload and then for a terminator,
which is due where the payload ends. -/
theorem asks_valueRecord (hd : d.lookahead = none) (offset n : Nat) :
    Asks (valueRecord .decoded offset n) (d.Due n) d := by
  have hready := ready_self hd
  have hread : Asks (payload offset n >>= fun v => expectTerminator >>= fun _ => pure v)
      (d.Due n) d := by
    refine Asks.bind (takes_payload hready offset n)
      ((asks_payload hready offset n).mono fun _ => .inl) fun v bs d' hv hr => ?_
    refine (asks_expectTerminator (hready.reads hr).lookahead (.inr ?_)).map fun _ => v
    rw [List.append_nil]
    exact hv.2
  rw [Asks, valueRecord_eq]
  exact Leaves.bind hread (fun _ he => he) fun _ _ _ he => he

/-! ## 4. What a declared length bounds -/

section Head

variable (h : advance d = .ok (some ⟨offset, .value link n⟩) u)

include h

/-- In front of a header there is no other record, so this one is refused unread. -/
theorem nextRecord_not_started (hstarted : u.started = false) :
    nextRecord .decoded d = .error .missingHeader u := by
  rw [nextRecord, bind_of_ok h]
  refine bind_of_error ?_ _
  rw [checkStarted, get_bind_apply, if_neg (by simp [hstarted])]
  rfl

/-- Behind its head there is the rest of the record. -/
theorem nextRecord_of_head (hstarted : u.started = true) :
    nextRecord .decoded d =
      (valueRecord .decoded offset n >>= fun record => markRead >>= fun _ =>
        pure (some ⟨offset, some link, record⟩)) u := by
  rw [nextRecord_of_advance h (.inl hstarted)]
  simp only [opened, bind_assoc, pure_bind]

/-- Whatever comes of it, behind its head a record only asks for tokens. -/
theorem reaches_nextRecord (hu : u.lookahead = none) :
    Reaches (u.Due n) u.tokens (left (nextRecord .decoded d)).tokens := by
  cases hstarted : u.started with
  | false =>
    rw [nextRecord_not_started h hstarted]
    exact .refl
  | true =>
    rw [nextRecord_of_head h hstarted]
    exact Leaves.bind (asks_valueRecord hu offset n) (fun _ he => he) fun _ _ _ he => he

/-- A record that is returned has a value of just the declared bytes, and its terminator.  The latter
is a token, which starts at the declared end. -/
theorem value_of_nextRecord (hu : u.lookahead = none) {found : Option Entry}
    (hnext : nextRecord .decoded d = .ok found d') :
    ∃ v, u.Denotes (u.tokens.feed.rest.take n) v ∧
      found = some ⟨offset, some link, .value n (some v)⟩ ∧
      d'.tokens.offset = u.tokens.offset + n + 2 ∧
      ∃ times, (u.tokens.asked times).offset = u.tokens.offset + n := by
  have hready := ready_self hu
  cases hstarted : u.started with
  | false =>
    rw [nextRecord_not_started h hstarted] at hnext
    cases hnext
  | true =>
    rw [nextRecord_of_head h hstarted] at hnext
    obtain ⟨record, t, hrecord, hnext⟩ := bind_eq_ok.mp hnext
    cases hnext
    obtain ⟨bs, v, t, hvalue, rfl, hr, rfl, rfl⟩ := (valueRecord_eq_ok hready).mp hrecord
    obtain ⟨w, hw, hterminator⟩ := hr.split
    have hrest : u.tokens.feed.rest = bs ++ w.tokens.feed.rest := hw.rest
    have hend : w.tokens.offset = u.tokens.offset + bs.length := hw.offset
    have hpayload : payload offset bs.length u = .ok v w :=
      ((takes_payload hready offset bs.length).ok_iff v w).mpr ⟨bs, ⟨hvalue, rfl⟩, hw⟩
    obtain ⟨times, hasked, -⟩ := Leaves.of_ok (asks_payload hready offset bs.length) hpayload
    rw [hrest, List.take_left, ← hend, hasked]
    exact ⟨v, hvalue, rfl, hasked ▸ hterminator.offset, times, rfl⟩

/-- A value of another length is read to its end, and refused there.  The length is compared when the
value has been read, and not while it is. -/
theorem nextRecord_of_other_length (hu : u.lookahead = none) (hstarted : u.started = true)
    {v : Json} (hfront : bs <+: u.tokens.feed.rest) (hvalue : u.Denotes bs v)
    (hne : bs.length ≠ n) :
    ∃ d', nextRecord .decoded d = .error (.payloadLength offset n bs.length) d' ∧
      d'.tokens.offset = u.tokens.offset + bs.length := by
  obtain ⟨rest, hrest⟩ := hfront
  obtain ⟨t, hr, -⟩ := Reads.exists_of_rest (s := u) hrest.symm
  have hoffset : t.tokens.offset = u.tokens.offset + bs.length := hr.offset
  have hread : value u = .ok v t :=
    ((takes_value (ready_self hu)).ok_iff v t).mpr ⟨bs, hvalue, hr⟩
  have hpayload : payload offset n u = .error (.payloadLength offset n bs.length) t := by
    rw [payload, get_bind_apply, bind_of_ok hread, get_bind_apply, hoffset, Nat.add_sub_cancel_left,
      if_neg hne]
    rfl
  refine ⟨t, ?_, hoffset⟩
  rw [nextRecord_of_head h hstarted]
  exact bind_of_error (bind_of_error (bind_of_error hpayload _) _) _

end Head

/-- Where tokens start that the next record asks for at or beyond the declared end of its payload;
its head ends at `u`. -/
def beyond (d u : Decoder Tape) (n : Nat) : Set Nat :=
  u.tokens.startsIn (u.tokens.offset + n) (left (nextRecord .decoded d)).tokens.offset

/-- What it means for the next record that its head, which ends at `u`, declares `n` bytes. -/
structure Bounds (d u : Decoder Tape) (offset link n : Nat) : Prop where
  /-- Behind its head, a record asks for tokens only. -/
  asked : ∃ times, (left (nextRecord .decoded d)).tokens = u.tokens.asked times
  /-- Unless these bytes are only the beginning of a value, a token that starts at or beyond their
  end starts at their end. -/
  finished : ¬ Unfinished u.Denotes (u.tokens.feed.rest.take n) →
    d.beyond u n ⊆ {u.tokens.offset + n}
  /-- If they are, the record is refused, -/
  refused : Unfinished u.Denotes (u.tokens.feed.rest.take n) →
    ∃ fault d', nextRecord .decoded d = .error fault d'
  /-- and tokens beyond their end are asked for only while the value is unfinished. -/
  unfinished : ∀ place ∈ d.beyond u n, place ≠ u.tokens.offset + n →
    ∃ bs, bs <+: u.tokens.feed.rest ∧ place = u.tokens.offset + bs.length ∧
      Unfinished u.Denotes bs
  /-- A record that is returned takes these bytes, of which they are a value that has no more nodes
  than bytes, and the terminator. -/
  returned : ∀ found d', nextRecord .decoded d = .ok found d' →
    ∃ v, u.Denotes (u.tokens.feed.rest.take n) v ∧ v.nodes ≤ n ∧
      found = some ⟨offset, some link, .value n (some v)⟩ ∧
      d.beyond u n = {u.tokens.offset + n} ∧ d'.tokens.offset = u.tokens.offset + n + 2
  /-- A value of another length is read to its end, and refused for its length. -/
  otherLength : ∀ bs v, bs <+: u.tokens.feed.rest → u.Denotes bs v → bs.length ≠ n →
    u.started = true →
    ∃ d', nextRecord .decoded d = .error (.payloadLength offset n bs.length) d' ∧
      d'.tokens.offset = u.tokens.offset + bs.length

/-- What a declared length means for a decoder within its limits, wherever it stands.  A token that
starts behind the declared end is asked for while the value is unfinished. -/
theorem bounds_of_inside {floor length : Nat} {stats : DecodeStats}
    (hu : Inside limits floor length stats u)
    (h : advance d = .ok (some ⟨offset, .value link n⟩) u) : Bounds d u offset link n := by
  have hreaches := reaches_nextRecord h hu.lookahead
  have hfinished : ¬ Unfinished u.Denotes (u.tokens.feed.rest.take n) →
      d.beyond u n ⊆ {u.tokens.offset + n} := by
    intro hfinished place hplace
    obtain ⟨bs, ⟨rest, hrest⟩, rfl, hbs | rfl⟩ := hreaches.of_mem_startsIn hu.tokens hplace
    · -- A token beyond the end was asked for in front of an unfinished value.  Its first `n` bytes
      -- are those that the payload should be, so these are unfinished, too.
      have htake : u.tokens.feed.rest.take n = bs.take n := by
        rw [← hrest, List.take_append_of_le_length (Nat.le_of_add_le_add_left hplace.2.1)]
      rw [htake] at hfinished
      exact absurd (hbs.take n) hfinished
    · -- Or it is the token at the end itself, the terminator.
      rfl
  refine ⟨?_, hfinished, fun hunfinished => ?_, ?_, ?_, ?_⟩
  · obtain ⟨times, hasked, -⟩ := hreaches
    exact ⟨times, hasked⟩
  · -- A record that is returned has a value of just these bytes, and no value begins another.
    cases hresult : nextRecord .decoded d with
    | error fault d' => exact ⟨fault, d', rfl⟩
    | ok found d' =>
      obtain ⟨v, hvalue, -⟩ := value_of_nextRecord h hu.lookahead hresult
      exact absurd hunfinished hvalue.not_unfinished
  · intro place hplace hne
    obtain ⟨bs, hfront, rfl, hbs | rfl⟩ := hreaches.of_mem_startsIn hu.tokens hplace
    · exact ⟨bs, hfront, rfl, hbs⟩
    · exact absurd rfl hne
  · intro found d' hnext
    obtain ⟨v, hvalue, hfound, hend, hstarts⟩ := value_of_nextRecord h hu.lookahead hnext
    have hshort : Encoder.Short u.limits u.dictionary.toList := by
      rw [hu.limits_eq]
      exact hu.short
    -- The dictionary is within its limits here, so the value is no larger than its payload.
    have hnodes := (hvalue.sized hshort).nodes
    refine ⟨v, hvalue, hnodes.trans (List.length_take_le _ _), hfound,
      (hfinished hvalue.not_unfinished).antisymm ?_, hend⟩
    rintro _ rfl
    refine ⟨hstarts, Nat.le_refl _, ?_⟩
    rw [hnext]
    exact lt_of_lt_of_eq (Nat.lt_add_of_pos_right Nat.two_pos) hend.symm
  · intro bs v hfront hvalue hne hstarted
    -- The length is compared when the whole value has been read, so the fault stands behind it.
    exact nextRecord_of_other_length h hu.lookahead hstarted hfront hvalue hne

/-- **What a declared length bounds.**  Whatever the bytes, and whatever has been asked before, also
after failures: the length that a record declares is within its limit, and bounds what is read of
the record unless the payload is only the beginning of a value. -/
theorem declared_length_bounds (bytes : List UInt8) (limits : Limits) (requests : List ItemRequest)
    {offset link n : Nat} {u : Decoder Tape}
    (h : advance ((ofFeed (Tape.ofBytes bytes) limits).behind requests) =
      .ok (some ⟨offset, .value link n⟩) u) :
    n ≤ limits.maxPayloadLength ∧
      Bounds ((ofFeed (Tape.ofBytes bytes) limits).behind requests) u offset link n := by
  have hgives : LawfulFeed.Gives (Tape.ofBytes bytes) bytes .clean := rfl
  have hd := Safe.behind requests (safe_ofFeed hgives limits)
  obtain ⟨-, _, _, _, -, ⟨-, hlimit⟩, -⟩ := token_of_advance hd.inside.lookahead h
  rw [hd.inside.limits_eq] at hlimit
  exact ⟨hlimit, bounds_of_inside ((keeps_advance _ hd.inside).of_ok h) h⟩

/-- A payload of one byte, and behind it the terminator. -/
theorem declared_length_bounds_null :
    let bytes := [0x48, 0x49, 0x01, 0x45, 0x0A, 0x43, 0x45, 0x0A, 0x56, 0x03, 0x01, 0x4E, 0x45,
      0x0A]
    let d := (ofFeed (Tape.ofBytes bytes) {}).behind [.record .decoded, .record .decoded]
    ∃ u found d', advance d = .ok (some ⟨8, .value 3 1⟩) u ∧
      nextRecord .decoded d = .ok found d' ∧ 1 ≤ ({} : Limits).maxPayloadLength ∧
      Bounds d u 8 3 1 :=
  ⟨_, _, _, rfl, rfl, declared_length_bounds _ _ _ rfl⟩

/-- A payload of one byte opens an array, which goes on behind its declared end. -/
theorem declared_length_exceeded :
    ¬ ∀ (bytes : List UInt8) (limits : Limits) (requests : List ItemRequest) (offset link n : Nat)
      (u : Decoder Tape),
      advance ((ofFeed (Tape.ofBytes bytes) limits).behind requests) =
        .ok (some ⟨offset, .value link n⟩) u →
      (beyond ((ofFeed (Tape.ofBytes bytes) limits).behind requests) u n).Subsingleton := by
  intro h
  have hone := h [0x48, 0x49, 0x01, 0x45, 0x0A, 0x43, 0x45, 0x0A, 0x56, 0x03, 0x01, 0x5B, 0x4E,
    0x4E, 0x4E, 0x5D, 0x45, 0x0A] {} [.record .decoded, .record .decoded] 8 3 1 _ rfl
  have htwo : 12 = 13 :=
    hone (mem_startsIn.mpr ⟨⟨1, rfl⟩, by decide +kernel, by decide +kernel⟩)
      (mem_startsIn.mpr ⟨⟨2, rfl⟩, by decide +kernel, by decide +kernel⟩)
  exact absurd htwo (by decide)

end Decoder

end DictLog
