/-
# Tokens, as bytes say them

`Token.Body` says which bytes may stand behind the tag of a token: the digits of its number, the
content of its string, and what the head of a record has to agree with.  `next_eq_some` is the one
fact about reading tokens: a token is read exactly when its tag and its body stand at the front.

A `clear` or `add` token leaves a mark, the offset that later backlinks are measured from; no
other token changes anything but the tape.
-/
import DictLog.Proofs.Grammar

namespace DictLog

open OnTape Step

/-! ## 1. Bodies and marks -/

/-- The bytes that may stand behind the tag of a token.  The tag stands at `offset`, and `last` is
the offset of the last record that changed the dictionary. -/
def Token.Body (limits : Limits) (offset last : Nat) : Token → List UInt8 → Prop
  | .add backlink, bs => Varint.Spells bs backlink ∧ last + backlink = offset
  | .value backlink length, bs =>
    ∃ cs ds, (Varint.Spells cs backlink ∧ last + backlink = offset) ∧
      (Varint.Spells ds length ∧ length ≤ limits.maxPayloadLength) ∧ bs = cs ++ ds
  | .terminator, bs => bs = [0x0A]
  | .natural n, bs => Varint.Spells bs n.toNat
  | .negative n, bs => Varint.Spells bs n.toNat
  | .reference n, bs => Varint.Spells bs n.toNat
  | .double bits, bs => bs.length = 8 ∧ Double.ofLittleEndian bs = bits
  | .string s, bs =>
    ∃ cs content, Varint.Spells cs content.length ∧ content.length ≤ limits.maxStringLength ∧
      Utf8.decode content = .ok s ∧ bs = cs ++ content
  | _, bs => bs = []

/-- The tokens that open with a tag.  Each tag has its own shape, so a token is taken apart by
looking at its tag. -/
def Token.OpenedBy (token : Token) : Tag → Prop
  | .header => token = .header
  | .clear => token = .clear
  | .add => ∃ backlink, token = .add backlink
  | .value => ∃ backlink length, token = .value backlink length
  | .terminator => token = .terminator
  | .null => token = .null
  | .boolTrue => token = .bool true
  | .boolFalse => token = .bool false
  | .natural => ∃ n, token = .natural n
  | .negative => ∃ n, token = .negative n
  | .double => ∃ bits, token = .double bits
  | .string => ∃ s, token = .string s
  | .reference => ∃ n, token = .reference n
  | .arrayStart => token = .arrayStart
  | .arrayEnd => token = .arrayEnd
  | .objectStart => token = .objectStart
  | .objectEnd => token = .objectEnd

/-- A token has the shape that its tag calls for.  Proofs that know a tag use this to find the token
behind it, where a `cases` on the token would leave all of them. -/
theorem Token.openedBy_of_tag {token : Token} {tag : Tag} (h : token.tag = tag) :
    token.OpenedBy tag := by
  subst h
  cases token with
  | bool b => cases b <;> rfl
  | add b => exact ⟨b, rfl⟩
  | value b n => exact ⟨b, n, rfl⟩
  | natural n => exact ⟨n, rfl⟩
  | negative n => exact ⟨n, rfl⟩
  | double bits => exact ⟨bits, rfl⟩
  | string s => exact ⟨s, rfl⟩
  | reference n => exact ⟨n, rfl⟩
  | header => rfl
  | clear => rfl
  | terminator => rfl
  | null => rfl
  | arrayStart => rfl
  | arrayEnd => rfl
  | objectStart => rfl
  | objectEnd => rfl

namespace TokenStream

/-- The mark that a token at `offset` leaves. -/
def marked (offset : Nat) (s : TokenStream Tape) : Token → TokenStream Tape
  | .clear => { s with lastDictionary := offset }
  | .add _ => { s with lastDictionary := offset }
  | _ => s

/-- Reading bytes changes neither the limits nor the mark, so what a later byte has to agree with
can be said of the state in front. -/
theorem frame_of_reads {s s' : TokenStream Tape} {bs : List UInt8} (h : Reads s bs s') :
    s'.limits = s.limits ∧ s'.lastDictionary = s.lastDictionary := by
  rw [h.frame]
  exact ⟨rfl, rfl⟩

variable {α : Type} {P : List UInt8 → α → Prop} {s : TokenStream Tape}

theorem takes_onFeed {m : EStateM Fault Tape α} (h : Takes m P s.feed) : Takes (onFeed m) P s :=
  takes_onPart rfl (fun _ => rfl) h

theorem takes_varint (s : TokenStream Tape) :
    Takes varint (fun bs v => Varint.Spells bs v.toNat) s :=
  takes_onFeed (Varint.takes_varint s.feed)

/-- A varint whose number must meet a condition.  The reader sees 64 bits and the grammar a number;
they are the same number since a varint that is accepted fits. -/
theorem takes_varint_checked {f : UInt64 → EStateM Fault (TokenStream Tape) α} {c : Nat → Prop}
    {g : Nat → α} (hf : ∀ v s' bs, Reads s bs s' →
      Takes (f v) (fun ds a => c v.toNat ∧ ds = [] ∧ a = g v.toNat) s') :
    Takes (varint >>= f) (fun bs a => ∃ n, (Varint.Spells bs n ∧ c n) ∧ a = g n) s := by
  refine (Takes.bind (takes_varint s) fun v s' bs _ hr => hf v s' bs hr).congr fun bs a => ?_
  constructor
  · rintro ⟨v, cs, _, hv, ⟨hc, rfl, rfl⟩, rfl⟩
    rw [List.append_nil]
    exact ⟨v.toNat, ⟨hv, hc⟩, rfl⟩
  · rintro ⟨n, ⟨hn, hc⟩, rfl⟩
    have hv : (UInt64.ofNat n).toNat = n := UInt64.toNat_ofNat_of_lt' hn.lt_size
    exact ⟨UInt64.ofNat n, bs, [], by rwa [hv], ⟨by rwa [hv], rfl, by rw [hv]⟩,
      (List.append_nil bs).symm⟩

/-! ## 2. What belongs to a tag -/

/-- A backlink is a varint that leads from the offset back to the mark, and nothing else is accepted
for it. -/
theorem takes_backlink (offset : Nat) (s : TokenStream Tape) :
    Takes (backlink offset)
      (fun bs n => Varint.Spells bs n ∧ s.lastDictionary + n = offset) s := by
  refine (takes_varint_checked (c := fun n => s.lastDictionary + n = offset) (g := id)
    fun v s' bs hr => Takes.get ?_).congr fun bs n => ?_
  · rw [(frame_of_reads hr).2]
    exact Takes.checked _ _
  · constructor
    · rintro ⟨n, hn, rfl⟩
      exact hn
    · intro hn
      exact ⟨n, hn, rfl⟩

/-- So many bytes that are UTF-8 are a text of that length.  If they are not, all of them have been
taken, and the fault is found then. -/
theorem takes_textOfLength (length : Nat) (s : TokenStream Tape) :
    Takes (textOfLength length)
      (fun bs str => bs.length = length ∧ Utf8.decode bs = .ok str) s := by
  refine (Takes.bind (R := fun content ds str => ds = [] ∧ Utf8.decode content = .ok str)
    (takes_onFeed (Tape.takes_take length s.feed)) fun content s' bs _ _ => ?_).congr ?_
  · cases h : Utf8.decode content with
    | ok str =>
      refine (Takes.pure str).congr fun ds a => and_congr_right fun _ => ?_
      rw [Except.ok.injEq]
      exact eq_comm
    | error f => exact (Takes.throw _).congr fun ds a => by simp
  · intro bs str
    constructor
    · rintro ⟨_, cs, ds, ⟨rfl, hlen⟩, ⟨rfl, h⟩, rfl⟩
      rw [List.append_nil]
      exact ⟨hlen, h⟩
    · rintro ⟨hlen, h⟩
      exact ⟨bs, bs, [], ⟨rfl, hlen⟩, ⟨rfl, h⟩, (List.append_nil bs).symm⟩

/-- A string in full is its length, within the limit, and behind it so many bytes of UTF-8.  The
limit is checked before any of these are read. -/
theorem takes_text (offset : Nat) (s : TokenStream Tape) :
    Takes (text offset) (fun bs str => (Token.string str).Body s.limits offset s.lastDictionary bs)
      s := by
  refine (Takes.bind (R := fun length ds str => ¬ s.limits.maxStringLength < length.toNat ∧
    ds.length = length.toNat ∧ Utf8.decode ds = .ok str)
    (takes_varint s) fun length s' bs _ hr => Takes.get ?_).congr fun bs str => ?_
  · rw [(frame_of_reads hr).1]
    exact Takes.guarded (takes_textOfLength _ s')
  · constructor
    · rintro ⟨length, cs, content, hcs, ⟨hlim, hlen, h⟩, rfl⟩
      exact ⟨cs, content, by rwa [hlen], by omega, h, rfl⟩
    · rintro ⟨cs, content, hcs, hlim, h, rfl⟩
      have hv : (UInt64.ofNat content.length).toNat = content.length :=
        UInt64.toNat_ofNat_of_lt' hcs.lt_size
      exact ⟨UInt64.ofNat content.length, cs, content, by rwa [hv],
        ⟨by rw [hv]; omega, hv.symm, h⟩, rfl⟩

/-- The head of a `value` record is its backlink and a length within the limit; the payload is not
part of it. -/
theorem takes_valueHead (offset : Nat) (s : TokenStream Tape) :
    Takes (valueHead offset)
      (fun bs token => token.tag = .value ∧ token.Body s.limits offset s.lastDictionary bs) s := by
  refine (Takes.bind (R := fun backlink ds token => ∃ length,
    (Varint.Spells ds length ∧ length ≤ s.limits.maxPayloadLength) ∧
      token = .value backlink length)
    (takes_backlink offset s) fun backlink s' bs _ hr => ?_).congr fun bs token => ?_
  · refine takes_varint_checked (c := (· ≤ s.limits.maxPayloadLength)) fun length s'' cs hr' =>
      Takes.get ?_
    rw [(frame_of_reads hr').1, (frame_of_reads hr).1]
    refine (Takes.guarded (Takes.pure _)).congr fun ds token => ?_
    rw [Nat.not_lt]
  · constructor
    · rintro ⟨backlink, cs, ds, hcs, ⟨length, hds, rfl⟩, rfl⟩
      exact ⟨rfl, cs, ds, hcs, hds, rfl⟩
    · rintro ⟨htag, hbody⟩
      obtain ⟨backlink, length, rfl⟩ := Token.openedBy_of_tag htag
      obtain ⟨cs, ds, hcs, hds, rfl⟩ := hbody
      exact ⟨backlink, cs, ds, hcs, ⟨length, hds, rfl⟩, rfl⟩

/-- A terminator is complete with its line feed. -/
theorem takes_terminatorEnd (s : TokenStream Tape) :
    Takes terminatorEnd (fun bs token => token = .terminator ∧ bs = [0x0A]) s := by
  refine Takes.get ((Takes.bind (R := fun found ds token => found = 0x0A ∧ ds = [] ∧
    token = .terminator) (takes_onFeed (takes_requireByte s.feed)) fun found s' bs _ _ =>
      Takes.checked _ _).congr fun bs token => ?_)
  constructor
  · rintro ⟨found, _, ds, rfl, ⟨rfl, rfl, rfl⟩, rfl⟩
    exact ⟨rfl, rfl⟩
  · rintro ⟨rfl, rfl⟩
    exact ⟨0x0A, [0x0A], [], rfl, ⟨rfl, rfl, rfl⟩, rfl⟩

/-- A token that is made of one part takes what the part takes.  The tag tells which kind of token it
is, so no other one can be made of the bytes. -/
theorem takes_map_token {m : EStateM Fault (TokenStream Tape) α} (h : Takes m P s)
    {make : α → Token} {tag : Tag} {offset last : Nat}
    (hmake : ∀ a bs, P bs a ↔ (make a).Body s.limits offset last bs)
    (htag : ∀ a, (make a).tag = tag)
    (hinv : ∀ token : Token, token.tag = tag → ∃ a, token = make a) :
    Takes (m >>= fun a => pure (make a))
      (fun bs token => token.tag = tag ∧ token.Body s.limits offset last bs) s := by
  refine (h.map make).congr fun bs token => ?_
  constructor
  · rintro ⟨a, ha, rfl⟩
    exact ⟨htag a, (hmake a bs).mp ha⟩
  · rintro ⟨ht, hbody⟩
    obtain ⟨a, rfl⟩ := hinv token ht
    exact ⟨a, (hmake a bs).mpr hbody, rfl⟩

/-- A token that is a tag alone takes nothing more. -/
theorem takes_pure_token {token : Token} {offset last : Nat}
    (hbody : ∀ bs, bs = [] ↔ token.Body s.limits offset last bs)
    (hinv : ∀ other : Token, other.tag = token.tag → other = token) :
    Takes (pure token)
      (fun bs other => other.tag = token.tag ∧ other.Body s.limits offset last bs) s := by
  refine (Takes.pure token).congr fun bs other => ?_
  constructor
  · rintro ⟨hbs, rfl⟩
    exact ⟨rfl, (hbody bs).mp hbs⟩
  · rintro ⟨htag, hother⟩
    obtain rfl := hinv other htag
    exact ⟨(hbody bs).mpr hother, rfl⟩

/-- What stands behind a tag that leaves no mark.  The two that leave one are taken together with it
in `body_eq_ok`, since `Takes` speaks of steps that change the tape alone. -/
theorem takes_body {tag : Tag} (hclear : tag ≠ .clear) (hadd : tag ≠ .add) (offset : Nat)
    (s : TokenStream Tape) :
    Takes (body offset tag)
      (fun bs token => token.tag = tag ∧ token.Body s.limits offset s.lastDictionary bs) s := by
  have hpure : ∀ token : Token, (∀ bs, bs = [] ↔ token.Body s.limits offset s.lastDictionary bs) →
      (∀ other : Token, other.tag = token.tag → other = token) → Takes (pure token)
      (fun bs other => other.tag = token.tag ∧
        other.Body s.limits offset s.lastDictionary bs) s :=
    fun token hbody hinv => takes_pure_token hbody hinv
  cases tag with
  | clear => exact absurd rfl hclear
  | add => exact absurd rfl hadd
  | value => exact takes_valueHead offset s
  | terminator =>
    refine (takes_terminatorEnd s).congr fun bs token => ?_
    constructor
    · rintro ⟨rfl, rfl⟩
      exact ⟨rfl, rfl⟩
    · rintro ⟨htag, hbody⟩
      obtain rfl : token = .terminator := Token.openedBy_of_tag htag
      exact ⟨rfl, hbody⟩
  | natural =>
    exact takes_map_token (takes_varint s) (fun _ _ => Iff.rfl) (fun _ => rfl)
      fun _ h => Token.openedBy_of_tag h
  | negative =>
    exact takes_map_token (takes_varint s) (fun _ _ => Iff.rfl) (fun _ => rfl)
      fun _ h => Token.openedBy_of_tag h
  | reference =>
    exact takes_map_token (takes_varint s) (fun _ _ => Iff.rfl) (fun _ => rfl)
      fun _ h => Token.openedBy_of_tag h
  | string =>
    exact takes_map_token (takes_text offset s) (fun _ _ => Iff.rfl) (fun _ => rfl)
      fun _ h => Token.openedBy_of_tag h
  | double =>
    refine ((takes_onFeed (takes_array 8 s.feed)).map _).congr fun bs token => ?_
    constructor
    · rintro ⟨_, ⟨rfl, hlen⟩, rfl⟩
      exact ⟨rfl, hlen, rfl⟩
    · rintro ⟨htag, hbody⟩
      obtain ⟨bits, rfl⟩ := Token.openedBy_of_tag htag
      obtain ⟨hlen, rfl⟩ := hbody
      exact ⟨bs, ⟨rfl, hlen⟩, rfl⟩
  | header => exact hpure .header (fun _ => Iff.rfl) fun _ h => Token.openedBy_of_tag h
  | null => exact hpure .null (fun _ => Iff.rfl) fun _ h => Token.openedBy_of_tag h
  | boolTrue => exact hpure (.bool true) (fun _ => Iff.rfl) fun _ h => Token.openedBy_of_tag h
  | boolFalse => exact hpure (.bool false) (fun _ => Iff.rfl) fun _ h => Token.openedBy_of_tag h
  | arrayStart => exact hpure .arrayStart (fun _ => Iff.rfl) fun _ h => Token.openedBy_of_tag h
  | arrayEnd => exact hpure .arrayEnd (fun _ => Iff.rfl) fun _ h => Token.openedBy_of_tag h
  | objectStart => exact hpure .objectStart (fun _ => Iff.rfl) fun _ h => Token.openedBy_of_tag h
  | objectEnd => exact hpure .objectEnd (fun _ => Iff.rfl) fun _ h => Token.openedBy_of_tag h

/-- A token is read behind its tag exactly when its body stands there; it leaves its mark.  Only two
tokens have one, and they are looked at apart from the others. -/
theorem body_eq_ok {offset : Nat} {tag : Tag} {s s' : TokenStream Tape} {token : Token} :
    body offset tag s = .ok token s' ↔
      token.tag = tag ∧ ∃ bs t, token.Body s.limits offset s.lastDictionary bs ∧ Reads s bs t ∧
        s' = t.marked offset token := by
  by_cases hclear : tag = .clear
  · subst hclear
    constructor
    · intro h
      change EStateM.Result.ok Token.clear (s.marked offset .clear) = _ at h
      cases h
      exact ⟨rfl, [], s, rfl, Reads.refl s, rfl⟩
    · rintro ⟨htag, _, t, hbody, hr, rfl⟩
      obtain rfl : token = .clear := Token.openedBy_of_tag htag
      obtain rfl := hbody
      rw [reads_nil_iff.mp hr]
      rfl
  by_cases hadd : tag = .add
  · subst hadd
    rw [body, bind_eq_ok]
    constructor
    · rintro ⟨backlink, t, hlink, h⟩
      obtain ⟨bs, hbs, hr⟩ := ((takes_backlink offset s).ok_iff backlink t).mp hlink
      change EStateM.Result.ok (Token.add backlink) (t.marked offset (.add backlink)) = _ at h
      cases h
      exact ⟨rfl, bs, t, hbs, hr, rfl⟩
    · rintro ⟨htag, bs, t, hbody, hr, rfl⟩
      obtain ⟨backlink, rfl⟩ := Token.openedBy_of_tag htag
      exact ⟨backlink, t, ((takes_backlink offset s).ok_iff backlink t).mpr ⟨bs, hbody, hr⟩, rfl⟩
  · -- No other token leaves a mark, so for these `Takes` says it all.
    have hmark : ∀ t : TokenStream Tape, token.tag = tag → t.marked offset token = t := by
      rintro t rfl
      cases token with
      | clear => exact absurd rfl hclear
      | add _ => exact absurd rfl hadd
      | _ => rfl
    rw [(takes_body hclear hadd offset s).ok_iff token s']
    constructor
    · rintro ⟨bs, ⟨htag, hbody⟩, hr⟩
      exact ⟨htag, bs, s', hbody, hr, (hmark s' htag).symm⟩
    · rintro ⟨htag, bs, t, hbody, hr, rfl⟩
      exact ⟨bs, ⟨htag, hbody⟩, (hmark t htag).symm ▸ hr⟩

/-- Behind its tag, a token whose body is cut off is truncated.  A `clear` token has no body, and an
`add` token is cut off in its backlink. -/
theorem body_cut {offset : Nat} {s : TokenStream Tape} {token : Token} {bs : List UInt8}
    (hbody : token.Body s.limits offset s.lastDictionary bs) (hcut : Cut s bs) :
    ∃ s', body offset token.tag s = .error .truncated s' := by
  by_cases hclear : token.tag = .clear
  · obtain rfl : token = .clear := Token.openedBy_of_tag hclear
    obtain rfl : bs = [] := hbody
    exact hcut.not_nil.elim
  by_cases hadd : token.tag = .add
  · obtain ⟨backlink, rfl⟩ := Token.openedBy_of_tag hadd
    obtain ⟨s', he⟩ := (takes_backlink offset s).cut bs backlink hbody hcut
    exact ⟨s', bind_of_error he _⟩
  · exact (takes_body hclear hadd offset s).cut bs token ⟨rfl, hbody⟩ hcut

/-! ## 3. Whole tokens -/

/-- Bytes are read by a token stream as they are by its tape. -/
theorem reads_feed_iff {s s' : TokenStream Tape} {bs : List UInt8} :
    Reads s bs s' ↔ Reads s.feed bs s'.feed ∧ s' = { s with feed := s'.feed } := by
  constructor
  · intro h
    exact ⟨⟨h.rest, h.offset, h.ending, rfl⟩, h.frame⟩
  · rintro ⟨h, hframe⟩
    exact ⟨h.rest, h.offset, h.ending, hframe⟩

theorem nextByte_eq_some {s s' : TokenStream Tape} {b : UInt8} :
    onFeed Feed.nextByte s = .ok (some b) s' ↔ Reads s [b] s' := by
  rw [onFeed, onPart_eq_ok, reads_feed_iff]
  constructor
  · rintro ⟨t, ht, rfl⟩
    exact ⟨Tape.nextByte_eq_some.mp ht, rfl⟩
  · rintro ⟨h, hframe⟩
    exact ⟨s'.feed, Tape.nextByte_eq_some.mpr h, hframe⟩

theorem nextByte_eq_none {s s' : TokenStream Tape} :
    onFeed Feed.nextByte s = .ok none s' ↔
      s.feed.rest = [] ∧ s.feed.ending = .clean ∧ s' = s := by
  rw [onFeed, onPart_eq_ok]
  constructor
  · rintro ⟨t, ht, rfl⟩
    obtain ⟨hrest, hend, rfl⟩ := Tape.nextByte_eq_none.mp ht
    exact ⟨hrest, hend, rfl⟩
  · rintro ⟨hrest, hend, rfl⟩
    exact ⟨s'.feed, Tape.nextByte_eq_none.mpr ⟨hrest, hend, rfl⟩, rfl⟩

/-- A token was opened by the byte of its tag, and then its body was read.  A byte that is no tag
opens none. -/
theorem opened_eq_ok {offset : Nat} {b : UInt8} {s s' : TokenStream Tape} {p : Placed} :
    opened offset b s = .ok p s' ↔
      p.offset = offset ∧ p.token.tag.byte = b ∧ body offset p.token.tag s = .ok p.token s' := by
  unfold opened
  cases htag : Tag.ofByte? b with
  | some tag =>
    have hbyte := Tag.ofByte?_eq_some_iff.mp htag
    simp only [bind_eq_ok]
    constructor
    · rintro ⟨token, t, h, ⟨⟩⟩
      obtain rfl : token.tag = tag := (body_eq_ok.mp h).1
      exact ⟨rfl, hbyte, h⟩
    · rintro ⟨rfl, hb, h⟩
      obtain rfl : p.token.tag = tag := Tag.byte_injective (hb.trans hbyte.symm)
      exact ⟨p.token, s', h, rfl⟩
  | none =>
    simp only [throw_apply, reduceCtorEq, false_iff]
    rintro ⟨-, rfl, -⟩
    rw [Tag.ofByte?_byte] at htag
    exact absurd htag (by simp)

/-- Scanning notes a failure and changes nothing else, so where it succeeds there is no difference. -/
theorem next_eq_ok {s s' : TokenStream Tape} {p : Option Placed} :
    next s = .ok p s' ↔ scan s = .ok p s' := by
  unfold next
  cases h : scan s <;> simp

/-- A token is read exactly when its tag and its body stand at the front of the tape.  It is found
where the stream stood, and leaves its mark. -/
theorem next_eq_some {s s' : TokenStream Tape} {p : Placed} :
    next s = .ok (some p) s' ↔
      p.offset = s.offset ∧ ∃ bs t, p.token.Body s.limits s.offset s.lastDictionary bs ∧
        Reads s (p.token.tag.byte :: bs) t ∧ s' = t.marked s.offset p.token := by
  rw [next_eq_ok, scan, get_bind_apply, bind_eq_ok]
  constructor
  · rintro ⟨_ | b, t, hb, h⟩
    · exact absurd h (by simp)
    · obtain ⟨q, u, hq, h⟩ := bind_eq_ok.mp h
      cases h
      have hr := nextByte_eq_some.mp hb
      obtain ⟨hoffset, rfl, hbody⟩ := opened_eq_ok.mp hq
      obtain ⟨-, bs, v, hbs, hrv, hs'⟩ := body_eq_ok.mp hbody
      -- The body was read behind the tag, where limits and mark are still those in front of it.
      rw [(frame_of_reads hr).1, (frame_of_reads hr).2] at hbs
      exact ⟨hoffset, bs, v, hbs, hr.trans hrv, hs'⟩
  · rintro ⟨hoffset, bs, v, hbs, hr, hs'⟩
    obtain ⟨t, hb, hrv⟩ := reads_cons_iff.mp hr
    rw [← (frame_of_reads hb).1, ← (frame_of_reads hb).2] at hbs
    refine ⟨some p.token.tag.byte, t, nextByte_eq_some.mpr hb, bind_eq_ok.mpr ⟨p, s', ?_, rfl⟩⟩
    exact opened_eq_ok.mpr ⟨hoffset, rfl, body_eq_ok.mpr ⟨rfl, bs, v, hbs, hrv, hs'⟩⟩

/-- There is no token exactly at a clean end. -/
theorem next_eq_none {s s' : TokenStream Tape} :
    next s = .ok none s' ↔ s.feed.rest = [] ∧ s.feed.ending = .clean ∧ s' = s := by
  rw [next_eq_ok, scan, get_bind_apply, bind_eq_ok]
  constructor
  · rintro ⟨_ | b, t, hb, h⟩
    · cases h
      exact nextByte_eq_none.mp hb
    · obtain ⟨q, u, hq, h⟩ := bind_eq_ok.mp h
      cases h
  · intro h
    exact ⟨none, s', nextByte_eq_none.mpr h, rfl⟩

/-- A token whose tag is followed by something faulty is faulty. -/
theorem next_of_error {s t u : TokenStream Tape} {tag : Tag} {fault : Fault}
    (hr : Reads s [tag.byte] t) (h : body s.offset tag t = .error fault u) :
    ∃ s', next s = .error fault s' := by
  have hscan : scan s = .error fault u := by
    rw [scan, get_bind_apply, bind_of_ok (nextByte_eq_some.mpr hr)]
    refine bind_of_error ?_ _
    rw [opened, Tag.ofByte?_byte]
    exact bind_of_error h _
  rw [next, hscan]
  exact ⟨_, rfl⟩

/-- A token that is cut off behind its first byte is truncated.  In front of it there would be a
clean end (`next_eq_none`), which is why something has to be left. -/
theorem next_cut {s : TokenStream Tape} {token : Token} {bs : List UInt8}
    (hbody : token.Body s.limits s.offset s.lastDictionary bs)
    (hcut : Cut s (token.tag.byte :: bs)) (hne : s.feed.rest ≠ []) :
    ∃ s', next s = .error .truncated s' := by
  rw [← List.singleton_append] at hcut
  rcases hcut.split with h | ⟨t, hr, h⟩
  · exact absurd h.rest_eq_nil hne
  · rw [← (frame_of_reads hr).1, ← (frame_of_reads hr).2] at hbody
    obtain ⟨u, he⟩ := body_cut hbody h
    exact next_of_error hr he

end TokenStream

end DictLog
