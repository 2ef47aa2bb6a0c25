/-
# Values are read exactly by the grammar

A decoder that holds no token back reads a value exactly from the bytes that the grammar relates
to it, however many bytes follow (`takes_value`).  The way there is by tokens: `value_iff` says
that a value of the grammar is a token and what may follow it, and the decoder branches on just
that token.
-/
import DictLog.Proofs.Lookahead

namespace DictLog

open OnTape Step

namespace Decoder

variable {limits : Limits} {dictionary : List String} {bound : Nat} {d d' : Decoder Tape}

/-! ## 1. Scalars and keys -/

/-- Looking up a reference takes no bytes, and gives the string that stands at the index, if there
is one. -/
theorem takes_lookup (hd : Ready limits dictionary bound d) (index : UInt64) :
    Takes (lookup index) (fun bs s => dictionary[index.toNat]? = some s ∧ bs = []) d := by
  have hget : d.dictionary.get? index.toNat = dictionary[index.toNat]? := by
    rw [Dictionary.get?_eq, hd.dictionary]
  refine Takes.get ?_
  dsimp only
  rw [hget]
  cases dictionary[index.toNat]? with
  | none => exact (Takes.throw _).congr fun bs s => by simp
  | some str =>
    refine (Takes.pure str).congr fun bs s => ?_
    rw [Option.some.injEq]
    constructor
    · rintro ⟨rfl, rfl⟩
      exact ⟨rfl, rfl⟩
    · rintro ⟨rfl, rfl⟩
      exact ⟨rfl, rfl⟩

end Decoder

/-- The string that a token names. -/
def Token.Names (dictionary : List String) : Token → String → Prop
  | .string s, t => t = s
  | .reference index, t => dictionary[index.toNat]? = some t
  | _, _ => False

/-- The value that a token is, if it opens no container. -/
def Token.Scalar (dictionary : List String) : Token → Json → Prop
  | .null, v => v = .null
  | .bool b, v => v = .bool b
  | .natural n, v => v = .number (.integer (.ofWord n))
  | .negative magnitude, v => ∃ n : Integer, n.value = -magnitude.toNat ∧ v = .number (.integer n)
  | .double bits, v => ∃ x : Double, x.bits = bits ∧ v = .number (.double x)
  | .string s, v => v = .string s
  | .reference index, v => ∃ s, dictionary[index.toNat]? = some s ∧ v = .string s
  | _, _ => False

/-- A magnitude is negated exactly where the result is an integer that 64 bits hold; both bounds are
part of the type, so the value decides. -/
theorem Integer.negate?_eq_some {m : Nat} {n : Integer} :
    Integer.negate? m = some n ↔ n.value = -m := by
  unfold Integer.negate?
  split
  · rename_i h
    rw [Option.some.injEq]
    constructor
    · rintro rfl
      rfl
    · intro hn
      obtain ⟨value, lower, upper⟩ := n
      simp only at hn
      subst hn
      rfl
  · rename_i h
    simp only [reduceCtorEq, false_iff]
    intro hn
    have := n.lower
    omega

/-- Bits are taken for a double exactly where some double has them, which the bits of an infinity or
of no number have not. -/
theorem Double.ofBits?_eq_some {bits : UInt64} {x : Double} :
    Double.ofBits? bits = some x ↔ x.bits = bits := by
  constructor
  · intro h
    unfold Double.ofBits? at h
    split at h
    · cases h
      rfl
    · cases h
  · rintro rfl
    exact Double.ofBits?_bits x

namespace Decoder

variable {limits : Limits} {dictionary : List String} {bound : Nat} {d d' : Decoder Tape}

/-- A key takes the token that names it: a string in full, or a reference to one that the dictionary
has. -/
theorem takes_key (hd : Ready limits dictionary bound d) :
    Takes key (fun bs k => ∃ (token : Token) (cs : List UInt8),
      token.Body limits d.tokens.offset d.tokens.lastDictionary cs ∧
        token.Names dictionary k ∧ bs = token.tag.byte :: cs) d := by
  refine (takes_require (Q := fun token ds k => token.Names dictionary k ∧ ds = []) hd
    (fun p d' hd' => ?_) (fun _ _ h => h.1) (fun _ _ _ h => h.1)).congr fun bs k => ?_
  · obtain ⟨offset, token⟩ := p
    cases token with
    | string s => exact (Takes.pure s).congr fun ds k => and_comm
    | reference index => exact takes_lookup hd' index
    | _ => exact (Takes.throw _).congr fun ds k => by simp [Token.Names]
  · constructor
    · rintro ⟨token, cs, _, hbody, ⟨hname, rfl⟩, rfl⟩
      exact ⟨token, cs, hbody, hname, by rw [List.append_nil]⟩
    · rintro ⟨token, cs, hbody, hname, rfl⟩
      exact ⟨token, cs, [], hbody, ⟨hname, rfl⟩, by rw [List.append_nil]⟩

/-- A token that opens no container is the value that it says, and takes nothing more.  Three kinds
may say nothing all the same: a magnitude out of range, bits that are no finite double, and a
reference that leads nowhere. -/
theorem takes_scalar (hd : Ready limits dictionary bound d) (offset : Nat) (token : Token) :
    Takes (scalar offset token) (fun bs v => token.Scalar dictionary v ∧ bs = []) d := by
  cases token with
  | null => exact (Takes.pure _).congr fun bs v => and_comm
  | bool b => exact (Takes.pure _).congr fun bs v => and_comm
  | natural n => exact (Takes.pure _).congr fun bs v => and_comm
  | string s => exact (Takes.pure _).congr fun bs v => and_comm
  | negative magnitude =>
    rw [scalar, negated]
    cases h : Integer.negate? magnitude.toNat with
    | none =>
      refine (Takes.throw _).congr fun bs v => ?_
      simp only [false_iff]
      rintro ⟨⟨n, hn, -⟩, -⟩
      rw [Integer.negate?_eq_some.mpr hn] at h
      cases h
    | some n =>
      refine (Takes.pure _).congr fun bs v => ?_
      constructor
      · rintro ⟨rfl, rfl⟩
        exact ⟨⟨n, Integer.negate?_eq_some.mp h, rfl⟩, rfl⟩
      · rintro ⟨⟨m, hm, rfl⟩, rfl⟩
        rw [Integer.negate?_eq_some.mpr hm] at h
        cases h
        exact ⟨rfl, rfl⟩
  | double bits =>
    rw [scalar, finite]
    cases h : Double.ofBits? bits with
    | none =>
      refine (Takes.throw _).congr fun bs v => ?_
      simp only [false_iff]
      rintro ⟨⟨x, hx, -⟩, -⟩
      rw [Double.ofBits?_eq_some.mpr hx] at h
      cases h
    | some x =>
      refine (Takes.pure _).congr fun bs v => ?_
      constructor
      · rintro ⟨rfl, rfl⟩
        exact ⟨⟨x, Double.ofBits?_eq_some.mp h, rfl⟩, rfl⟩
      · rintro ⟨⟨y, hy, rfl⟩, rfl⟩
        rw [Double.ofBits?_eq_some.mpr hy] at h
        cases h
        exact ⟨rfl, rfl⟩
  | reference index =>
    refine ((takes_lookup hd index).map Json.string).congr fun bs v => ?_
    constructor
    · rintro ⟨s, ⟨hs, rfl⟩, rfl⟩
      exact ⟨⟨s, hs, rfl⟩, rfl⟩
    · rintro ⟨⟨s, hs, rfl⟩, rfl⟩
      exact ⟨s, ⟨hs, rfl⟩, rfl⟩
  | _ => exact (Takes.throw _).congr fun bs v => by simp [Token.Scalar]

end Decoder

/-! ## 2. The grammar, token by token -/

namespace Grammar

variable {limits : Limits} {dictionary : List String} {room : Nat} {bs : List UInt8}

/-- A text is the token that names it, and the body of that token is all of it but its tag.  The
offsets play no part, since no string has a backlink. -/
theorem text_iff (offset last : Nat) {k : String} :
    Text limits dictionary bs k ↔ ∃ (token : Token) (cs : List UInt8),
      token.Body limits offset last cs ∧ token.Names dictionary k ∧ bs = token.tag.byte :: cs := by
  constructor
  · intro h
    cases h with
    | literal h =>
      obtain ⟨hlen, hlim, hdec⟩ := h
      exact ⟨.string k, _, ⟨_, _, hlen, hlim, hdec, rfl⟩, rfl, rfl⟩
    | @reference digits index _ hspells hlookup =>
      have hv : (UInt64.ofNat index).toNat = index := UInt64.toNat_ofNat_of_lt' hspells.lt_size
      refine ⟨.reference (UInt64.ofNat index), digits, ?_, ?_, rfl⟩
      · show Varint.Spells digits (UInt64.ofNat index).toNat
        rwa [hv]
      · show dictionary[(UInt64.ofNat index).toNat]? = some k
        rwa [hv]
  · rintro ⟨token, cs, hbody, hname, rfl⟩
    cases token with
    | string s =>
      obtain rfl : k = s := hname
      obtain ⟨digits, content, hlen, hlim, hdec, rfl⟩ := hbody
      exact .literal ⟨hlen, hlim, hdec⟩
    | reference index => exact .reference hbody hname
    | _ => exact hname.elim

/-- What may follow a token that opens a value.  Behind an opening bracket that is the rest of the
container, if there is room for one more level, and behind a scalar there is nothing. -/
def Tail (limits : Limits) (dictionary : List String) :
    Nat → Token → List UInt8 → Json → Prop
  | room + 1, .arrayStart, ds, v =>
    ∃ inner items, Items limits dictionary room inner items ∧
      ds = inner ++ [Tag.arrayEnd.byte] ∧ v = .array items
  | room + 1, .objectStart, ds, v =>
    ∃ inner members, MemberList limits dictionary room inner members ∧
      ds = inner ++ [Tag.objectEnd.byte] ∧ v = .object (Members.ofList members)
  | _, token, ds, v => token.Scalar dictionary v ∧ ds = []

/-- Nothing follows a scalar, however much room there is. -/
theorem tail_of_scalar {token : Token} {v : Json} (h : token.Scalar dictionary v) :
    Tail limits dictionary room token [] v := by
  cases room with
  | zero => exact ⟨h, rfl⟩
  | succ room =>
    cases token with
    | arrayStart => exact h.elim
    | objectStart => exact h.elim
    | _ => exact ⟨h, rfl⟩

/-- A scalar is the token that it is, with its tag in front of its body. -/
theorem value_of_scalar {offset last : Nat} {token : Token} {cs : List UInt8} {v : Json}
    (hbody : token.Body limits offset last cs) (h : token.Scalar dictionary v) :
    Value limits dictionary room (token.tag.byte :: cs) v := by
  cases token with
  | null =>
    obtain rfl : v = .null := h
    obtain rfl : cs = [] := hbody
    exact .null
  | bool b =>
    obtain rfl : v = .bool b := h
    obtain rfl : cs = [] := hbody
    cases b
    · exact .boolFalse
    · exact .boolTrue
  | natural n =>
    obtain rfl : v = .number (.integer (.ofWord n)) := h
    exact .natural hbody
  | negative magnitude =>
    obtain ⟨n, hn, rfl⟩ := h
    exact .negative hbody hn
  | double bits =>
    obtain ⟨x, hx, rfl⟩ := h
    exact .double hbody.1 (hbody.2.trans hx.symm)
  | string s =>
    obtain rfl : v = .string s := h
    exact .text ((text_iff offset last).mpr ⟨.string s, cs, hbody, rfl, rfl⟩)
  | reference index =>
    obtain ⟨s, hs, rfl⟩ := h
    exact .text ((text_iff offset last).mpr ⟨.reference index, cs, hbody, hs, rfl⟩)
  | _ => exact h.elim

/-- A value is a token and what may follow it.  The grammar is said by what a value is, and a decoder
branches on the token that comes; here the one is turned into the other, so that each branch can be
met on its own. -/
theorem value_iff (offset last : Nat) {v : Json} :
    Value limits dictionary room bs v ↔ ∃ (token : Token) (cs ds : List UInt8),
      token.Body limits offset last cs ∧ Tail limits dictionary room token ds v ∧
        bs = token.tag.byte :: (cs ++ ds) := by
  constructor
  · intro h
    have hscalar : ∀ (token : Token) (cs : List UInt8), token.Body limits offset last cs →
        token.Scalar dictionary v → ∃ (other : Token) (ds es : List UInt8),
          other.Body limits offset last ds ∧ Tail limits dictionary room other es v ∧
            token.tag.byte :: cs = other.tag.byte :: (ds ++ es) :=
      fun token cs hbody hs =>
        ⟨token, cs, [], hbody, tail_of_scalar hs, by rw [List.append_nil]⟩
    cases h with
    | null => exact hscalar .null [] rfl rfl
    | boolTrue => exact hscalar (.bool true) [] rfl rfl
    | boolFalse => exact hscalar (.bool false) [] rfl rfl
    | @natural _ digits n hspells => exact hscalar (.natural n) digits hspells rfl
    | @negative _ digits m n hspells hn =>
      have hv : (UInt64.ofNat m).toNat = m := UInt64.toNat_ofNat_of_lt' hspells.lt_size
      refine hscalar (.negative (UInt64.ofNat m)) digits ?_ ⟨n, ?_, rfl⟩
      · show Varint.Spells digits (UInt64.ofNat m).toNat
        rwa [hv]
      · rwa [hv]
    | @double _ content x hlen hbits =>
      exact hscalar (.double x.bits) content ⟨hlen, hbits⟩ ⟨x, rfl, rfl⟩
    | text h =>
      obtain ⟨token, cs, hbody, hname, rfl⟩ := (text_iff offset last).mp h
      refine hscalar token cs hbody ?_
      cases token with
      | string s => exact congrArg Json.string hname
      | reference index => exact ⟨_, hname, rfl⟩
      | _ => exact hname.elim
    | @array room inner items h =>
      exact ⟨.arrayStart, [], inner ++ [Tag.arrayEnd.byte], rfl, ⟨inner, items, h, rfl, rfl⟩, rfl⟩
    | @object room inner members h =>
      exact ⟨.objectStart, [], inner ++ [Tag.objectEnd.byte], rfl,
        ⟨inner, members, h, rfl, rfl⟩, rfl⟩
  · rintro ⟨token, cs, ds, hbody, htail, rfl⟩
    have hscalar : token.Scalar dictionary v ∧ ds = [] →
        Value limits dictionary room (token.tag.byte :: (cs ++ ds)) v := by
      rintro ⟨hs, rfl⟩
      rw [List.append_nil]
      exact value_of_scalar hbody hs
    cases room with
    | zero => exact hscalar htail
    | succ room =>
      cases token with
      | arrayStart =>
        obtain ⟨inner, items, hitems, rfl, rfl⟩ := htail
        obtain rfl : cs = [] := hbody
        exact .array hitems
      | objectStart =>
        obtain ⟨inner, members, hmembers, rfl, rfl⟩ := htail
        obtain rfl : cs = [] := hbody
        exact .object hmembers
      | _ => exact hscalar htail

theorem Items.sequence : ∀ {bs : List UInt8} {items : List Json},
    Items limits dictionary room bs items → Sequence (Value limits dictionary room) bs items
  | _, _, .nil => .nil
  | _, _, .cons head tail => .cons head tail.sequence

/-- Items are values in sequence. -/
theorem items_iff {items : List Json} :
    Items limits dictionary room bs items ↔ Sequence (Value limits dictionary room) bs items := by
  constructor
  · exact Items.sequence
  · intro h
    induction h with
    | nil => exact .nil
    | cons head _ ih => exact .cons head ih

/-- A key and the value behind it. -/
def Member (limits : Limits) (dictionary : List String) (room : Nat) (bs : List UInt8)
    (member : String × Json) : Prop :=
  ∃ cs ds, Text limits dictionary cs member.1 ∧ Value limits dictionary room ds member.2 ∧
    bs = cs ++ ds

/-- A key and its value are one part, in the order in which they stand. -/
theorem MemberList.sequence : ∀ {bs : List UInt8} {members : List (String × Json)},
    MemberList limits dictionary room bs members →
      Sequence (Member limits dictionary room) bs members
  | _, _, .nil => .nil
  | _, _, .cons key value tail => .cons ⟨_, _, key, value, rfl⟩ tail.sequence

/-- Members are keys with their values in sequence. -/
theorem memberList_iff {members : List (String × Json)} :
    MemberList limits dictionary room bs members ↔
      Sequence (Member limits dictionary room) bs members := by
  constructor
  · exact MemberList.sequence
  · intro h
    induction h with
    | nil => exact .nil
    | cons head _ ih =>
      obtain ⟨cs, ds, hkey, hvalue, rfl⟩ := head
      exact .cons hkey hvalue ih

/-- A member begins with its key, so it begins like no closing bracket either. -/
theorem Member.opensPart {member : String × Json} (h : Member limits dictionary room bs member) :
    OpensPart bs := by
  obtain ⟨cs, ds, hkey, -, rfl⟩ := h
  obtain ⟨tag, es, rfl, htag⟩ := hkey.opensPart
  exact ⟨tag, es ++ ds, rfl, htag⟩

end Grammar

/-! ## 3. Values -/

namespace Decoder

variable {limits : Limits} {dictionary : List String} {d : Decoder Tape}

/-- A key and then a value take a member, if values of that depth are taken.  What was read of the
key does not change what a value is. -/
theorem takes_member {times room bound : Nat} (hd : Ready limits dictionary bound d)
    (hvalue : ∀ d, Ready limits dictionary bound d →
      Takes (valueWithin times room) (Grammar.Value limits dictionary room) d) :
    Takes (do
      let k ← key
      let v ← valueWithin times room
      return (k, v)) (Grammar.Member limits dictionary room) d := by
  refine (Takes.bind (takes_key hd) fun k d' bs _ hr =>
    (hvalue d' (hd.reads hr)).map (k, ·)).congr fun bs member => ?_
  constructor
  · rintro ⟨k, cs, ds, hk, ⟨v, hv, rfl⟩, rfl⟩
    exact ⟨cs, ds, (Grammar.text_iff _ _).mpr hk, hv, rfl⟩
  · rintro ⟨cs, ds, hk, hv, rfl⟩
    exact ⟨member.1, cs, ds, (Grammar.text_iff _ _).mp hk, ⟨member.2, hv, rfl⟩, rfl⟩

/-- With room for so many levels, a value is read exactly from the grammar's values of that depth.
The induction is on the room, so inside a container values of one level less are known to be read,
and the loop over them is `takes_partsUntil`.  The bound on repetitions is above what is left on the
tape, and stays the same on all levels. -/
theorem takes_valueWithin {times : Nat} (room : Nat) :
    ∀ {d : Decoder Tape}, Ready limits dictionary times d →
      Takes (valueWithin times room) (Grammar.Value limits dictionary room) d := by
  induction room with
  | zero =>
    intro d hd
    refine (takes_require (Q := Grammar.Tail limits dictionary 0) hd (fun p d' hd' => ?_)
      (fun _ _ h => h.1) (fun _ _ _ h => h.1)).congr fun bs v =>
        (Grammar.value_iff _ _).symm
    obtain ⟨offset, token⟩ := p
    -- No level is left, so that a container is refused at its opening bracket.
    cases token with
    | arrayStart => exact Takes.get ((Takes.throw _).congr fun ds v => ⟨False.elim, And.left⟩)
    | objectStart => exact Takes.get ((Takes.throw _).congr fun ds v => ⟨False.elim, And.left⟩)
    | _ => exact takes_scalar hd' offset _
  | succ room ih =>
    intro d hd
    refine (takes_require (Q := Grammar.Tail limits dictionary (room + 1)) hd (fun p d' hd' => ?_)
      (fun _ _ h => h.1) (fun _ _ _ h => h.1)).congr fun bs v =>
        (Grammar.value_iff _ _).symm
    obtain ⟨offset, token⟩ := p
    cases token with
    | arrayStart =>
      have hparts := takes_partsUntil (.inl rfl) (beginsWithToken_valueWithin times room)
        (fun d hd => ih hd) (fun _ _ h => h.opensPart) times [] (Nat.le_refl _) hd'
      refine (hparts.map Json.array).congr fun ds v => ?_
      constructor
      · rintro ⟨_, ⟨inner, items, hseq, rfl, rfl⟩, rfl⟩
        exact ⟨inner, _, Grammar.items_iff.mpr hseq, rfl, rfl⟩
      · rintro ⟨inner, items, hitems, rfl, rfl⟩
        exact ⟨items, ⟨inner, items, Grammar.items_iff.mp hitems, rfl, rfl⟩, rfl⟩
    | objectStart =>
      have hparts := takes_partsUntil (.inr rfl) (beginsWithToken_key.bind _)
        (fun d hd => takes_member hd fun d hd => ih hd) (fun _ _ h => h.opensPart) times []
        (Nat.le_refl _) hd'
      refine (hparts.map fun members => Json.object (Members.ofList members)).congr fun ds v => ?_
      constructor
      · rintro ⟨_, ⟨inner, members, hseq, rfl, rfl⟩, rfl⟩
        exact ⟨inner, _, Grammar.memberList_iff.mpr hseq, rfl, rfl⟩
      · rintro ⟨inner, members, hmembers, rfl, rfl⟩
        exact ⟨members, ⟨inner, members, Grammar.memberList_iff.mp hmembers, rfl, rfl⟩, rfl⟩
    | _ => exact takes_scalar hd' offset _

/-- The value of a payload is read exactly from the grammar's values. -/
theorem takes_value {bound : Nat} (hd : Ready limits dictionary bound d) :
    Takes value (Grammar.Value limits dictionary limits.maxNestingDepth) d := by
  refine Takes.get ?_
  rw [hd.limits]
  exact takes_valueWithin limits.maxNestingDepth hd.bounded

end Decoder

end DictLog
