/-
# Decoders between tokens

A decoder holds a token back only inside a container, where it has to see whether the container
ends.  `Ready` describes the decoders that hold none, and for them:

* `advance_eq_some`: a token comes exactly from its tag and its body;
* `takes_require`: a step that begins with a token takes the token and then what follows;
* `partsUntil_succ`: looking ahead leaves no trace;
* `takes_partsUntil`: parts up to a closing tag are read exactly from the parts and the tag.

The bound on repetitions never shows, since each part takes a byte and the bound exceeds what is
left on the tape.
-/
import DictLog.Proofs.Token

namespace DictLog

open OnTape Step

variable {α β : Type}

/-! ## 1. Decoders between tokens -/

namespace Decoder

/-- The mark that a token at `offset` leaves. -/
def marked (offset : Nat) (d : Decoder Tape) (token : Token) : Decoder Tape :=
  { d with tokens := d.tokens.marked offset token }

/-- A decoder that holds no token back, with these limits and this dictionary, and with fewer bytes
to come than the bound.

The bound is that on repetitions: as long as it is above what is left on the tape, a loop that takes
a byte each time cannot run into it. -/
structure Ready (limits : Limits) (dictionary : List String) (bound : Nat) (d : Decoder Tape) :
    Prop where
  lookahead : d.lookahead = none
  limits : d.limits = limits
  dictionary : d.dictionary.toList = dictionary
  unread : (tape d).rest.length < bound

variable {limits : Limits} {dictionary : List String} {bound : Nat} {d d' : Decoder Tape}

/-- Reading leaves a decoder ready, with less to come, so a bound that was high enough still is. -/
theorem Ready.reads (h : Ready limits dictionary bound d) {bs : List UInt8} (hr : Reads d bs d') :
    Ready limits dictionary bound d' := by
  have hlen := hr.length_rest
  have hunread := h.unread
  have hframe := hr.frame
  refine ⟨?_, ?_, ?_, by omega⟩
  · rw [hframe]
    exact h.lookahead
  · rw [hframe]
    exact h.limits
  · rw [hframe]
    exact h.dictionary

/-- Reading at least one byte makes room for one repetition less. -/
theorem Ready.reads_lt (h : Ready limits dictionary (bound + 1) d) {bs : List UInt8}
    (hbs : bs ≠ []) (hr : Reads d bs d') : Ready limits dictionary bound d' where
  lookahead := (h.reads hr).lookahead
  limits := (h.reads hr).limits
  dictionary := (h.reads hr).dictionary
  unread := by
    have hlen := hr.length_rest
    have hunread := h.unread
    have hpos := List.length_pos_iff.mpr hbs
    omega

/-- The decoder's own bound is above what is left on its tape. -/
theorem bound_eq (d : Decoder Tape) : d.bound = (tape d).rest.length + 1 := by
  show (tape d).unread + 1 = _
  rw [(tape d).unread_eq]

/-- A decoder that is ready for any bound is ready for its own. -/
theorem Ready.bounded (h : Ready limits dictionary bound d) : Ready limits dictionary d.bound d :=
  ⟨h.lookahead, h.limits, h.dictionary, by rw [bound_eq]; exact Nat.lt_succ_self _⟩

theorem Ready.marked (h : Ready limits dictionary bound d) (offset : Nat) (token : Token) :
    Ready limits dictionary bound (d.marked offset token) := by
  cases token <;> exact ⟨h.lookahead, h.limits, h.dictionary, h.unread⟩

/-- Bytes are read by a decoder as they are by its token stream.  Nothing else of the decoder has a
part in it. -/
theorem reads_tokens_iff {bs : List UInt8} :
    Reads d bs d' ↔ Reads d.tokens bs d'.tokens ∧ d' = { d with tokens := d'.tokens } := by
  constructor
  · intro h
    have hframe := h.frame
    refine ⟨⟨h.rest, h.offset, h.ending, ?_⟩, ?_⟩
    · rw [hframe]
      rfl
    · rw [hframe]
      rfl
  · rintro ⟨h, hframe⟩
    refine ⟨h.rest, h.offset, h.ending, ?_⟩
    rw [hframe, h.frame]
    rfl

/-! ## 2. Tokens -/

theorem advance_of_none {σ : Type} [Feed σ] {d : Decoder σ} (hd : d.lookahead = none) :
    advance d = onTokens TokenStream.next d := by
  simp only [advance, hd]

/-- With nothing held back, a token comes exactly from its tag and its body.  A mark that it leaves
is set where it begins. -/
theorem advance_eq_some (hd : d.lookahead = none) {p : Placed} :
    advance d = .ok (some p) d' ↔
      p.offset = d.tokens.offset ∧ ∃ bs t,
        p.token.Body d.limits d.tokens.offset d.tokens.lastDictionary bs ∧
        Reads d (p.token.tag.byte :: bs) t ∧ d' = t.marked d.tokens.offset p.token := by
  rw [advance_of_none hd, onTokens, onPart_eq_ok]
  constructor
  · rintro ⟨s, hs, rfl⟩
    obtain ⟨hoffset, bs, t, hbody, hr, rfl⟩ := TokenStream.next_eq_some.mp hs
    exact ⟨hoffset, bs, { d with tokens := t }, hbody, reads_tokens_iff.mpr ⟨hr, rfl⟩, rfl⟩
  · rintro ⟨hoffset, bs, t, hbody, hr, rfl⟩
    obtain ⟨hr, hframe⟩ := reads_tokens_iff.mp hr
    refine ⟨_, TokenStream.next_eq_some.mpr ⟨hoffset, bs, t.tokens, hbody, hr, rfl⟩, ?_⟩
    rw [marked, hframe]

/-- With nothing held back, there is no token exactly at a clean end. -/
theorem advance_eq_none (hd : d.lookahead = none) :
    advance d = .ok none d' ↔ (tape d).rest = [] ∧ (tape d).ending = .clean ∧ d' = d := by
  rw [advance_of_none hd, onTokens, onPart_eq_ok]
  constructor
  · rintro ⟨s, hs, rfl⟩
    obtain ⟨hrest, hend, rfl⟩ := TokenStream.next_eq_none.mp hs
    exact ⟨hrest, hend, rfl⟩
  · rintro ⟨hrest, hend, rfl⟩
    exact ⟨d'.tokens, TokenStream.next_eq_none.mpr ⟨hrest, hend, rfl⟩, rfl⟩

/-- A token that has to be there is one that is there. -/
theorem require_eq_ok {p : Placed} : require d = .ok p d' ↔ advance d = .ok (some p) d' := by
  rw [require, bind_eq_ok]
  constructor
  · rintro ⟨_ | q, t, hq, h⟩
    · exact absurd h (by simp)
    · cases h
      exact hq
  · intro h
    exact ⟨some p, d', h, rfl⟩

/-- A token that is cut off behind its first byte is truncated. -/
theorem advance_cut (hd : d.lookahead = none) {token : Token} {bs : List UInt8}
    (hbody : token.Body d.limits d.tokens.offset d.tokens.lastDictionary bs)
    (hcut : Cut d (token.tag.byte :: bs)) (hne : (tape d).rest ≠ []) :
    ∃ d', advance d = .error .truncated d' := by
  obtain ⟨s, he⟩ := TokenStream.next_cut hbody ⟨hcut.clean, hcut.inside⟩ hne
  rw [advance_of_none hd]
  exact ⟨_, onPart_of_error he⟩

/-- Where a token is due, an empty tape is truncated. -/
theorem require_of_nil (hd : d.lookahead = none) (hrest : (tape d).rest = [])
    (hclean : (tape d).ending = .clean) : ∃ d', require d = .error .truncated d' := by
  rw [require, bind_of_ok ((advance_eq_none hd).mpr ⟨hrest, hclean, rfl⟩)]
  exact ⟨d, rfl⟩

/-- Where a token is due, one that is cut off is truncated, even if nothing is left of it. -/
theorem require_cut (hd : d.lookahead = none) {token : Token} {bs : List UInt8}
    (hbody : token.Body d.limits d.tokens.offset d.tokens.lastDictionary bs)
    (hcut : Cut d (token.tag.byte :: bs)) : ∃ d', require d = .error .truncated d' := by
  rcases Decidable.em ((tape d).rest = []) with hnil | hne
  · exact require_of_nil hd hnil hcut.clean
  · obtain ⟨d', he⟩ := advance_cut hd hbody hcut hne
    exact ⟨d', bind_of_error he _⟩

/-- A step that begins with a token, and does not go on behind a `clear` or `add` token.  Those open
records, and are refused inside a value. -/
theorem takes_require (hd : Ready limits dictionary bound d)
    {f : Placed → EStateM Fault (Decoder Tape) α} {Q : Token → List UInt8 → α → Prop}
    (hf : ∀ p d', Ready limits dictionary bound d' → Takes (f p) (Q p.token) d')
    (hclear : ∀ bs a, ¬ Q .clear bs a) (hadd : ∀ b bs a, ¬ Q (.add b) bs a) :
    Takes (require >>= f)
      (fun bs a => ∃ token cs ds, token.Body limits d.tokens.offset d.tokens.lastDictionary cs ∧
        Q token ds a ∧ bs = token.tag.byte :: (cs ++ ds)) d := by
  -- A token that leaves a mark does not go on here, so that the tape is all that changes.
  have hmark : ∀ {token : Token} {ds : List UInt8} {a : α}, Q token ds a →
      ∀ t : Decoder Tape, t.marked d.tokens.offset token = t := by
    intro token ds a hQ t
    cases token with
    | clear => exact absurd hQ (hclear ds a)
    | add b => exact absurd hQ (hadd b ds a)
    | _ => rfl
  have hreq : ∀ {token : Token} {cs ds : List UInt8} {a : α} {t : Decoder Tape},
      token.Body limits d.tokens.offset d.tokens.lastDictionary cs → Q token ds a →
        Reads d (token.tag.byte :: cs) t → require d = .ok ⟨d.tokens.offset, token⟩ t := by
    intro token cs ds a t hbody hQ hr
    rw [← hd.limits] at hbody
    exact require_eq_ok.mpr
      ((advance_eq_some hd.lookahead).mpr ⟨rfl, cs, t, hbody, hr, (hmark hQ t).symm⟩)
  refine ⟨fun a d'' => ?_, ?_⟩
  · rw [bind_eq_ok]
    constructor
    · rintro ⟨p, d', hp, h⟩
      obtain ⟨-, cs, t, hbody, hr, rfl⟩ := (advance_eq_some hd.lookahead).mp (require_eq_ok.mp hp)
      rw [hd.limits] at hbody
      obtain ⟨ds, hQ, hr'⟩ := ((hf p _ ((hd.reads hr).marked _ _)).ok_iff a d'').mp h
      rw [hmark hQ] at hr'
      exact ⟨_, ⟨p.token, cs, ds, hbody, hQ, rfl⟩, hr.trans hr'⟩
    · rintro ⟨_, ⟨token, cs, ds, hbody, hQ, rfl⟩, hr⟩
      rw [← List.cons_append] at hr
      obtain ⟨t, hrt, hr'⟩ := hr.split
      exact ⟨_, t, hreq hbody hQ hrt, ((hf _ t (hd.reads hrt)).ok_iff a d'').mpr ⟨ds, hQ, hr'⟩⟩
  · rintro _ a ⟨token, cs, ds, hbody, hQ, rfl⟩ hcut
    rw [← List.cons_append] at hcut
    rcases hcut.split with h | ⟨t, hrt, h⟩
    · rw [← hd.limits] at hbody
      obtain ⟨d', he⟩ := require_cut hd.lookahead hbody h
      exact ⟨d', bind_of_error he f⟩
    · rw [bind_of_ok (hreq hbody hQ hrt)]
      exact (hf _ t (hd.reads hrt)).cut ds a hQ h

/-! ## 3. Parts up to a closing token -/

section AnyFeed

variable {σ : Type} [Feed σ]

/-- Taking a token holds none back. -/
theorem lookahead_of_require {d d' : Decoder σ} {p : Placed} (hd : d.lookahead = none)
    (h : require d = .ok p d') : d'.lookahead = none := by
  rw [require, bind_eq_ok] at h
  obtain ⟨_ | q, t, hq, h⟩ := h
  · exact absurd h (by simp)
  · cases h
    simp only [advance, hd] at hq
    obtain ⟨s, -, rfl⟩ := onPart_eq_ok.mp hq
    exact hd

/-- The step begins by taking a token.  This is what makes looking at the token first harmless: the
step would have taken the very same. -/
def BeginsWithToken (m : EStateM Fault (Decoder σ) α) : Prop :=
  ∃ f, m = require >>= f

theorem BeginsWithToken.bind {m : EStateM Fault (Decoder σ) α} (h : BeginsWithToken m)
    (g : α → EStateM Fault (Decoder σ) β) : BeginsWithToken (m >>= g) := by
  obtain ⟨f, rfl⟩ := h
  exact ⟨_, bind_assoc _ _ _⟩

theorem beginsWithToken_key : BeginsWithToken (key : EStateM Fault (Decoder σ) String) :=
  ⟨_, rfl⟩

/-- A value begins with a token, also where no container may be opened. -/
theorem beginsWithToken_valueWithin (times room : Nat) :
    BeginsWithToken (valueWithin times room : EStateM Fault (Decoder σ) Json) := by
  cases room with
  | zero => exact ⟨_, rfl⟩
  | succ room => exact ⟨_, rfl⟩

/-- With nothing held back, looking ahead for the closing token leaves no trace: it is taken, or the
part that begins with the token looked at is read.  So the loop over parts can be followed as if it
took each token once. -/
theorem partsUntil_succ {close : Tag} {f : Placed → EStateM Fault (Decoder σ) α} {times : Nat}
    {parts : List α} {d : Decoder σ} (hd : d.lookahead = none) :
    partsUntil close (require >>= f) (times + 1) parts d =
      (require >>= fun p =>
        if p.token.tag = close then pure parts.reverse
        else f p >>= fun item => partsUntil close (require >>= f) times (item :: parts)) d := by
  rw [partsUntil]
  cases h : require d with
  | error e s =>
    have hpeek : peek d = .error e s := bind_of_error h _
    rw [bind_of_error hpeek, bind_of_error h]
  | ok p t =>
    have hpeek : peek d = .ok p { t with lookahead := some p } := bind_of_ok h _
    have hback : { t with lookahead := none } = t := by
      rw [← lookahead_of_require hd h]
    have hagain : require { t with lookahead := some p } = .ok p t := by
      show EStateM.Result.ok p { t with lookahead := none } = .ok p t
      rw [hback]
    rw [bind_of_ok hpeek, bind_of_ok h]
    by_cases hclose : p.token.tag = close
    · simp only [if_pos hclose]
      show EStateM.Result.ok parts.reverse { t with lookahead := none } = .ok parts.reverse t
      rw [hback]
    · simp only [if_neg hclose]
      exact bind_congr (bind_of_ok hagain f) _

end AnyFeed

theorem Ready.mono (h : Ready limits dictionary bound d) {more : Nat} (hle : bound ≤ more) :
    Ready limits dictionary more d :=
  ⟨h.lookahead, h.limits, h.dictionary, Nat.lt_of_lt_of_le h.unread hle⟩

/-- Where a part begins, the token that comes is none that ends a container. -/
theorem opensPart_of_require (hd : d.lookahead = none) {p : Placed} (h : require d = .ok p d')
    {bs : List UInt8} (hhead : ∀ b, (tape d).rest.head? = some b → bs.head? = some b)
    (hbs : Grammar.OpensPart bs) : p.token.tag ≠ .arrayEnd ∧ p.token.tag ≠ .objectEnd := by
  obtain ⟨-, cs, u, -, hru, -⟩ := (advance_eq_some hd).mp (require_eq_ok.mp h)
  obtain ⟨tag, ds, rfl, harray, hobject⟩ := hbs
  have hfirst := hhead p.token.tag.byte (by rw [hru.rest]; rfl)
  rw [List.head?_cons, Option.some.injEq] at hfirst
  rw [← Tag.byte_injective hfirst]
  exact ⟨harray, hobject⟩

/-- If some bytes were read, the first of them was in front. -/
theorem head_of_reads {bs : List UInt8} (hne : bs ≠ []) (hr : Reads d bs d') {b : UInt8}
    (h : (tape d).rest.head? = some b) : bs.head? = some b := by
  cases bs with
  | nil => exact absurd rfl hne
  | cons c bs =>
    rw [hr.rest] at h
    exact h

/-- If the tape ends inside some bytes, the first of them is in front, or nothing is. -/
theorem head_of_cut {bs : List UInt8} (hcut : Cut d bs) {b : UInt8}
    (h : (tape d).rest.head? = some b) : bs.head? = some b := by
  obtain ⟨missing, -, rfl⟩ := hcut.inside
  rw [List.head?_append, h]
  rfl

/-- The token of a closing tag is the tag alone, so reading the token and reading the byte are one
thing. -/
theorem require_close {close : Tag} (hclose : close = .arrayEnd ∨ close = .objectEnd)
    (hd : d.lookahead = none) :
    (∃ p, p.token.tag = close ∧ require d = .ok p d') ↔ Reads d [close.byte] d' := by
  constructor
  · rintro ⟨p, rfl, h⟩
    obtain ⟨-, cs, t, hbody, hr, rfl⟩ := (advance_eq_some hd).mp (require_eq_ok.mp h)
    obtain ⟨offset, token⟩ := p
    rcases hclose with hclose | hclose
    · obtain rfl : token = .arrayEnd := Token.openedBy_of_tag hclose
      obtain rfl := hbody
      exact hr
    · obtain rfl : token = .objectEnd := Token.openedBy_of_tag hclose
      obtain rfl := hbody
      exact hr
  · intro hr
    rcases hclose with rfl | rfl
    · exact ⟨⟨d.tokens.offset, .arrayEnd⟩, rfl,
        require_eq_ok.mpr ((advance_eq_some hd).mpr ⟨rfl, [], d', rfl, hr, rfl⟩)⟩
    · exact ⟨⟨d.tokens.offset, .objectEnd⟩, rfl,
        require_eq_ok.mpr ((advance_eq_some hd).mpr ⟨rfl, [], d', rfl, hr, rfl⟩)⟩

/-- A part is not begun by the token that closes its container. -/
theorem tag_ne_of_part {close : Tag} (hclose : close = .arrayEnd ∨ close = .objectEnd)
    (hd : d.lookahead = none) {p : Placed} (h : require d = .ok p d') {bs : List UInt8}
    (hhead : ∀ b, (tape d).rest.head? = some b → bs.head? = some b)
    (hbs : Grammar.OpensPart bs) : ¬ p.token.tag = close := by
  have hno := opensPart_of_require hd h hhead hbs
  rcases hclose with rfl | rfl
  · exact hno.1
  · exact hno.2

section Parts

variable {close : Tag} {part : EStateM Fault (Decoder Tape) α} {P : List UInt8 → α → Prop}
  {times : Nat} {parts items : List α} {item : α} {bs : List UInt8}

/-- The closing tag ends the parts. -/
theorem partsUntil_of_close (hclose : close = .arrayEnd ∨ close = .objectEnd)
    (hbegin : BeginsWithToken part) (hd : d.lookahead = none) (hr : Reads d [close.byte] d') :
    partsUntil close part (times + 1) parts d = .ok parts.reverse d' := by
  obtain ⟨f, rfl⟩ := hbegin
  obtain ⟨p, htag, hp⟩ := (require_close hclose hd).mpr hr
  rw [partsUntil_succ hd, bind_of_ok hp, if_pos htag]
  rfl

/-- One more part is read before the rest. -/
theorem partsUntil_of_part (hclose : close = .arrayEnd ∨ close = .objectEnd)
    (hbegin : BeginsWithToken part) (hd : d.lookahead = none) (hpart : Takes part P d)
    (hopens : Grammar.OpensPart bs) (hbs : P bs item) (hr : Reads d bs d') :
    partsUntil close part (times + 1) parts d = partsUntil close part times (item :: parts) d' := by
  obtain ⟨f, rfl⟩ := hbegin
  have hitem := (hpart.ok_iff item d').mpr ⟨bs, hbs, hr⟩
  obtain ⟨p, t, hp, hf⟩ := bind_eq_ok.mp hitem
  have htag := tag_ne_of_part hclose hd hp (fun b => head_of_reads hopens.ne_nil hr) hopens
  rw [partsUntil_succ hd, bind_of_ok hp, if_neg htag, bind_of_ok hf]

/-- Where parts were read, the closing tag came first, or a part and then the others.  This is the
case distinction behind all that is said of containers. -/
theorem partsUntil_eq_ok (hclose : close = .arrayEnd ∨ close = .objectEnd)
    (hbegin : BeginsWithToken part) (hd : d.lookahead = none) (hpart : Takes part P d)
    (h : partsUntil close part (times + 1) parts d = .ok items d') :
    (Reads d [close.byte] d' ∧ items = parts.reverse) ∨
      ∃ bs item t, P bs item ∧ Reads d bs t ∧
        partsUntil close part times (item :: parts) t = .ok items d' := by
  obtain ⟨f, rfl⟩ := hbegin
  rw [partsUntil_succ hd, bind_eq_ok] at h
  obtain ⟨p, t, hp, h⟩ := h
  by_cases htag : p.token.tag = close
  · rw [if_pos htag] at h
    cases h
    exact .inl ⟨(require_close hclose hd).mp ⟨p, htag, hp⟩, rfl⟩
  · rw [if_neg htag, ← bind_congr (bind_of_ok hp f), bind_eq_ok] at h
    obtain ⟨item, u, hu, h⟩ := h
    obtain ⟨bs, hbs, hr⟩ := (hpart.ok_iff item u).mp hu
    exact .inr ⟨bs, item, u, hbs, hr, h⟩

theorem partsUntil_of_close_cut (hbegin : BeginsWithToken part) (hd : d.lookahead = none)
    (hcut : Cut d [close.byte]) :
    ∃ d', partsUntil close part (times + 1) parts d = .error .truncated d' := by
  obtain ⟨f, rfl⟩ := hbegin
  obtain ⟨d', he⟩ := require_of_nil hd hcut.rest_eq_nil hcut.clean
  rw [partsUntil_succ hd]
  exact ⟨d', bind_of_error he _⟩

/-- Cut off inside a part, the parts are cut off.  The part may be cut off behind its first token,
which the loop has read by then to see whether it is the closing tag. -/
theorem partsUntil_of_part_cut (hclose : close = .arrayEnd ∨ close = .objectEnd)
    (hbegin : BeginsWithToken part) (hd : d.lookahead = none) (hpart : Takes part P d)
    (hopens : Grammar.OpensPart bs) (hbs : P bs item) (hcut : Cut d bs) :
    ∃ d', partsUntil close part (times + 1) parts d = .error .truncated d' := by
  obtain ⟨f, rfl⟩ := hbegin
  obtain ⟨d', he⟩ := hpart.cut bs item hbs hcut
  rw [partsUntil_succ hd]
  cases hp : require d with
  | error e s =>
    rw [bind_of_error hp] at he
    cases he
    exact ⟨d', bind_of_error hp _⟩
  | ok p t =>
    have htag := tag_ne_of_part hclose hd hp (fun b => head_of_cut hcut) hopens
    rw [bind_of_ok hp] at he
    rw [bind_of_ok hp, if_neg htag]
    exact ⟨d', bind_of_error he _⟩

/-- Parts up to a closing tag are read exactly from the parts one after the other and the tag.  Each
part takes a byte, so the bound on the repetitions is never what ends them. -/
theorem takes_partsUntil (hclose : close = .arrayEnd ∨ close = .objectEnd)
    (hbegin : BeginsWithToken part) (hpart : ∀ d, Ready limits dictionary bound d → Takes part P d)
    (hopens : ∀ bs a, P bs a → Grammar.OpensPart bs) (times : Nat) :
    ∀ {d : Decoder Tape} (parts : List α), times ≤ bound → Ready limits dictionary times d →
      Takes (partsUntil close part times parts)
        (fun bs items => ∃ inner new, Grammar.Sequence P inner new ∧
          bs = inner ++ [close.byte] ∧ items = parts.reverse ++ new) d := by
  induction times with
  | zero =>
    intro d parts _ hd
    exact absurd hd.unread (Nat.not_lt_zero _)
  | succ times ih =>
    intro d parts hle hd
    have hnone := hd.lookahead
    have hone := hpart d (hd.mono hle)
    -- Behind a part there is less to read, so the others are covered by the induction.
    have hothers : ∀ {bs item u}, P bs item → Reads d bs u →
        Takes (partsUntil close part times (item :: parts)) _ u := fun hbs hr =>
      ih _ (by omega) (hd.reads_lt (hopens _ _ hbs).ne_nil hr)
    refine ⟨fun items d' => ?_, ?_⟩
    · constructor
      · intro h
        rcases partsUntil_eq_ok hclose hbegin hnone hone h with ⟨hr, rfl⟩ | hmore
        · exact ⟨_, ⟨[], [], .nil, rfl, (List.append_nil _).symm⟩, hr⟩
        · obtain ⟨bs, item, u, hbs, hr, h⟩ := hmore
          obtain ⟨_, ⟨inner, new, hseq, rfl, rfl⟩, hr'⟩ := ((hothers hbs hr).ok_iff items d').mp h
          exact ⟨_, ⟨bs ++ inner, item :: new, .cons hbs hseq, (List.append_assoc ..).symm,
            by simp⟩, hr.trans hr'⟩
      · intro h
        obtain ⟨_, ⟨inner, new, hseq, rfl, rfl⟩, hr⟩ := h
        -- Parts that are there already lead to the closing tag, and any others to one round more.
        cases hseq with
        | nil =>
          rw [partsUntil_of_close hclose hbegin hnone hr, List.append_nil]
        | @cons bs cs item new hbs hseq =>
          rw [List.append_assoc] at hr
          obtain ⟨u, hru, hr'⟩ := hr.split
          rw [partsUntil_of_part hclose hbegin hnone hone (hopens _ _ hbs) hbs hru]
          exact ((hothers hbs hru).ok_iff _ d').mpr ⟨_, ⟨cs, new, hseq, rfl, by simp⟩, hr'⟩
    · -- The tape ends inside the closing tag, inside the first part, or behind it.
      intro bs items h hcut
      obtain ⟨inner, new, hseq, rfl, rfl⟩ := h
      cases hseq with
      | nil => exact partsUntil_of_close_cut hbegin hnone hcut
      | @cons bs cs item new hbs hseq =>
        rw [List.append_assoc] at hcut
        rcases hcut.split with hcut | ⟨u, hru, hcut⟩
        · exact partsUntil_of_part_cut hclose hbegin hnone hone (hopens _ _ hbs) hbs hcut
        · rw [partsUntil_of_part hclose hbegin hnone hone (hopens _ _ hbs) hbs hru]
          exact (hothers hbs hru).cut _ _ ⟨cs, new, hseq, rfl, rfl⟩ hcut

end Parts

end Decoder

end DictLog
