/-
# What a decoder leaves behind

A decoder may be fed anything, and asked again after it has failed.  An `add` record may break off
half applied, a payload half read; still nothing gets into the dictionary that is too long or one
too many.

What carries this is one property of decoders, `Safe`, which every step leaves behind whether it
succeeds or fails (`Leaves`).  Within a record it is `Inside`: the counts stand still there, and the
tag of the record has been read, so that there is a byte for each record that is counted.
-/
import DictLog.Proofs.Framing
import DictLog.Proofs.Online

namespace DictLog

open Step

/-! ## 1. What steps leave behind -/

namespace Step

variable {ε σ τ α β : Type} {I J : σ → Prop} {K : τ → Prop} {m : EStateM ε σ α} {s : σ}

/-- The state that a step left, whether or not it failed. -/
def left : EStateM.Result ε σ α → σ
  | .ok _ s => s
  | .error _ s => s

/-- What a step answered, unless it failed. -/
def answer? : EStateM.Result ε σ α → Option α
  | .ok a _ => some a
  | .error _ _ => none

/-- There is an answer where the step succeeded. -/
theorem answer?_eq_some {r : EStateM.Result ε σ α} {a : α} :
    answer? r = some a ↔ ∃ s, r = .ok a s := by
  cases r <;> simp [answer?]

/-- The step left such a state, whether or not it failed. -/
def Leaves (I : σ → Prop) (r : EStateM.Result ε σ α) : Prop :=
  I (left r)

theorem Leaves.mono {r : EStateM.Result ε σ α} (h : Leaves I r) (hle : ∀ s, I s → J s) :
    Leaves J r :=
  hle _ h

/-- Where the step succeeds, what it leaves is the state it ends in. -/
theorem Leaves.of_ok {a : α} {s' : σ} (h : Leaves I (m s)) (hm : m s = .ok a s') : I s' := by
  rw [hm] at h
  exact h

/-- A sequence leaves what its second part leaves, or what its first part leaves if that fails. -/
theorem Leaves.bind {f : α → EStateM ε σ β} (h : Leaves I (m s)) (hle : ∀ s, I s → J s)
    (hf : ∀ a s', m s = .ok a s' → I s' → Leaves J (f a s')) : Leaves J ((m >>= f) s) := by
  cases hm : m s with
  | ok a s' =>
    rw [bind_of_ok hm]
    exact hf a s' hm (h.of_ok hm)
  | error e s' =>
    rw [bind_of_error hm]
    rw [hm] at h
    exact hle _ h

/-- From such states, the step leads to such states, whether or not it fails. -/
def Keeps (I : σ → Prop) (m : EStateM ε σ α) : Prop :=
  ∀ s, I s → Leaves I (m s)

namespace Keeps

theorem pure (a : α) : Keeps I (Pure.pure a : EStateM ε σ α) :=
  fun _ h => h

theorem throw (e : ε) : Keeps I (MonadExcept.throw e : EStateM ε σ α) :=
  fun _ h => h

/-- A sequence of steps that keep a property keeps it, wherever it breaks off. -/
theorem bind {f : α → EStateM ε σ β} (hm : Keeps I m) (hf : ∀ a, Keeps I (f a)) :
    Keeps I (m >>= f) :=
  fun s h => (hm s h).bind (fun _ h => h) fun a s' _ h' => hf a s' h'

theorem get {f : σ → EStateM ε σ β} (hf : ∀ s, Keeps I (f s)) : Keeps I (MonadState.get >>= f) :=
  fun s h => hf s s h

theorem ite {c : Prop} [Decidable c] {m' : EStateM ε σ α} (h : Keeps I m) (h' : Keeps I m') :
    Keeps I (if c then m else m') := by
  split
  · exact h
  · exact h'

end Keeps

/-- A step of a part leaves the whole in order if what it leaves of the part can be put back. -/
theorem Leaves.onPart {part : τ → σ} {put : σ → τ → τ} {w : τ} (h : Leaves I (m (part w)))
    (hput : ∀ s, I s → K (put s w)) : Leaves K (onPart part put m w) := by
  unfold DictLog.onPart
  cases hm : m (part w) with
  | ok a s =>
    rw [hm] at h
    exact hput s h
  | error e s =>
    rw [hm] at h
    exact hput s h

end Step

/-! ## 2. Within limits -/

section AnyFeed

variable {σ : Type} [Feed σ] {limits : Limits} {floor length : Nat}

/-- A feed of so many bytes, of which so many or more have been handed out. -/
structure LawfulFeed.Spent (floor length : Nat) (s : σ) : Prop where
  floor : floor ≤ Feed.offset s
  total : Feed.offset s + Feed.unread s = length

namespace TokenStream

/-- A token stream under these limits on a spent feed; the mark is not ahead of it. -/
structure Spent (limits : Limits) (floor length : Nat) (t : TokenStream σ) : Prop where
  limits : t.limits = limits
  feed : LawfulFeed.Spent floor length t.feed
  last : t.lastDictionary ≤ t.offset

variable {α : Type} {t : TokenStream σ} {offset : Nat}

/-- Where a stream stands may serve as the floor. -/
theorem Spent.raise (h : Spent limits floor length t) : Spent limits t.offset length t :=
  ⟨h.limits, ⟨Nat.le_refl _, h.feed.total⟩, h.last⟩

/-- Anything below a floor may serve as one. -/
theorem Spent.lower (h : Spent limits floor length t) {less : Nat} (hle : less ≤ floor) :
    Spent limits less length t :=
  ⟨h.limits, ⟨Nat.le_trans hle h.feed.floor, h.feed.total⟩, h.last⟩

/-- What holds from where a stream stands holds from anywhere before. -/
theorem keeps_of_raise {m : EStateM Fault (TokenStream σ) α}
    (h : ∀ t : TokenStream σ, Spent limits t.offset length t →
      Leaves (Spent limits t.offset length) (m t)) : Keeps (Spent limits floor length) m :=
  fun t ht => (h t ht.raise).mono fun _ h' => h'.lower ht.feed.floor

/-- A step of the feed moves forward, and a mark that was not ahead is not ahead then. -/
theorem keeps_onFeed {m : EStateM Fault σ α}
    (hm : ∀ floor, Keeps (LawfulFeed.Spent floor length) m) :
    Keeps (Spent limits floor length) (onFeed m) := by
  refine keeps_of_raise fun t ht => ?_
  refine Leaves.onPart (hm t.offset t.feed ht.feed) fun s hs => ⟨ht.limits, hs, ?_⟩
  exact Nat.le_trans ht.last hs.floor

/-- The mark is set where a record began, which is not ahead of where the stream stands. -/
theorem keeps_markDictionary (hle : offset ≤ floor) :
    Keeps (Spent limits floor length) (markDictionary offset : EStateM Fault (TokenStream σ) _) :=
  fun _ ht => ⟨ht.limits, ht.feed, Nat.le_trans hle ht.feed.floor⟩

end TokenStream

/-- How many records have been counted. -/
def DecodeStats.records (s : DecodeStats) : Nat :=
  s.valueRecords + s.addRecords + s.clearRecords

/-- Counting a record adds one at most: a header is not counted. -/
theorem DecodeStats.records_count (s : DecodeStats) (record : Record) :
    (s.count record).records ≤ s.records + 1 := by
  cases record <;> simp only [count, records] <;> omega

/-- The bytes that were read are counted elsewhere. -/
theorem DecodeStats.bytesRead_count (s : DecodeStats) (record : Record) :
    (s.count record).bytesRead = s.bytesRead := by
  cases record <;> rfl

namespace Decoder

open Encoder (Short)

variable {α β : Type} {stats : DecodeStats} {d d' : Decoder σ} {p : Placed}

/-- A decoder within its limits that holds no token back and has counted so much. -/
structure Inside (limits : Limits) (floor length : Nat) (stats : DecodeStats) (d : Decoder σ) :
    Prop where
  lookahead : d.lookahead = none
  tokens : TokenStream.Spent limits floor length d.tokens
  size : d.dictionary.size ≤ limits.maxDictionaryEntries
  short : Short limits d.dictionary.toList
  stats : d.stats = stats

theorem Inside.limits_eq (h : Inside limits floor length stats d) : d.limits = limits :=
  h.tokens.limits

theorem Inside.raise (h : Inside limits floor length stats d) :
    Inside limits d.tokens.offset length stats d :=
  ⟨h.lookahead, h.tokens.raise, h.size, h.short, h.stats⟩

theorem Inside.lower (h : Inside limits floor length stats d) {less : Nat} (hle : less ≤ floor) :
    Inside limits less length stats d :=
  ⟨h.lookahead, h.tokens.lower hle, h.size, h.short, h.stats⟩

/-- A decoder within its limits, in which not more is counted than has been read. -/
structure Safe (limits : Limits) (floor length : Nat) (d : Decoder σ) : Prop where
  inside : Inside limits floor length d.stats d
  records : d.stats.records ≤ d.tokens.offset
  bytesRead : d.stats.bytesRead ≤ d.tokens.offset

theorem Safe.raise (h : Safe limits floor length d) : Safe limits d.tokens.offset length d :=
  ⟨h.inside.raise, h.records, h.bytesRead⟩

theorem Safe.lower (h : Safe limits floor length d) {less : Nat} (hle : less ≤ floor) :
    Safe limits less length d :=
  ⟨h.inside.lower hle, h.records, h.bytesRead⟩

/-- Inside a record that began behind everything counted, counts are not ahead. -/
theorem Inside.safe (h : Inside limits floor length stats d) (hrecords : stats.records ≤ floor)
    (hread : stats.bytesRead ≤ floor) : Safe limits floor length d := by
  have hfloor : floor ≤ d.tokens.offset := h.tokens.feed.floor
  obtain ⟨hlookahead, htokens, hsize, hshort, rfl⟩ := h
  exact ⟨⟨hlookahead, htokens, hsize, hshort, rfl⟩, Nat.le_trans hrecords hfloor,
    Nat.le_trans hread hfloor⟩

/-- Inside a record there is a byte for the record itself. -/
theorem Inside.counted (h : Inside limits floor length stats d) {dictionary : Dictionary}
    (record : Record) (hsize : dictionary.size ≤ limits.maxDictionaryEntries)
    (hshort : Short limits dictionary.toList) (hrecords : stats.records < floor)
    (hread : stats.bytesRead ≤ floor) :
    Safe limits floor length { d with dictionary, stats := d.stats.count record } := by
  obtain rfl := h.stats
  refine Inside.safe ⟨h.lookahead, h.tokens, hsize, hshort, rfl⟩
    (Nat.le_trans (DecodeStats.records_count _ record) hrecords) ?_
  rwa [DecodeStats.bytesRead_count]

/-- A step that keeps within limits, and after it a change that counts what was read. -/
theorem leaves_modified {m : EStateM Fault (Decoder σ) α} {change : Decoder σ → Decoder σ}
    {g : α → β} (hm : Keeps (Inside limits floor length stats) m)
    (hd : Inside limits floor length stats d) (hrecords : stats.records ≤ floor)
    (hread : stats.bytesRead ≤ floor)
    (hchange : ∀ t, Inside limits floor length stats t → Safe limits floor length (change t)) :
    Leaves (Safe limits floor length)
      ((m >>= fun a => modify change >>= fun _ => pure (g a)) d) :=
  (hm d hd).bind (fun _ h => h.safe hrecords hread) fun _ t _ ht => hchange t ht

/-- Taking note of the offset leaves a decoder safe, since the offset is what it is compared with. -/
theorem Safe.markRead (hd : Safe limits floor length d) :
    Leaves (Safe limits floor length) (markRead d) where
  inside := ⟨hd.inside.lookahead, hd.inside.tokens, hd.inside.size, hd.inside.short, rfl⟩
  records := hd.records
  bytesRead := Nat.le_refl _

/-- A step of the tokenizer leaves the dictionary and the counts alone. -/
theorem keeps_onTokens {m : EStateM Fault (TokenStream σ) α}
    (hm : Keeps (TokenStream.Spent limits floor length) m) :
    Keeps (Inside limits floor length stats) (onTokens m) :=
  fun d hd => Leaves.onPart (hm d.tokens hd.tokens) fun _ ht =>
    ⟨hd.lookahead, ht, hd.size, hd.short, hd.stats⟩

omit [Feed σ] in
theorem keeps_lookup {I : Decoder σ → Prop} (index : UInt64) :
    Keeps I (lookup index : EStateM Fault (Decoder σ) _) := by
  refine .get fun d => ?_
  dsimp only
  split
  · exact .pure _
  · exact .throw _

omit [Feed σ] in
/-- A value that is no container is read off its token, and changes nothing.  So any property of a
decoder is kept. -/
theorem keeps_scalar {I : Decoder σ → Prop} (offset : Nat) (token : Token) :
    Keeps I (scalar offset token : EStateM Fault (Decoder σ) _) := by
  cases token with
  | negative magnitude =>
    rw [scalar, negated]
    split
    · exact .pure _
    · exact .throw _
  | double bits =>
    rw [scalar, finite]
    split
    · exact .pure _
    · exact .throw _
  | reference index => exact (keeps_lookup index).bind fun s => .pure _
  | null => exact .pure _
  | bool b => exact .pure _
  | natural n => exact .pure _
  | string s => exact .pure _
  | _ => exact .throw _

omit [Feed σ] in
theorem keeps_tooDeep {I : Decoder σ → Prop} (offset : Nat) :
    Keeps I (tooDeep offset : EStateM Fault (Decoder σ) α) :=
  .get fun _ => .throw _

omit [Feed σ] in
theorem keeps_checkStarted {I : Decoder σ → Prop} (token : Token) :
    Keeps I (checkStarted token : EStateM Fault (Decoder σ) _) :=
  .get fun _ => .ite (.pure _) (.throw _)

/-- A token that had to be there was there. -/
theorem advance_of_require (h : require d = .ok p d') : advance d = .ok (some p) d' := by
  obtain ⟨_ | q, t, hq, h⟩ := bind_eq_ok.mp h
  · cases h
  · cases h
    exact hq

/-- A string goes into the dictionary only if there is room for it.  That it is short enough was
checked when its token was read. -/
theorem leaves_addString {s : String} (hd : Inside limits floor length stats d)
    (hs : (Utf8.encode s).length ≤ limits.maxStringLength) :
    Leaves (Inside limits floor length stats) (addString s d) := by
  rw [addString, get_bind_apply, hd.limits_eq]
  by_cases hfull : limits.maxDictionaryEntries ≤ d.dictionary.size
  · rw [if_pos hfull]
    exact hd
  · rw [if_neg hfull]
    refine ⟨hd.lookahead, hd.tokens, ?_, ?_, hd.stats⟩
    · show (d.dictionary.add s).size ≤ _
      rw [← Dictionary.length_toList, Dictionary.toList_add, List.length_append,
        Dictionary.length_toList]
      exact Nat.not_le.mp hfull
    · show Short limits (d.dictionary.add s).toList
      rw [Dictionary.toList_add]
      exact List.forall_mem_append.mpr ⟨hd.short, by simpa using hs⟩

end Decoder

/-! ## 3. Feeds and tokens -/

variable [LawfulFeed σ]

namespace LawfulFeed

open Step

/-- What the tape is left in tells what the feed is left in. -/
theorem leaves_of_seenAs {α : Type} {I : Tape → Prop} {r : EStateM.Result Fault σ α}
    (h : Leaves I (seenAs tape r)) : Leaves (fun s => I (tape s)) r := by
  cases r <;> exact h

/-- A feed is spent as far as its tape is. -/
theorem spent_iff {s : σ} : Spent floor length s ↔ Spent floor length (tape s) := by
  have hoffset : Feed.offset (tape s) = Feed.offset s := (offset_eq s).symm
  have hunread : Feed.unread (tape s) = Feed.unread s := (unread_eq s).symm
  constructor <;> rintro ⟨hfloor, htotal⟩
  · exact ⟨by rwa [hoffset], by rwa [hoffset, hunread]⟩
  · exact ⟨by rwa [← hoffset], by rwa [← hoffset, ← hunread]⟩

/-- A byte moves the offset on by one, and what is left is one less; at the end, neither moves. -/
theorem keeps_nextByte : Keeps (Spent floor length) (Feed.nextByte : EStateM Fault σ _) := by
  intro s hs
  -- What is known of every feed is what it does to its tape, so the step is followed there.
  have htape : Leaves (Spent floor length) (Tape.nextByte (tape s)) := by
    obtain ⟨hfloor, htotal⟩ := spent_iff.mp hs
    change floor ≤ (tape s).offset at hfloor
    change (tape s).offset + (tape s).unread = length at htotal
    unfold Tape.nextByte
    split
    · rename_i b rest hrest
      have hunread : (tape s).unread = rest.length + 1 := by rw [(tape s).unread_eq, hrest]; rfl
      exact ⟨show floor ≤ (tape s).offset + 1 by omega,
        show (tape s).offset + 1 + ((tape s).unread - 1) = length by omega⟩
    · split <;> exact ⟨hfloor, htotal⟩
  rw [← nextByte_eq] at htape
  exact (leaves_of_seenAs htape).mono fun _ h => spent_iff.mpr h

/-- Some bytes at once, or all that are left if there are fewer: either way the sum of what is
behind and what is to come stays. -/
theorem keeps_take (n : Nat) : Keeps (Spent floor length) (Feed.take n : EStateM Fault σ _) := by
  intro s hs
  have htape : Leaves (Spent floor length) (Tape.take n (tape s)) := by
    obtain ⟨hfloor, htotal⟩ := spent_iff.mp hs
    change floor ≤ (tape s).offset at hfloor
    change (tape s).offset + (tape s).unread = length at htotal
    unfold Tape.take
    split
    · exact ⟨show floor ≤ (tape s).offset + n by omega,
        show (tape s).offset + n + ((tape s).unread - n) = length by omega⟩
    · exact ⟨show floor ≤ (tape s).offset + (tape s).unread by omega, htotal⟩
  rw [← take_eq] at htape
  exact (leaves_of_seenAs htape).mono fun _ h => spent_iff.mpr h

theorem keeps_requireByte :
    Keeps (Spent floor length) (Feed.requireByte : EStateM Fault σ UInt8) := by
  refine keeps_nextByte.bind fun b => ?_
  cases b with
  | none => exact .throw _
  | some b => exact .pure b

/-- The groups of a varint, each of which takes a byte. -/
theorem keeps_varintFrom (groups : Nat) : ∀ acc,
    Keeps (Spent floor length) (Feed.varintFrom groups acc : EStateM Fault σ UInt64) := by
  induction groups with
  | zero => exact fun _ => .throw _
  | succ groups ih =>
    refine fun acc => keeps_requireByte.bind fun b => ?_
    split
    · exact .pure _
    · exact ih _
    · exact .throw _

/-- So many bytes, one by one. -/
theorem keeps_array (n : Nat) :
    Keeps (Spent floor length) (Feed.array n : EStateM Fault σ (List UInt8)) := by
  induction n with
  | zero => exact .pure []
  | succ n ih => exact keeps_requireByte.bind fun b => ih.bind fun rest => .pure (b :: rest)

theorem keeps_skip (n : Nat) : Keeps (Spent floor length) (Feed.skip n : EStateM Fault σ Unit) := by
  intro s hs
  have htape : Keeps (Spent floor length) (Tape.skip n) :=
    Keeps.bind (m := Feed.take n) (keeps_take n) fun _ => .pure ()
  have hskip := htape (tape s) (spent_iff.mp hs)
  rw [← skip_eq] at hskip
  exact (leaves_of_seenAs hskip).mono fun _ h => spent_iff.mpr h

end LawfulFeed

namespace TokenStream

open LawfulFeed

variable {α : Type} {offset : Nat}

theorem keeps_varint : Keeps (Spent limits floor length) (varint : EStateM Fault (TokenStream σ) _) :=
  keeps_onFeed fun _ => keeps_varintFrom _ _

theorem keeps_backlink (offset : Nat) :
    Keeps (Spent limits floor length) (backlink offset : EStateM Fault (TokenStream σ) _) :=
  keeps_varint.bind fun _ => .get fun _ => .ite (.pure _) (.throw _)

/-- The bytes of a string literal are read only if its length is within the limit. -/
theorem keeps_text (offset : Nat) :
    Keeps (Spent limits floor length) (text offset : EStateM Fault (TokenStream σ) _) := by
  refine keeps_varint.bind fun n => .get fun t => .ite (.throw _) ?_
  refine (keeps_onFeed fun _ => keeps_take _).bind fun bytes => ?_
  split
  · exact .pure _
  · exact .throw _

/-- Whatever a tag calls for, a mark is set at most where the tag stands, which is not ahead of
anything. -/
theorem keeps_body (hle : offset ≤ floor) (tag : Tag) :
    Keeps (Spent limits floor length) (body offset tag : EStateM Fault (TokenStream σ) _) := by
  cases tag with
  | clear => exact (keeps_markDictionary hle).bind fun _ => .pure _
  | add =>
    exact (keeps_backlink offset).bind fun b => (keeps_markDictionary hle).bind fun _ => .pure _
  | value =>
    exact (keeps_backlink offset).bind fun b => keeps_varint.bind fun n =>
      .get fun _ => .ite (.throw _) (.pure _)
  | terminator =>
    exact .get fun _ => (keeps_onFeed fun _ => keeps_requireByte).bind fun b =>
      .ite (.pure _) (.throw _)
  | natural => exact keeps_varint.bind fun n => .pure _
  | negative => exact keeps_varint.bind fun n => .pure _
  | reference => exact keeps_varint.bind fun n => .pure _
  | double => exact (keeps_onFeed fun _ => keeps_array 8).bind fun bytes => .pure _
  | string => exact (keeps_text offset).bind fun s => .pure _
  | _ => exact .pure _

/-- A byte that is no tag fails, and nothing else happens. -/
theorem keeps_opened (hle : offset ≤ floor) (byte : UInt8) :
    Keeps (Spent limits floor length) (opened offset byte : EStateM Fault (TokenStream σ) _) := by
  unfold opened
  split
  · exact (keeps_body hle _).bind fun token => .pure _
  · exact .throw _

/-- The tag stands where the stream stood, so a mark at the tag is not ahead of it. -/
theorem keeps_scan : Keeps (Spent limits floor length) (scan : EStateM Fault (TokenStream σ) _) := by
  refine keeps_of_raise fun t ht => ?_
  have hbyte : Leaves (Spent limits t.offset length) (onFeed Feed.nextByte t) :=
    keeps_onFeed (fun _ => keeps_nextByte) t ht
  refine hbyte.bind (fun _ h => h) fun b t' _ ht' => ?_
  cases b with
  | none => exact ht'
  | some b => exact ((keeps_opened (Nat.le_refl _) b).bind fun p => .pure (some p)) t' ht'

/-- That the stream has failed is noted, which changes nothing else. -/
theorem keeps_next : Keeps (Spent limits floor length) (next : EStateM Fault (TokenStream σ) _) := by
  intro t ht
  have hscan := keeps_scan t ht
  unfold next
  cases h : scan t with
  | ok p t' =>
    rw [h] at hscan
    exact hscan
  | error f t' =>
    rw [h] at hscan
    exact ⟨hscan.limits, hscan.feed, hscan.last⟩

end TokenStream

namespace Decoder

open Encoder (Short)

variable {α : Type} {stats : DecodeStats} {d d' : Decoder σ} {p : Placed}

/-! ## 4. Inside a record -/

/-- Inside a record no token is held back, so to advance is to read one. -/
theorem keeps_advance :
    Keeps (Inside limits floor length stats) (advance : EStateM Fault (Decoder σ) _) := by
  intro d hd
  rw [advance_of_none hd.lookahead]
  exact keeps_onTokens TokenStream.keeps_next d hd

theorem keeps_require :
    Keeps (Inside limits floor length stats) (require : EStateM Fault (Decoder σ) _) := by
  refine keeps_advance.bind fun p => ?_
  cases p with
  | none => exact .throw _
  | some p => exact .pure p

theorem keeps_expectTerminator :
    Keeps (Inside limits floor length stats) (expectTerminator : EStateM Fault (Decoder σ) _) := by
  refine keeps_require.bind fun p => ?_
  obtain ⟨offset, token⟩ := p
  cases token with
  | terminator => exact .pure ()
  | _ => exact .throw _

/-- A step that takes a token, and behind it keeps within the limits. -/
def TakesToken (limits : Limits) (length : Nat) (stats : DecodeStats)
    (m : EStateM Fault (Decoder σ) α) : Prop :=
  ∃ f, m = require >>= f ∧ ∀ floor p, Keeps (Inside limits floor length stats) (f p)

namespace TakesToken

variable {β : Type} {m : EStateM Fault (Decoder σ) α}

omit [LawfulFeed σ] in
theorem begins (h : TakesToken limits length stats m) : BeginsWithToken m :=
  let ⟨f, hf, _⟩ := h
  ⟨f, hf⟩

theorem keeps (h : TakesToken limits length stats m) : Keeps (Inside limits floor length stats) m := by
  obtain ⟨f, rfl, hf⟩ := h
  exact keeps_require.bind (hf floor)

omit [LawfulFeed σ] in
/-- What follows may be anything that keeps within the limits. -/
theorem bind (h : TakesToken limits length stats m) {g : α → EStateM Fault (Decoder σ) β}
    (hg : ∀ floor a, Keeps (Inside limits floor length stats) (g a)) :
    TakesToken limits length stats (m >>= g) := by
  obtain ⟨f, rfl, hf⟩ := h
  exact ⟨_, bind_assoc _ _ _, fun floor p => (hf floor p).bind (hg floor)⟩

end TakesToken

omit [LawfulFeed σ] in
/-- A key takes one token, which is a string or refers to one. -/
theorem takesToken_key :
    TakesToken limits length stats (key : EStateM Fault (Decoder σ) String) := by
  refine ⟨_, rfl, fun floor p => ?_⟩
  obtain ⟨offset, token⟩ := p
  cases token with
  | string s => exact .pure s
  | reference index => exact keeps_lookup index
  | _ => exact .throw _

theorem keeps_key :
    Keeps (Inside limits floor length stats) (key : EStateM Fault (Decoder σ) _) :=
  takesToken_key.keeps

/-- Looking ahead for the end of a container leaves nothing held back: the token goes to the part
that begins with it, or is the closing one. -/
theorem keeps_partsUntil {close : Tag} {part : EStateM Fault (Decoder σ) α}
    (hbegin : BeginsWithToken part) (hpart : Keeps (Inside limits floor length stats) part)
    (times : Nat) : ∀ parts, Keeps (Inside limits floor length stats)
      (partsUntil close part times parts) := by
  obtain ⟨f, rfl⟩ := hbegin
  induction times with
  | zero => exact fun _ => .throw _
  | succ times ih =>
    intro parts d hd
    rw [partsUntil_succ hd.lookahead]
    refine (keeps_require d hd).bind (fun _ h => h) fun p t hp ht => ?_
    split
    · exact ht
    · have hitem : Leaves (Inside limits floor length stats) (f p t) := by
        rw [← bind_of_ok hp f]
        exact hpart d hd
      exact hitem.bind (fun _ h => h) fun item t' _ ht' => ih _ t' ht'

/-- A value takes its first token, however deep it may nest, before it goes on to its parts. -/
theorem takesToken_valueWithin (times room : Nat) :
    TakesToken limits length stats (valueWithin times room : EStateM Fault (Decoder σ) Json) := by
  induction room with
  | zero =>
    refine ⟨_, rfl, fun floor p => ?_⟩
    obtain ⟨offset, token⟩ := p
    cases token with
    | arrayStart => exact keeps_tooDeep offset
    | objectStart => exact keeps_tooDeep offset
    | _ => exact keeps_scalar offset _
  | succ room ih =>
    refine ⟨_, rfl, fun floor p => ?_⟩
    obtain ⟨offset, token⟩ := p
    cases token with
    | arrayStart => exact (keeps_partsUntil ih.begins ih.keeps times []).bind fun items => .pure _
    | objectStart =>
      have hmember := takesToken_key.bind fun _ k => ih.keeps.bind fun v =>
        Keeps.pure (I := Inside (σ := σ) limits _ length stats) (ε := Fault) (k, v)
      exact (keeps_partsUntil hmember.begins hmember.keeps times []).bind fun members => .pure _
    | _ => exact keeps_scalar offset _

theorem keeps_valueWithin (times room : Nat) : Keeps (Inside limits floor length stats)
    (valueWithin times room : EStateM Fault (Decoder σ) Json) :=
  (takesToken_valueWithin times room).keeps

theorem keeps_value :
    Keeps (Inside limits floor length stats) (value : EStateM Fault (Decoder σ) Json) :=
  .get fun _ => keeps_valueWithin _ _

theorem keeps_version :
    Keeps (Inside limits floor length stats) (version : EStateM Fault (Decoder σ) _) := by
  refine keeps_require.bind fun p => ?_
  obtain ⟨offset, token⟩ := p
  cases token with
  | natural n => exact .ite (.pure _) (.throw _)
  | _ => exact .throw _

theorem keeps_payloadIf (payloads : Payloads) (offset declared : Nat) :
    Keeps (Inside limits floor length stats)
      (payloadIf payloads offset declared : EStateM Fault (Decoder σ) _) := by
  cases payloads with
  | decoded =>
    have hpayload : Keeps (Inside limits floor length stats)
        (payload offset declared : EStateM Fault (Decoder σ) _) :=
      .get fun _ => keeps_value.bind fun v => .get fun _ => .ite (.pure v) (.throw _)
    exact hpayload.bind fun v => .pure _
  | skipped =>
    have hskip : Keeps (Inside limits floor length stats)
        (onTokens (TokenStream.skip declared) : EStateM Fault (Decoder σ) _) :=
      keeps_onTokens (TokenStream.keeps_onFeed fun _ => LawfulFeed.keeps_skip declared)
    exact hskip.bind fun _ => .pure none

/-! ## 5. Records that may break off -/

/-- The decoder on the tape that its feed gives. -/
def onTape (d : Decoder σ) : Decoder Tape where
  tokens := ⟨LawfulFeed.tape d.tokens.feed, d.tokens.limits, d.tokens.lastDictionary,
    d.tokens.failed⟩
  lookahead := d.lookahead
  dictionary := d.dictionary
  started := d.started
  failed := d.failed
  stats := d.stats

/-- A decoder goes along with the one on its tape, between two items. -/
theorem beside_onTape (hd : d.lookahead = none) :
    Beside (Coupling.lawful σ Tape .nothing 0) Eq d d.onTape where
  tokens := ⟨⟨rfl, [], (List.append_nil _).symm, rfl, rfl⟩, rfl, rfl⟩
  lookahead := hd
  lookahead' := hd
  dictionary := rfl
  started := rfl

theorem offset_onTape (d : Decoder σ) : d.onTape.tokens.offset = d.tokens.offset :=
  (LawfulFeed.offset_eq d.tokens.feed).symm

/-- A token takes its tag at least, and its body is one that the grammar has.  The former is what
bounds the number of records, the latter what bounds their sizes. -/
theorem token_of_advance (hd : d.lookahead = none) (h : advance d = .ok (some p) d') :
    d.tokens.offset < d'.tokens.offset ∧
      ∃ bs, p.token.Body d.limits p.offset d.tokens.lastDictionary bs := by
  have hnext := agree_advance (beside_onTape hd)
  rw [h] at hnext
  obtain ⟨e, he, hbehind⟩ := hnext.of_item
  obtain ⟨hoffset, bs, t, hbody, hreads, rfl⟩ := (advance_eq_some (d := d.onTape) hd).mp he
  have hplace : p.offset = d.onTape.tokens.offset := hoffset
  have hbefore := offset_onTape d
  have hafter := hbehind.beside.tokens.offset_eq
  have hmarked : (t.marked d.onTape.tokens.offset p.token).tokens.offset = t.tokens.offset := by
    cases p.token <;> rfl
  have htaken : t.tokens.offset = d.onTape.tokens.offset + (p.token.tag.byte :: bs).length :=
    hreads.offset
  rw [List.length_cons] at htaken
  refine ⟨?_, bs, hplace ▸ hbody⟩
  change (t.marked d.onTape.tokens.offset p.token).tokens.offset = d'.tokens.offset + 0 at hafter
  omega

/-- A step that takes a token goes forward. -/
theorem TakesToken.offset_lt {m : EStateM Fault (Decoder σ) α} {a : α}
    (h : TakesToken limits length stats m) (hd : Inside limits floor length stats d)
    (hm : m d = .ok a d') : d.tokens.offset < d'.tokens.offset := by
  obtain ⟨f, rfl, hf⟩ := h
  obtain ⟨p, t, hp, hm⟩ := bind_eq_ok.mp hm
  have ht : Inside limits floor length stats t := (keeps_require d hd).of_ok hp
  have hbehind := ((hf _ p t ht.raise).of_ok hm).tokens.feed.floor
  exact Nat.lt_of_lt_of_le (token_of_advance hd.lookahead (advance_of_require hp)).1 hbehind

/-- A string that has been read as a token is no longer than the limit. -/
theorem leaves_addition {offset : Nat} {s : String} (hd : Inside limits floor length stats d)
    (hp : require d = .ok ⟨offset, .string s⟩ d') :
    Leaves (Inside limits d'.tokens.offset length stats) (addString s d') := by
  obtain ⟨-, bs, hbody⟩ := token_of_advance hd.lookahead (advance_of_require hp)
  obtain ⟨digits, content, -, hlimit, hdecode, -⟩ := hbody
  rw [← Utf8.encode_of_decode hdecode, hd.limits_eq] at hlimit
  exact leaves_addString ((keeps_require d hd).of_ok hp).raise hlimit

/-- Strings are added one by one, and those that were added before a failure stay.  Each was within
its limit and had room, so nothing is exceeded. -/
theorem leaves_additions (times : Nat) : ∀ {d : Decoder σ} (added : Nat),
    Inside limits floor length stats d →
      Leaves (Inside limits floor length stats) (additions times added d) := by
  induction times with
  | zero => exact fun _ hd => hd
  | succ times ih =>
    intro d added hd
    refine (keeps_require d hd).bind (fun _ h => h) fun p t hp ht => ?_
    obtain ⟨offset, token⟩ := p
    cases token with
    | terminator => exact ht
    | string s =>
      have hadded := (leaves_addition hd hp).mono fun _ h => h.lower ht.tokens.feed.floor
      exact hadded.bind (fun _ h => h) fun _ _ _ h => ih (added + 1) h
    | _ => exact ht

/-- Behind its first token a record is read within the limits, or breaks off within them.  It is
counted at its end, for which the floor has been raised by the token. -/
theorem leaves_opened (payloads : Payloads) (offset : Nat) (token : Token)
    (hd : Inside limits floor length stats d) (hrecords : stats.records < floor)
    (hread : stats.bytesRead ≤ floor) :
    Leaves (Safe limits floor length) (opened payloads offset token d) := by
  have hbefore : stats.records ≤ floor := Nat.le_of_lt hrecords
  cases token with
  | header =>
    refine Leaves.bind (I := Safe limits floor length) ?_ (fun _ h => h) fun _ _ _ h => h
    refine (keeps_version d hd).bind (fun _ h => h.safe hbefore hread) fun _ t _ ht => ?_
    exact leaves_modified keeps_expectTerminator ht hbefore hread fun u hu =>
      Inside.safe ⟨hu.lookahead, hu.tokens, hu.size, hu.short, hu.stats⟩ hbefore hread
  | clear =>
    refine Leaves.bind (I := Safe limits floor length) ?_ (fun _ h => h) fun _ _ _ h => h
    exact leaves_modified keeps_expectTerminator hd hbefore hread fun t ht =>
      ht.counted .clear (Nat.zero_le _) nofun hrecords hread
  | add backlink =>
    refine Leaves.bind (I := Safe limits floor length) ?_ (fun _ h => h) fun _ _ _ h => h
    refine (leaves_additions _ 0 hd).bind (fun _ h => h.safe hbefore hread)
      fun entries t _ ht => ?_
    exact ht.counted (.add entries) ht.size ht.short hrecords hread
  | value backlink declared =>
    refine Leaves.bind (I := Safe limits floor length) ?_ (fun _ h => h) fun _ _ _ h => h
    refine (keeps_payloadIf payloads offset declared d hd).bind
      (fun _ h => h.safe hbefore hread) fun v t _ ht => ?_
    exact leaves_modified keeps_expectTerminator ht hbefore hread fun u hu =>
      hu.counted (.value declared v) hu.size hu.short hrecords hread
  | _ => exact hd.safe hbefore hread

/-- The first token of a record takes a byte, which makes up for the record that may be counted.  So
no count is ahead of the offset. -/
theorem leaves_recordAt (payloads : Payloads) (hd : Safe limits floor length d)
    (hp : advance d = .ok (some p) d') :
    Leaves (Safe limits (d.tokens.offset + 1) length) (recordAt payloads p d') := by
  have ht := (keeps_advance d hd.inside).of_ok hp
  have hoffset := (token_of_advance hd.inside.lookahead hp).1
  -- From here on the floor is one above what is counted, and stays there until the record is.
  have hbehind : Inside limits (d.tokens.offset + 1) length d.stats d' := ht.raise.lower hoffset
  have hrecords := hd.records
  have hread := hd.bytesRead
  refine (keeps_checkStarted p.token d' hbehind).bind (fun _ h => h.safe (by omega) (by omega))
    fun _ u _ hu => ?_
  refine (leaves_opened payloads p.offset p.token hu (by omega) (by omega)).bind (fun _ h => h)
    fun _ v _ hv => ?_
  exact hv.markRead.bind (fun _ h => h) fun _ _ _ h => h

/-- Behind a record, or where it broke off, the decoder is as safe as it was before.  This is the
step; any number of requests follow by induction. -/
theorem leaves_nextRecord (payloads : Payloads) (hd : Safe limits floor length d) :
    Leaves (Safe limits floor length) (nextRecord payloads d) := by
  have hraised := hd.raise
  suffices Leaves (Safe limits d.tokens.offset length) (nextRecord payloads d) from
    this.mono fun _ h => h.lower hd.inside.tokens.feed.floor
  rw [nextRecord_eq]
  refine (keeps_advance d hraised.inside).bind (fun _ h => h.safe hd.records hd.bytesRead)
    fun p t hp ht => ?_
  cases p with
  | none =>
    exact (ht.safe hd.records hd.bytesRead).markRead.bind (fun _ h => h) fun _ _ _ h => h
  | some p =>
    have hrecord := (leaves_recordAt payloads hd hp).mono fun _ h => h.lower (Nat.le_succ _)
    exact hrecord.bind (fun _ h => h) fun _ _ _ h => h

/-- Records are passed until one has a value, or one of them breaks off, or the fuel is used up. -/
theorem leaves_nextValueWithin (times : Nat) : ∀ {d : Decoder σ}, Safe limits floor length d →
    Leaves (Safe limits floor length) (nextValueWithin times d) := by
  induction times with
  | zero => exact fun hd => hd
  | succ times ih =>
    intro d hd
    refine (leaves_nextRecord .decoded hd).bind (fun _ h => h) fun entry t _ ht => ?_
    cases entry with
    | none => exact ht
    | some entry =>
      obtain ⟨offset, backlink, record⟩ := entry
      cases record with
      | value _ _ => exact ht
      | _ => exact ih ht

theorem leaves_nextValue (hd : Safe limits floor length d) :
    Leaves (Safe limits floor length) (nextValue d) :=
  leaves_nextValueWithin _ hd

/-- A failure is noted, and nothing is read behind it.  The note itself changes neither dictionary
nor counts. -/
theorem leaves_nextUnlessFailed (hd : Safe limits floor length d) :
    Leaves (Safe limits floor length) (nextUnlessFailed d) := by
  have hnext := leaves_nextValue hd
  unfold nextUnlessFailed
  split
  · exact hd
  · cases h : nextValue d with
    | ok v t => exact hnext.of_ok h
    | error fault t =>
      rw [h] at hnext
      obtain ⟨⟨hlookahead, htokens, hsize, hshort, -⟩, hrecords, hread⟩ := hnext
      exact ⟨⟨hlookahead, htokens, hsize, hshort, rfl⟩, hrecords, hread⟩

end Decoder

end AnyFeed

end DictLog
