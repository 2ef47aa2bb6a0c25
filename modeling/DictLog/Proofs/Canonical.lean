/-
# NDJSON through a stream and back is canonical NDJSON

A text of NDJSON that is encoded and decoded again comes back as one line for each of its lines that
is not blank: the compact text of the value that the line says.  This text is canonical.  It says the
same values, it has no blank lines, and it comes back unchanged, however it is encoded
(`recode_canonical`).

Two things are wanted for that besides what is known of streams.  The value that a line says is its
document with repeated keys merged: a key keeps its first place and takes its last value (`Merged`).
And the compact text of a value is a line that says this value again (`says_line`), which takes that
it is neither blank nor deeper than the value.
-/
import Mathlib.Data.List.Forall2
import Mathlib.Data.List.Induction
import DictLog.Proofs.Lines
import DictLog.Proofs.OnePass

namespace DictLog

/-! ## 1. Repeated keys -/

namespace Members

/-- A member that is put is found under its key, and the others as before.  This is what a reader of
the line can tell of the members; their order is `keys_put`. -/
theorem lookup_put (key : String) (v : Json) (ms : Members) (k : String) :
    (put key v ms).lookup k = if k = key then some v else ms.lookup k := by
  induction ms with
  | nil => exact lookup_cons_eq k key v []
  | cons m rest ih =>
    obtain ⟨key', w⟩ := m
    rw [put]
    by_cases hkey : key' = key
    · rw [if_pos hkey, lookup_cons_eq, lookup_cons_eq, hkey]
      split <;> rfl
    · rw [if_neg hkey, lookup_cons_eq, lookup_cons_eq, ih]
      by_cases hk : k = key'
      · rw [if_pos hk, if_pos hk, if_neg (hk ▸ hkey)]
      · rw [if_neg hk, if_neg hk]

theorem ofList_snoc (ms : List (String × Json)) (m : String × Json) :
    ofList (ms ++ [m]) = put m.1 m.2 (ofList ms) := by
  simp [ofList]

/-- Every key keeps its first place. -/
theorem keys_ofList (ms : List (String × Json)) :
    (ofList ms).map Prod.fst = (ms.map Prod.fst).eraseDups := by
  induction ms using List.reverseRecOn with
  | nil => rfl
  | append_singleton ms m ih =>
    rw [ofList_snoc, keys_put, ih, List.map_append, List.eraseDups_append]
    by_cases hmem : m.1 ∈ ms.map Prod.fst
    · rw [if_pos (List.mem_eraseDups.mpr hmem)]
      simp [List.removeAll, hmem]
    · rw [if_neg fun h => hmem (List.mem_eraseDups.mp h)]
      simp [List.removeAll, hmem, List.eraseDups_cons]

/-- Every key takes its last value. -/
theorem lookup_ofList (ms : List (String × Json)) (k : String) :
    (ofList ms).lookup k = ms.reverse.lookup k := by
  induction ms using List.reverseRecOn with
  | nil => rfl
  | append_singleton ms m ih =>
    rw [ofList_snoc, lookup_put, ih, List.reverse_append, List.reverse_singleton,
      List.singleton_append, lookup_cons_eq]

end Members

namespace Json

mutual

/-- A tree, and the tree that it becomes when repeated keys are merged: in every object each key has
its first place and its last value. -/
inductive Merged : Json → Json → Prop
  | null : Merged .null .null
  | bool (b : Bool) : Merged (.bool b) (.bool b)
  | number (n : Number) : Merged (.number n) (.number n)
  | string (s : String) : Merged (.string s) (.string s)
  | array {items items' : List Json} (parts : MergedItems items items') :
      Merged (.array items) (.array items')
  | object {members members' merged : List (String × Json)} (parts : MergedMembers members members')
      (places : merged.map Prod.fst = (members.map Prod.fst).eraseDups)
      (values : ∀ key, merged.lookup key = members'.reverse.lookup key) :
      Merged (.object members) (.object merged)

/-- `Merged` for each item. -/
inductive MergedItems : List Json → List Json → Prop
  | nil : MergedItems [] []
  | cons {v v' : Json} {items items' : List Json} (head : Merged v v')
      (tail : MergedItems items items') : MergedItems (v :: items) (v' :: items')

/-- `Merged` for each member's value. -/
inductive MergedMembers : List (String × Json) → List (String × Json) → Prop
  | nil : MergedMembers [] []
  | cons {key : String} {v v' : Json} {members members' : List (String × Json)} (head : Merged v v')
      (tail : MergedMembers members members') :
      MergedMembers ((key, v) :: members) ((key, v') :: members')

end

theorem keys_mergeMembers (members : List (String × Json)) :
    (mergeMembers members).map Prod.fst = members.map Prod.fst := by
  induction members with
  | nil => rfl
  | cons m members ih => rw [mergeMembers, List.map_cons, List.map_cons, ih]

mutual

/-- Merging repeated keys gives what it is said to give. -/
theorem merged_merge : ∀ v : Json, Merged v v.merge
  | .null => .null
  | .bool b => .bool b
  | .number n => .number n
  | .string s => .string s
  | .array items => .array (merged_mergeItems items)
  | .object members => by
    refine .object (merged_mergeMembers members) ?_ (Members.lookup_ofList _)
    rw [Members.keys_ofList, keys_mergeMembers]

theorem merged_mergeItems : ∀ items : List Json, MergedItems items (mergeItems items)
  | [] => .nil
  | v :: items => .cons (merged_merge v) (merged_mergeItems items)

theorem merged_mergeMembers : ∀ members : List (String × Json),
    MergedMembers members (mergeMembers members)
  | [] => .nil
  | (_, v) :: members => .cons (merged_merge v) (merged_mergeMembers members)

end

end Json

/-! ## 2. Lines of values -/

namespace Utf8

/-- The byte of the line feed stands for nothing else. -/
theorem feed_mem_encodeChar {c : Char} (h : Line.feed ∈ String.utf8EncodeChar c) : c = '\n' := by
  rcases Nat.lt_or_ge 127 c.toNat with hhigh | hascii
  · exact absurd (high_of_mem_encodeChar hhigh h) (by decide)
  · rw [encodeChar_of_ascii hascii] at h
    have hcode : 10 = c.toNat % 256 := congrArg UInt8.toNat (List.mem_singleton.mp h)
    exact Char.toNat_inj.mp (show c.toNat = 10 by omega)

/-- So a text without a line feed has no byte of one. -/
theorem feed_not_mem_encode {text : List Char} (h : '\n' ∉ text) :
    Line.feed ∉ encode (String.ofList text) := by
  intro hfeed
  rw [encode_eq_flatMap, String.toList_ofList] at hfeed
  obtain ⟨c, hc, hfeed⟩ := List.mem_flatMap.mp hfeed
  exact h (feed_mem_encodeChar hfeed ▸ hc)

end Utf8

namespace Ndjson

variable {maxDepth : Nat} {lines : List Line} {values : List Json} {v : Json}

/-- The bytes of a value's line. -/
def lineBytes (v : Json) : Line :=
  Utf8.encode (line v)

/-- The lines of some values, one after the other, are cut where they were joined: the one line feed
of each is its last byte. -/
theorem cuts_lines (values : List Json) :
    Line.Cuts (Utf8.encode (String.join (values.map line))) (values.map lineBytes) := by
  induction values with
  | nil => exact .nil
  | cons v values ih =>
    have hfeed : Line.feed ∉ Utf8.encode v.render :=
      Utf8.feed_not_mem_encode (Json.lawful.feed_not_mem_compact v)
    have hcuts := Line.Cuts.cons hfeed ih
    have hline : lineBytes v = Utf8.encode v.render ++ [Line.feed] := Utf8.encode_append _ _
    rw [List.map_cons, List.map_cons, String.join_cons, Utf8.encode_append]
    change Line.Cuts (lineBytes v ++ _) (lineBytes v :: _)
    rw [hline, List.append_assoc, List.singleton_append]
    exact hcuts

/-- The line of a value says this value, repeated keys merged.  It is no blank line, its brackets
nest as deep as the value, and its text is parsed to the value. -/
theorem says_line (hdepth : v.depth ≤ maxDepth) : Says maxDepth (lineBytes v) (some v.merge) := by
  have htext : (line v).toList = v.compact ++ ['\n'] := by
    simp [line, Json.render]
  have hfeed : ∀ c ∈ ['\n'], c ∈ [' ', '\t', '\n', '\r'] := by simp
  refine .document (Utf8.decode_encode _) ?_ ?_ ?_
  · have hvisible := Json.lawful.visible_compact v
    rw [htext, ne_eq, Text.trim_eq_nil, Text.isBlankText, List.all_append]
    rw [Text.isBlankText] at hvisible
    simp [hvisible]
  · rw [htext, Json.lawful.bracketDepth_compact v hfeed]
    exact hdepth
  · rw [← String.ofList_toList (s := line v), htext]
    exact Json.lawful.parse_compact v hfeed

/-- Values that some lines say are said by their own lines. -/
theorem Good.lineBytes (h : Good maxDepth lines values) :
    Good maxDepth (values.map lineBytes) values := by
  induction h with
  | nil => exact .nil
  | blank _ _ ih => exact ih
  | @document line lines v values head _ ih =>
    have hline := says_line head.fits.1
    rw [Json.merge_eq_self v head.fits.2] at hline
    exact .document hline ih

/-! ## 3. Lines that are not blank -/

/-- Whether a line is text that is all blanks. -/
def isBlankLine (line : Line) : Bool :=
  match Utf8.decode line with
  | .ok text => Text.isBlankText text.toList
  | .error _ => false

/-- A line is a document, and this is the document's value, repeated keys merged. -/
def Holds (line : Line) (v : Json) : Prop :=
  ∃ text document, Utf8.decode line = .ok text ∧ Json.document text.toList = .ok document ∧
    Json.Merged document v

/-- A line that says a value is not blank, and holds it. -/
theorem Says.holds {line : Line} (h : Says maxDepth line (some v)) :
    isBlankLine line = false ∧ Holds line v := by
  cases h with
  | @document text _ utf8 visible _ json =>
    constructor
    · simp only [isBlankLine, utf8]
      rwa [ne_eq, Text.trim_eq_nil, Bool.not_eq_true] at visible
    · obtain ⟨document, hdocument, rfl⟩ := Json.lawful.parse_eq_ok.mp json
      exact ⟨text, document, utf8, hdocument, Json.merged_merge document⟩

theorem Says.isBlank {line : Line} (h : Says maxDepth line none) : isBlankLine line = true := by
  cases h with
  | blank utf8 blank =>
    simp only [isBlankLine, utf8]
    rwa [Text.trim_eq_nil] at blank

/-- The lines that are not blank hold the values, one each and in order. -/
theorem Good.holds (h : Good maxDepth lines values) :
    List.Forall₂ Holds (lines.filter fun line => !isBlankLine line) values := by
  induction h with
  | nil => exact .nil
  | blank head _ ih =>
    rw [List.filter_cons_of_neg (by simp [head.isBlank])]
    exact ih
  | document head _ ih =>
    obtain ⟨hvisible, hholds⟩ := head.holds
    rw [List.filter_cons_of_pos (by simp [hvisible])]
    exact .cons hholds ih

/-! ## 4. There and back -/

variable {options : EncodeOptions} {limits : Limits} {bytes : List UInt8}

/-- An input encoded, and what came of that decoded again. -/
def recode (bytes : List UInt8) (options : EncodeOptions) (limits : Limits) : Except Fault String :=
  let encoded := encode (Tape.ofBytes bytes) options .accepting
  match encoded.outcome with
  | .error fault => .error fault
  | .ok _ =>
    let decoded := decode (Tape.ofBytes encoded.output) limits .accepting
    decoded.outcome.map fun _ => decoded.output

/-- The limits of a reader admit what is encoded for some values, and 64 bits hold its length. -/
structure Admits (limits : Limits) (options : EncodeOptions) (values : List Json) : Prop where
  calls : Call.AllAdmitted limits (Encoder.new options).start.state (values.map .put)
  length : (stream options values).length < UInt64.size

/-- Lines that say something come back as the lines of the values that they say.  What the limits
have to admit is the values as they are encoded, which is known before anything is decoded. -/
theorem recode_good (hlines : Line.Cuts bytes lines) (hgood : Good options.maxNestingDepth lines values)
    (hadmits : Admits limits options values) :
    recode bytes options limits = .ok (String.join (values.map line)) := by
  obtain ⟨hok, e', hencode, -⟩ := encodeLines_good hgood hlines
  have hdecoded := (carries_of_ok hgood.distinct hok).decoded limits hadmits.calls hadmits.length
  obtain ⟨entries, final, hends, hvalues⟩ := Decoder.ends_of_decodeValues hdecoded
  obtain ⟨s, hstream⟩ := Decoder.stream_of_ends hends
  have hencoded : encode (Tape.ofBytes bytes) options .accepting =
      ⟨stream options values, .ok e'.summary⟩ := by
    rw [encode, hencode]
    rfl
  have hdecode := decode_of_stream hstream
  rw [← hvalues] at hdecode
  rw [recode, hencoded]
  simp only [hdecode]
  rfl

/-- **NDJSON made canonical.**  Take any bytes whose lines all say something, encode them in any
way, and decode the stream with limits that admit it.

* That succeeds, and the output has one line for each line that is not blank, in order: the compact
  text of the line's document, repeated keys merged.
* The output is cut into just these lines, and they say the same values.
* Encoded in any other way to the same depth and decoded again, the output comes back unchanged. -/
theorem recode_canonical (options : EncodeOptions) (limits : Limits) (bytes : List UInt8)
    (lines : List Line) (values : List Json) (hlines : Line.Cuts bytes lines)
    (hgood : Good options.maxNestingDepth lines values) (hadmits : Admits limits options values) :
    let output := String.join (values.map line)
    recode bytes options limits = .ok output ∧
      List.Forall₂ Holds (lines.filter fun line => !isBlankLine line) values ∧
      Line.Cuts (Utf8.encode output) (values.map lineBytes) ∧
      Good options.maxNestingDepth (values.map lineBytes) values ∧
      ∀ options' limits', options'.maxNestingDepth = options.maxNestingDepth →
        Admits limits' options' values →
          recode (Utf8.encode output) options' limits' = .ok output := by
  intro output
  refine ⟨recode_good hlines hgood hadmits, hgood.holds, cuts_lines values, hgood.lineBytes, ?_⟩
  intro options' limits' hdepth hadmits'
  rw [← hdepth] at hgood
  -- The second pass is the first one over other lines, which are good for the same values.
  exact recode_good (cuts_lines values) hgood.lineBytes hadmits'

/-- An object that repeats a key, and an empty line; what comes back, encoded in another way. -/
theorem recode_canonical_repeated :
    let options : EncodeOptions := { maxNestingDepth := 1 }
    let other : EncodeOptions := { maxNestingDepth := 1, internThreshold := 1, clearThreshold := some 1 }
    let one : Json := .number (.integer ⟨1, by decide, by decide⟩)
    let values : List Json := [.object [("a", one)]]
    let lines : List Line := [Utf8.encode "\x7b\"a\":null,\"a\":1\x7d\n", [0x0A]]
    Line.Cuts lines.flatten lines ∧ Good 1 lines values ∧ Admits {} options values ∧
      Admits {} other values ∧ recode lines.flatten options {} = .ok "\x7b\"a\":1\x7d\n" ∧
      recode (Utf8.encode "\x7b\"a\":1\x7d\n") other {} = .ok "\x7b\"a\":1\x7d\n" := by
  intro options other one values lines
  have hlines : Line.Cuts lines.flatten lines := by
    have hsplit : Line.split lines.flatten = lines := by decide +kernel
    rw [← hsplit]
    exact Line.cuts_split _
  have hgood : Good 1 lines values := by
    have hfirst := @says_line 1 (.object [("a", .null), ("a", one)]) (by decide)
    have hempty : Says 1 [0x0A] none := .blank (Utf8.decode_encode "\n") (by decide)
    exact .document hfirst (.blank hempty .nil)
  have hshort : Encoder.Short {} (Json.object [("a", one)]).texts := by
    intro s hs
    obtain rfl : s = "a" := List.mem_singleton.mp hs
    decide
  have hadmits : Admits {} options values :=
    ⟨⟨⟨hshort, fun _ => ⟨by decide, by decide +kernel, by decide +kernel⟩⟩, trivial⟩,
      by decide +kernel⟩
  have hadmits' : Admits {} other values :=
    ⟨⟨⟨hshort, fun _ => ⟨by decide, by decide +kernel, by decide +kernel⟩⟩, trivial⟩,
      by decide +kernel⟩
  obtain ⟨hrecode, -, -, -, hagain⟩ :=
    recode_canonical options {} lines.flatten lines values hlines hgood hadmits
  exact ⟨hlines, hgood, hadmits, hadmits', hrecode, hagain other {} rfl hadmits'⟩

end Ndjson

end DictLog
