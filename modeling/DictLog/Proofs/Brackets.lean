/-
# Counting brackets is as good as parsing

Before a line is parsed, its brackets are counted, and they are counted byte by byte.  No byte of a
character beyond ASCII is one of those that the count looks for, so this comes to the count over
characters (`bytesBracketDepth_encode`), and where the text is a JSON document, to the depth of what
the text says before repeated keys are merged (`Json.Lawful.depth_document`).

So a line that is accepted can be written, whatever the encoder has seen before, and encoding lines of
text fails for nothing but a line that is no JSON document or one that nests too deep
(`bracketDepth_agrees`).
-/
import DictLog.Proofs.Lines

namespace DictLog

/-! ## 1. Brackets in bytes -/

namespace Json

namespace BracketScan

/-- The scan after one more byte. -/
def stepByte (s : BracketScan) (b : UInt8) : BracketScan :=
  if s.inString then
    if s.escaped then { s with escaped := false }
    else if b = '\\'.toUInt8 then { s with escaped := true }
    else if b = '"'.toUInt8 then { s with inString := false }
    else s
  else if b = '"'.toUInt8 then { s with inString := true }
  else if b = '['.toUInt8 ∨ b = '\x7b'.toUInt8 then
    { s with depth := s.depth + 1, deepest := max s.deepest (s.depth + 1) }
  else if b = ']'.toUInt8 ∨ b = '\x7d'.toUInt8 then { s with depth := s.depth - 1 }
  else s

/-- The scan after something that it does not look for. -/
def pass (s : BracketScan) : BracketScan :=
  if s.inString then { s with escaped := false } else s

@[simp] theorem pass_pass (s : BracketScan) : s.pass.pass = s.pass := by
  unfold pass
  split <;> simp_all

variable {s : BracketScan} {c d : Char} {b : UInt8}

/-- A character beyond ASCII is nothing that the scan looks for. -/
theorem step_of_high (h : 127 < c.toNat) : step s c = s.pass := by
  have hne : ∀ d : Char, d.toNat ≤ 127 → c ≠ d := by
    rintro d hd rfl
    omega
  obtain ⟨depth, deepest, inString, escaped⟩ := s
  cases inString <;> cases escaped <;> simp [step, pass, hne]

/-- A byte of one is nothing that the scan looks for either. -/
theorem stepByte_of_high (h : 127 < b.toNat) : stepByte s b = s.pass := by
  have hne : ∀ d : Char, d.toUInt8.toNat ≤ 127 → b ≠ d.toUInt8 := by
    rintro d hd rfl
    omega
  obtain ⟨depth, deepest, inString, escaped⟩ := s
  cases inString <;> cases escaped <;>
    simp [stepByte, pass, hne '\\' (by decide), hne '"' (by decide), hne '[' (by decide),
      hne '\x7b' (by decide), hne ']' (by decide), hne '\x7d' (by decide)]

/-- Several such bytes are passed over like one. -/
theorem foldl_of_high {bytes : List UInt8} (hne : bytes ≠ []) (h : ∀ b ∈ bytes, 127 < b.toNat) :
    bytes.foldl stepByte s = s.pass := by
  induction bytes generalizing s with
  | nil => exact absurd rfl hne
  | cons b rest ih =>
    obtain ⟨hb, hrest⟩ := List.forall_mem_cons.mp h
    rw [List.foldl_cons, stepByte_of_high hb]
    cases rest with
    | nil => rfl
    | cons _ _ => rw [ih (List.cons_ne_nil _ _) hrest, pass_pass]

/-- An ASCII character is its byte, and the scans do the same with it.  They compare with six
characters, each of which is the byte exactly if it is the character. -/
theorem stepByte_of_ascii (h : c.toNat ≤ 127) : stepByte s (UInt8.ofNat c.toNat) = step s c := by
  have hiff : ∀ d : Char, d.toNat ≤ 127 → (UInt8.ofNat c.toNat = d.toUInt8 ↔ c = d) := by
    intro d hd
    constructor
    · intro heq
      have hnat : c.toNat % 256 = d.toNat % 256 := congrArg UInt8.toNat heq
      exact Char.toNat_inj.mp (by omega)
    · rintro rfl
      rfl
  simp only [stepByte, step, hiff '\\' (by decide), hiff '"' (by decide), hiff '[' (by decide),
    hiff '\x7b' (by decide), hiff ']' (by decide), hiff '\x7d' (by decide)]

/-- The bytes of a character come to what the character does. -/
theorem foldl_encodeChar (s : BracketScan) (c : Char) :
    (String.utf8EncodeChar c).foldl stepByte s = step s c := by
  rcases Nat.lt_or_ge 127 c.toNat with hhigh | hascii
  · rw [step_of_high hhigh]
    exact foldl_of_high (by simp) fun b => Utf8.high_of_mem_encodeChar hhigh
  · rw [Utf8.encodeChar_of_ascii hascii]
    exact stepByte_of_ascii hascii

end BracketScan

/-- How deep the brackets of a text nest, counted byte by byte. -/
def bytesBracketDepth (bytes : List UInt8) : Nat :=
  (bytes.foldl BracketScan.stepByte {}).deepest

/-- Counting bytes and counting characters come to the same.  The bytes of a character beyond ASCII
are none that a scan looks for, so they do what that character does: nothing, or ending an escape. -/
theorem bytesBracketDepth_encode (text : String) :
    bytesBracketDepth (Utf8.encode text) = bracketDepth text.toList := by
  have hfold : ∀ (cs : List Char) (s : BracketScan),
      (cs.flatMap String.utf8EncodeChar).foldl BracketScan.stepByte s =
        cs.foldl BracketScan.step s := by
    intro cs
    induction cs with
    | nil => exact fun _ => rfl
    | cons c cs ih =>
      intro s
      rw [List.flatMap_cons, List.foldl_append, BracketScan.foldl_encodeChar, List.foldl_cons, ih]
  rw [bytesBracketDepth, Utf8.encode_eq_flatMap, hfold, bracketDepth]

end Json

/-! ## 2. Lines -/

namespace Ndjson

variable {options : EncodeOptions} {bytes : List UInt8} {lines : List Line} {fault : Fault}

/-- What can be wrong with a line of text. -/
inductive Misread (maxDepth number : Nat) : Fault → Prop
  | invalid (cause : Json.SyntaxFault) : Misread maxDepth number (.invalidLine number cause)
  | tooDeep : Misread maxDepth number (.limit (.lineNesting maxDepth number))

/-- Encoding lines of text fails only for one of the lines.  Starting, writing and finishing cannot
fail, since the sink takes everything and what a line says is not too deep. -/
theorem misread_of_encode (hlines : Line.Cuts bytes lines)
    (htext : ∀ line ∈ lines, ∃ text, Utf8.decode line = .ok text)
    (h : (encode (Tape.ofBytes bytes) options .accepting).outcome = .error fault) :
    ∃ number, 1 ≤ number ∧ number ≤ lines.length ∧
      Misread options.maxNestingDepth number fault := by
  rcases good_or_faulty options.maxNestingDepth lines 1 with
    ⟨values, hgood⟩ | ⟨good, values, bad, rest, found, rfl, hgood, hbad⟩
  · obtain ⟨-, summary, hok, -⟩ := encode_good hgood hlines
    rw [hok] at h
    cases h
  · rw [Nat.add_comm] at hbad
    have herror := (encode_faulty hgood hbad hlines).2
    rw [herror] at h
    obtain rfl := Except.error.inj h
    refine ⟨good.length + 1, Nat.le_add_left .., by simp, ?_⟩
    cases hbad with
    -- The third way for a line to be at fault is that it is no text, and that is excluded here.
    | notUtf8 utf8 =>
      obtain ⟨text, htext⟩ := htext bad (by simp)
      exact absurd htext (utf8 text)
    | tooDeep _ _ _ => exact .tooDeep
    | invalid _ _ _ _ => exact .invalid _

/-- A value that a line says is accepted by any encoder with these options. -/
theorem put_of_readLine {number : Nat} {line : Line} {v : Json} {e : Encoder}
    (h : readLine options.maxNestingDepth number line = .ok (some v)) (he : e.options = options) :
    (e.put v).outcome = .ok () := by
  rcases says_or_faulty options.maxNestingDepth number line with ⟨said, hsaid⟩ | ⟨found, hfound⟩
  · rw [readLine_of_text hsaid] at h
    obtain rfl := Except.ok.inj h
    exact (Encoder.put_of_le (he ▸ hsaid.fits.1)).1
  · rw [readLine_of_faulty hfound] at h
    cases h

/-- **Counting brackets is as good as parsing.**  Take any options.

* Where a text parses, its brackets, counted byte by byte or character by character, nest as deep as
  what it says before repeated keys are merged; so what is parsed is no deeper, and exactly as deep
  if no object repeats a key.
* So a value that a line says can be written by any encoder with these options, whatever it has
  seen.
* And encoding bytes whose lines are all text fails only for a line of some number, which is no JSON
  document or nests too deep. -/
theorem bracketDepth_agrees (options : EncodeOptions) :
    (∀ text v, Json.parse text = .ok v → ∃ tree,
      Json.document text.toList = .ok tree ∧ tree.merge = v ∧
      Json.bytesBracketDepth (Utf8.encode text) = tree.depth ∧
      Json.bracketDepth text.toList = tree.depth ∧
      v.depth ≤ tree.depth ∧ (tree.Distinct → v.depth = tree.depth)) ∧
    (∀ number line v, readLine options.maxNestingDepth number line = .ok (some v) →
      ∀ e : Encoder, e.options = options → (e.put v).outcome = .ok ()) ∧
    (∀ bytes lines, Line.Cuts bytes lines → (∀ line ∈ lines, ∃ text, Utf8.decode line = .ok text) →
      ∀ fault, (encode (Tape.ofBytes bytes) options .accepting).outcome = .error fault →
        ∃ number, 1 ≤ number ∧ number ≤ lines.length ∧
          Misread options.maxNestingDepth number fault) := by
  refine ⟨fun text v h => ?_, fun number line v h e he => put_of_readLine h he,
    fun bytes lines hlines htext fault h => misread_of_encode hlines htext h⟩
  obtain ⟨tree, htree, rfl⟩ := Json.lawful.parse_eq_ok.mp h
  have hdepth := Json.lawful.depth_document _ _ htree
  refine ⟨tree, htree, rfl, ?_, hdepth.symm, Json.depth_merge tree, fun hdistinct => ?_⟩
  · rw [Json.bytesBracketDepth_encode, hdepth]
  · rw [Json.merge_eq_self tree hdistinct]

/-- A document that repeats a key, as a text and as a line, and an input whose second line nests too
deep. -/
theorem bracketDepth_agrees_repeated :
    let options : EncodeOptions := { maxNestingDepth := 2 }
    let text := "\x7b\"a\":[\"]\\\"[\"],\"a\":null\x7d\n"
    let line : Line := Utf8.encode text
    let deep : Line := [0x5B, 0x5B, 0x5B]
    (∃ tree, Json.document text.toList = .ok tree ∧
      tree.merge = .object [("a", .null)] ∧ Json.bytesBracketDepth line = tree.depth) ∧
    ((Encoder.new options).put (.object [("a", .null)])).outcome = .ok () ∧
    ∃ number fault, (encode (Tape.ofBytes (line ++ deep)) options .accepting).outcome = .error fault ∧
      1 ≤ number ∧ number ≤ 2 ∧ Misread 2 number fault := by
  intro options text line deep
  obtain ⟨htexts, hputs, hinputs⟩ := bracketDepth_agrees options
  have hparse : Json.parse text = .ok (.object [("a", .null)]) := by
    have hchars : text.toList = ['\x7b', '"', 'a', '"', ':', '[', '"', ']', '\\', '"', '[', '"', ']',
      ',', '"', 'a', '"', ':', 'n', 'u', 'l', 'l', '\x7d', '\n'] := by decide
    refine Json.lawful.parse_eq_ok.mpr ⟨.object [("a", .array [.string "]\"["]), ("a", .null)], ?_, rfl⟩
    rw [hchars]
    rfl
  have hline : Utf8.decode line = .ok text := Utf8.decode_encode text
  have hdeep : Utf8.decode deep = .ok "[[[" := Utf8.decode_encode "[[["
  have hsaid : Says 2 line (some (.object [("a", .null)])) :=
    .document hline (by decide) (by decide) hparse
  have hcuts : Line.Cuts (line ++ deep) [line, deep] := by
    have hsplit : Line.split (line ++ deep) = [line, deep] := by decide
    rw [← hsplit]
    exact Line.cuts_split _
  have hutf8 : ∀ l ∈ [line, deep], ∃ text, Utf8.decode l = .ok text := by
    simp [hline, hdeep]
  have herror : (encode (Tape.ofBytes (line ++ deep)) options .accepting).outcome =
      .error (.limit (.lineNesting 2 2)) :=
    (encode_faulty (.document hsaid .nil) (.tooDeep hdeep (by decide) (by decide)) hcuts).2
  obtain ⟨tree, htree, hmerge, hbytes, -⟩ := htexts text _ hparse
  obtain ⟨number, hfirst, hlast, hmisread⟩ := hinputs _ _ hcuts hutf8 _ herror
  exact ⟨⟨tree, htree, hmerge, hbytes⟩,
    hputs 1 line _ (readLine_of_text hsaid) (Encoder.new options) rfl,
    number, _, herror, hfirst, hlast, hmisread⟩

end Ndjson

end DictLog
