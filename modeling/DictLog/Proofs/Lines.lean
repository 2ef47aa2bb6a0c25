/-
# Lines of text are encoded up to the first faulty one

Encoding a text line by line gives the stream that the values of its lines would give at once, and
if there is a faulty line, the stream of the values before it (`encode_lines`).  A line is faulty
if it is no UTF-8, or if it is not blank and its brackets nest too deep, or if they do not and it is
no JSON document (`Faulty`); a line that is not faulty says something (`Says`).

What a line says is never too deep to be written: the brackets were counted before.  So nothing of a
faulty line gets into the stream, and nothing that came before it is left out.
-/
import DictLog.Ndjson.Encode
import DictLog.Proofs.Documents
import DictLog.Proofs.Session

namespace DictLog

/-! ## 1. Cutting into lines -/

namespace Line

/-- Some bytes cut into lines.  Each line ends with its line feed and has no other; the last may lack
it, but then it is not empty. -/
inductive Cuts : List UInt8 → List Line → Prop
  | nil : Cuts [] []
  | last {text : List UInt8} (hne : text ≠ []) (hfeed : feed ∉ text) : Cuts text [text]
  | cons {text rest : List UInt8} {lines : List Line} (hfeed : feed ∉ text)
      (tail : Cuts rest lines) : Cuts (text ++ feed :: rest) ((text ++ [feed]) :: lines)

variable {bytes : List UInt8} {lines : List Line}

/-- Bytes without a line feed go in front of the line that is being collected. -/
theorem splitFrom_append {text : List UInt8} (hfeed : feed ∉ text) (rest : List UInt8) :
    ∀ front, splitFrom front (text ++ rest) = splitFrom (text.reverse ++ front) rest := by
  induction text with
  | nil => simp
  | cons b text ih =>
    intro front
    simp only [List.mem_cons, not_or] at hfeed
    rw [List.cons_append, splitFrom, if_neg (Ne.symm hfeed.1), ih hfeed.2]
    simp

/-- There is one way to cut bytes into lines. -/
theorem Cuts.split_eq (h : Cuts bytes lines) : split bytes = lines := by
  induction h with
  | nil => rfl
  | @last text hne hfeed =>
    have hall := splitFrom_append hfeed [] []
    simp only [List.append_nil] at hall
    simp [split, hall, splitFrom, hne]
  | cons hfeed _ ih =>
    rw [split, splitFrom_append hfeed, splitFrom, if_pos rfl, ← split, ih]
    simp

/-- What has been collected in front belongs to the first line, so it must have no line feed in it. -/
theorem cuts_splitFrom (bytes : List UInt8) :
    ∀ front, feed ∉ front → Cuts (front.reverse ++ bytes) (splitFrom front bytes) := by
  induction bytes with
  | nil =>
    intro front hfeed
    rw [splitFrom]
    split
    · rename_i hnil
      rw [List.isEmpty_iff.mp hnil]
      exact .nil
    · rename_i hne
      rw [List.append_nil]
      exact .last (by simpa using hne) (by simpa using hfeed)
  | cons b bytes ih =>
    intro front hfeed
    rw [splitFrom]
    split
    · rename_i hb
      subst hb
      rw [List.reverse_cons]
      exact .cons (by simpa using hfeed) (ih [] List.not_mem_nil)
    · rename_i hb
      have hmore := ih (b :: front) (by simp [Ne.symm hb, hfeed])
      simpa using hmore

theorem cuts_split (bytes : List UInt8) : Cuts bytes (split bytes) :=
  cuts_splitFrom bytes [] List.not_mem_nil

end Line

/-! ## 2. What a line says -/

namespace Text

/-- A text without the blanks at its ends. -/
def trim (text : List Char) : List Char :=
  ((text.dropWhile isBlank).reverse.dropWhile isBlank).reverse

/-- A text is blank if nothing is left of it behind its first blanks. -/
theorem isBlankText_iff {text : List Char} :
    isBlankText text = true ↔ text.dropWhile isBlank = [] := by
  induction text with
  | nil => simp [isBlankText]
  | cons c text ih =>
    rw [isBlankText, List.all_cons, ← isBlankText, List.dropWhile_cons]
    cases isBlank c <;> simp [ih]

/-- Trimming leaves nothing of a text that is all blanks, and of no other.  So it does not matter in
which of the two ways a blank line is recognized. -/
theorem trim_eq_nil {text : List Char} : trim text = [] ↔ isBlankText text = true := by
  rw [trim, List.reverse_eq_nil_iff, ← isBlankText_iff]
  have hall : isBlankText (text.dropWhile isBlank).reverse = true ↔
      isBlankText (text.dropWhile isBlank) = true := by simp [isBlankText]
  rw [hall]
  constructor
  · intro h
    rw [← List.takeWhile_append_dropWhile (p := isBlank) (l := text), isBlankText, List.all_append,
      Bool.and_eq_true]
    exact ⟨List.all_takeWhile, h⟩
  · intro h
    rw [isBlankText_iff.mp h]
    rfl

end Text

namespace Ndjson

/-- What a line says where brackets may nest so deep: nothing if it is blank, else its document. -/
inductive Says (maxDepth : Nat) (line : Line) : Option Json → Prop
  | blank {text : String} (utf8 : Utf8.decode line = .ok text)
      (blank : Text.trim text.toList = []) : Says maxDepth line none
  | document {text : String} {v : Json} (utf8 : Utf8.decode line = .ok text)
      (visible : Text.trim text.toList ≠ []) (flat : Json.bracketDepth text.toList ≤ maxDepth)
      (json : Json.parse text = .ok v) : Says maxDepth line (some v)

/-- What is wrong with the line of some number, which says nothing that could be understood. -/
inductive Faulty (maxDepth number : Nat) (line : Line) : Fault → Prop
  | notUtf8 (utf8 : ∀ text, Utf8.decode line ≠ .ok text) :
      Faulty maxDepth number line (.io .notUtf8)
  | tooDeep {text : String} (utf8 : Utf8.decode line = .ok text)
      (visible : Text.trim text.toList ≠ []) (deep : maxDepth < Json.bracketDepth text.toList) :
      Faulty maxDepth number line (.limit (.lineNesting maxDepth number))
  | invalid {text : String} {cause : Json.SyntaxFault} (utf8 : Utf8.decode line = .ok text)
      (visible : Text.trim text.toList ≠ []) (flat : Json.bracketDepth text.toList ≤ maxDepth)
      (json : Json.parse text = .error cause) : Faulty maxDepth number line (.invalidLine number cause)

variable {maxDepth number : Nat} {line : Line} {said : Option Json} {fault : Fault}

/-- What becomes of a line that is text, in the order in which it is looked at: blank lines are
passed over, brackets are counted, and only then is the line parsed. -/
theorem readLine_of_utf8 {text : String} (utf8 : Utf8.decode line = .ok text) :
    readLine maxDepth number line =
      if Text.trim text.toList = [] then .ok none
      else if maxDepth < Json.bracketDepth text.toList then
        .error (.limit (.lineNesting maxDepth number))
      else ((Json.parse text).map some).mapError (Fault.invalidLine number) := by
  simp only [readLine, utf8, Text.trim_eq_nil]
  split
  · rfl
  · split
    · rfl
    · cases Json.parse text <;> rfl

/-- A line is judged as it is said to be. -/
theorem readLine_of_text (h : Says maxDepth line said) :
    readLine maxDepth number line = .ok said := by
  cases h with
  | blank utf8 blank => rw [readLine_of_utf8 utf8, if_pos blank]
  | document utf8 visible flat json =>
    rw [readLine_of_utf8 utf8, if_neg visible, if_neg (Nat.not_lt.mpr flat), json]
    rfl

/-- A line at fault is refused with its fault.  The three ways of being at fault exclude each other,
as each presumes that the checks before it were passed. -/
theorem readLine_of_faulty (h : Faulty maxDepth number line fault) :
    readLine maxDepth number line = .error fault := by
  cases h with
  | notUtf8 utf8 =>
    rw [readLine]
    cases hdecode : Utf8.decode line with
    | ok text => exact absurd hdecode (utf8 text)
    | error _ => rfl
  | tooDeep utf8 visible deep => rw [readLine_of_utf8 utf8, if_neg visible, if_pos deep]
  | invalid utf8 visible flat json =>
    rw [readLine_of_utf8 utf8, if_neg visible, if_neg (Nat.not_lt.mpr flat), json]
    rfl

/-- Every line says something or is faulty.  No line is left without an answer, whatever its bytes. -/
theorem says_or_faulty (maxDepth number : Nat) (line : Line) :
    (∃ said, Says maxDepth line said) ∨ ∃ fault, Faulty maxDepth number line fault := by
  cases hdecode : Utf8.decode line with
  | error f => exact .inr ⟨_, .notUtf8 (by simp [hdecode])⟩
  | ok text =>
    by_cases hblank : Text.trim text.toList = []
    · exact .inl ⟨none, .blank hdecode hblank⟩
    · rcases Nat.lt_or_ge maxDepth (Json.bracketDepth text.toList) with hdeep | hflat
      · exact .inr ⟨_, .tooDeep hdecode hblank hdeep⟩
      · cases hparse : Json.parse text with
        | ok v => exact .inl ⟨some v, .document hdecode hblank hflat hparse⟩
        | error cause => exact .inr ⟨_, .invalid hdecode hblank hflat hparse⟩

/-- What a line says is not too deep, and repeats no key. -/
theorem Says.fits {v : Json} (h : Says maxDepth line (some v)) : v.depth ≤ maxDepth ∧ v.Distinct := by
  cases h with
  | document utf8 visible flat json =>
    exact ⟨(Json.lawful.depth_le_of_parse json).trans flat, Json.lawful.distinct_of_parse json⟩

/-- Lines that all say something, and the documents among what they say. -/
inductive Good (maxDepth : Nat) : List Line → List Json → Prop
  | nil : Good maxDepth [] []
  | blank {line : Line} {lines : List Line} {values : List Json} (head : Says maxDepth line none)
      (tail : Good maxDepth lines values) : Good maxDepth (line :: lines) values
  | document {line : Line} {lines : List Line} {v : Json} {values : List Json}
      (head : Says maxDepth line (some v)) (tail : Good maxDepth lines values) :
      Good maxDepth (line :: lines) (v :: values)

/-- Either all lines say something, or there is a first faulty one, and its number counts blank
lines as well. -/
theorem good_or_faulty (maxDepth : Nat) (lines : List Line) : ∀ number,
    (∃ values, Good maxDepth lines values) ∨
      ∃ good values bad rest fault, lines = good ++ bad :: rest ∧ Good maxDepth good values ∧
        Faulty maxDepth (number + good.length) bad fault := by
  induction lines with
  | nil => exact fun _ => .inl ⟨[], .nil⟩
  | cons line lines ih =>
    intro number
    rcases says_or_faulty maxDepth number line with ⟨said, hsaid⟩ | ⟨fault, hfault⟩
    · have hcons : ∀ {lines values}, Good maxDepth lines values →
          ∃ values, Good maxDepth (line :: lines) values := by
        intro lines values h
        cases said with
        | none => exact ⟨_, .blank hsaid h⟩
        | some v => exact ⟨_, .document hsaid h⟩
      rcases ih (number + 1) with ⟨values, h⟩ | ⟨good, values, bad, rest, fault, rfl, h, hfault⟩
      · exact .inl (hcons h)
      · obtain ⟨values, h⟩ := hcons h
        refine .inr ⟨line :: good, values, bad, rest, fault, rfl, h, ?_⟩
        -- The numbers run on while lines are passed.
        have hnumber : number + (line :: good).length = number + 1 + good.length := by
          simp only [List.length_cons]
          omega
        rwa [hnumber]
    · exact .inr ⟨[], [], line, lines, fault, rfl, .nil, hfault⟩

end Ndjson

/-! ## 3. Values that are not too deep -/

namespace Payload

mutual

/-- A value is written exactly if there is room for all its levels.  The lexicon has no say in it, so
whether a value is accepted does not depend on what came before. -/
theorem outcome_write {limit : Nat} : ∀ (room : Nat) (v : Json) (l : Lexicon),
    (write limit room v l).outcome = .ok () ↔ v.depth ≤ room
  | _, .null, _ => iff_of_true rfl (Nat.zero_le _)
  | _, .bool _, _ => iff_of_true rfl (Nat.zero_le _)
  | _, .number _, _ => iff_of_true rfl (Nat.zero_le _)
  | _, .string s, l => by
    refine iff_of_true ?_ (Nat.zero_le _)
    rw [write, string]
    split <;> rfl
  | 0, .array _, _ => by simp [write, tooDeep, Emission.fail, Json.depth]
  | room + 1, .array items, l => by
    have hitems := @outcome_writeItems limit room items l
    simp only [write, Emission.outcome_andThen, tag, Emission.write, Json.depth]
    rw [true_and, and_true, hitems]
    omega
  | 0, .object _, _ => by simp [write, tooDeep, Emission.fail, Json.depth]
  | room + 1, .object members, l => by
    have hmembers := @outcome_writeMembers limit room members l
    simp only [write, Emission.outcome_andThen, tag, Emission.write, Json.depth]
    rw [true_and, and_true, hmembers]
    omega

theorem outcome_writeItems {limit : Nat} : ∀ (room : Nat) (items : List Json) (l : Lexicon),
    (writeItems limit room items l).outcome = .ok () ↔ Json.depthItems items ≤ room
  | _, [], _ => iff_of_true rfl (Nat.zero_le _)
  | room, v :: rest, l => by
    rw [writeItems, Emission.outcome_andThen, outcome_write room v l, outcome_writeItems room rest,
      Json.depthItems, Nat.max_le]

/-- Members are written if there is room for each value; their keys need none. -/
theorem outcome_writeMembers {limit : Nat} :
    ∀ (room : Nat) (members : List (String × Json)) (l : Lexicon),
      (writeMembers limit room members l).outcome = .ok () ↔ Json.depthMembers members ≤ room
  | _, [], _ => iff_of_true rfl (Nat.zero_le _)
  | room, (k, v) :: rest, l => by
    have hkey : (string .key k l).outcome = .ok () := by
      rw [string]
      split <;> rfl
    rw [writeMembers, Emission.outcome_andThen, Emission.outcome_andThen, outcome_write room v,
      outcome_writeMembers room rest, Json.depthMembers, Nat.max_le, and_iff_right hkey]

end

/-- What is written for a value that is not too deep means the value, in every dictionary that begins
with the lexicon's strings afterwards. -/
theorem value_ofJson {limits : Limits} {dictionary : List String} {limit : Nat} {v : Json}
    {l : Lexicon} (hv : v.Distinct) (hlimit : v.depth ≤ limit)
    (hdepth : v.depth ≤ limits.maxNestingDepth) (hshort : Encoder.Short limits v.texts)
    (hlength : (ofJson limit v l).bytes.length < UInt64.size)
    (hentries : (ofJson limit v l).state.entries <+: dictionary)
    (hsize : dictionary.length ≤ UInt64.size) :
    Grammar.Value limits dictionary limits.maxNestingDepth (ofJson limit v l).bytes v := by
  have hok : (ofJson limit v l).outcome = .ok () := (outcome_write limit v l).mpr hlimit
  have hvalue := value_write limit limits.maxNestingDepth v l
    ⟨hok, hlength, hshort, hentries, hsize⟩ hdepth
  rwa [Json.merge_eq_self v hv] at hvalue

end Payload

namespace Encoder

variable {e : Encoder} {v : Json} {values : List Json}

/-- Starting a stream succeeds and changes no option. -/
theorem start_ok (e : Encoder) : e.start.outcome = .ok () ∧ e.start.state.options = e.options := by
  rw [start]
  split <;> exact ⟨rfl, rfl⟩

theorem options_renew (e : Encoder) : e.renew.state.options = e.options := by
  rw [renew]
  split <;> rfl

theorem options_announce (e : Encoder) : e.announce.state.options = e.options := by
  rw [announce]
  split <;> rfl

/-- A value that is not too deep is accepted, in its epoch. -/
theorem putValue_of_le (h : v.depth ≤ e.options.maxNestingDepth) :
    (putValue v e).outcome = .ok () ∧ (putValue v e).state.options = e.options := by
  have hok : (e.payload v).outcome = .ok () := (Payload.outcome_write _ v e.lexicon).mpr h
  rw [putValue_eq]
  simp only [hok]
  rw [Emission.andThen_of_ok (outcome_announce _)]
  exact ⟨rfl, options_announce _⟩

/-- A value that is not too deep is accepted. -/
theorem put_of_le (h : v.depth ≤ e.options.maxNestingDepth) :
    (e.put v).outcome = .ok () ∧ (e.put v).state.options = e.options := by
  obtain ⟨hstart, hoptions⟩ := start_ok e
  have hroom : v.depth ≤ e.start.state.renew.state.options.maxNestingDepth := by
    rwa [options_renew, hoptions]
  obtain ⟨hok, hsame⟩ := putValue_of_le hroom
  rw [put, Emission.andThen_assoc, Emission.andThen_of_ok hstart,
    Emission.andThen_of_ok (outcome_renew _)]
  exact ⟨hok, by rw [hsame, options_renew, hoptions]⟩

end Encoder

/-! ## 4. Values one after the other -/

namespace Emission

/-- Going through two lists is going through one and then the other. -/
theorem forEach_append {σ α : Type} (step : α → σ → Emission σ) (items more : List α) :
    ∀ s, forEach step (items ++ more) s =
      (forEach step items s).andThen (forEach step more) := by
  induction items with
  | nil => simp
  | cons item items ih =>
    intro s
    rw [List.cons_append, forEach_cons, forEach_cons, andThen_assoc]
    congr
    exact funext ih

end Emission

namespace Delivery

/-- If all values are accepted, the sink is given what the encoder emits, and nothing waits.  Nothing
has been held back by a call that failed. -/
theorem run_puts {values : List Json} : ∀ {x : Delivery},
    (Emission.forEach Encoder.put values x.session.encoder).outcome = .ok () →
    x.session.waiting = [] →
    x.run (values.map .put) =
      ⟨x.sink ++ (Emission.forEach Encoder.put values x.session.encoder).bytes,
        ⟨(Emission.forEach Encoder.put values x.session.encoder).state, []⟩,
        x.accepted ++ values⟩ := by
  induction values with
  | nil =>
    rintro ⟨sink, ⟨encoder, waiting⟩, accepted⟩ _ rfl
    simp [run, Emission.skip, Emission.write]
  | cons v values ih =>
    rintro ⟨sink, ⟨encoder, waiting⟩, accepted⟩ hok rfl
    rw [Emission.forEach_cons] at hok ⊢
    obtain ⟨hput, hrest⟩ := Emission.outcome_andThen.mp hok
    have hsend := @Call.send_of_ok ⟨encoder, []⟩ (.put v) hput
    have hstep : step ⟨sink, ⟨encoder, []⟩, accepted⟩ (.put v) =
        ⟨sink ++ (encoder.put v).bytes, ⟨(encoder.put v).state, []⟩, accepted ++ [v]⟩ := by
      rw [step, hsend]
      rfl
    rw [List.map_cons, run, List.foldl_cons, hstep, ← run, ih hrest rfl,
      Emission.andThen_of_ok hput]
    simp

end Delivery

/-- The bytes are the stream of some values, and these are decoded from it wherever the limits of a
reader admit them and 64 bits hold its length. -/
structure Carries (options : EncodeOptions) (values : List Json) (bytes : List UInt8) : Prop where
  encoded : encodeValues values options = .ok bytes
  decoded : ∀ limits,
    Call.AllAdmitted limits (Encoder.new options).start.state (values.map .put) →
      bytes.length < UInt64.size → decodeValues bytes limits = .ok values

/-- The start of a stream, and what is emitted for some values behind it. -/
def stream (options : EncodeOptions) (values : List Json) : List UInt8 :=
  (Encoder.new options).start.bytes ++
    (Emission.forEach Encoder.put values (Encoder.new options).start.state).bytes

/-- What is emitted for values that are all accepted carries them: any reader with room for them
reads them back. -/
theorem carries_of_ok {options : EncodeOptions} {values : List Json}
    (hdistinct : ∀ v ∈ values, v.Distinct)
    (hok : (Emission.forEach Encoder.put values (Encoder.new options).start.state).outcome =
      .ok ()) : Carries options values (stream options values) where
  encoded := by
    rw [encodeValues, Emission.andThen_of_ok (Encoder.start_ok _).1]
    simp [hok, stream]
  decoded limits hadmitted hlength := by
    obtain ⟨header, entries, s, hstart⟩ := Delivery.sound_start limits options
    have hrun := Delivery.run_puts (x := Delivery.start options) hok rfl
    have hsink : (Delivery.start options).sink = (Encoder.new options).start.bytes := rfl
    -- That the values are decoded is `Delivery.sound_run`, for calls that all put a value.
    obtain ⟨_, _, _, hsound⟩ := Delivery.sound_run (values.map .put) hstart hadmitted
      (by simpa [Call.Distinct] using hdistinct) (by rw [hrun]; exact hlength)
    have hvalues := hsound.values_eq
    rw [hrun] at hvalues
    exact hvalues

namespace Ndjson

/-! ## 5. Lines one after the other -/

namespace Encoding

/-- `e'` is `e` after some lines with some documents. -/
structure After (lines : List Line) (values : List Json) (e e' : Encoding) : Prop where
  encoder : e'.session.encoder = (Emission.forEach Encoder.put values e.session.encoder).state
  waiting : e'.session.waiting = []
  linesRead : e'.linesRead = e.linesRead + lines.length
  blankLines : e'.blankLines + values.length = e.blankLines + lines.length
  bytesIn : e'.bytesIn = e.bytesIn + lines.flatten.length

variable {maxDepth : Nat} {line : Line} {lines : List Line} {values : List Json} {v : Json}
  {e e' : Encoding} {fault : Fault}

/-- A blank line is counted, and nothing else. -/
theorem putLine_blank (hdepth : e.session.encoder.options.maxNestingDepth = maxDepth)
    (h : Says maxDepth line none) :
    putLine line e = .skip { e.count line with blankLines := e.blankLines + 1 } := by
  rw [putLine, hdepth]
  simp only [readLine_of_text h]

/-- A document that was accepted is delivered at once, so a fault in a later line does not take it
back. -/
theorem putLine_document (hdepth : e.session.encoder.options.maxNestingDepth = maxDepth)
    (hwaiting : e.session.waiting = []) (h : Says maxDepth line (some v)) :
    (e.session.encoder.put v).outcome = .ok () ∧
      putLine line e = .write (e.session.encoder.put v).bytes
        { e.count line with session := ⟨(e.session.encoder.put v).state, []⟩ } := by
  have hok := (Encoder.put_of_le (hdepth ▸ h.fits.1)).1
  have hsend := @Call.send_of_ok e.session (.put v) hok
  rw [hwaiting, List.nil_append] at hsend
  refine ⟨hok, ?_⟩
  rw [putLine, hdepth]
  simp only [readLine_of_text h]
  show (Call.send e.session (.put v)).map _ = _
  rw [hsend]
  rfl

/-- A line at fault leaves the encoding as it was. -/
theorem putLine_faulty (hdepth : e.session.encoder.options.maxNestingDepth = maxDepth)
    (h : Faulty maxDepth (e.linesRead + 1) line fault) : putLine line e = .fail fault e := by
  rw [putLine, hdepth]
  simp only [readLine_of_faulty h]

/-- Lines that say something are encoded as the documents among them would be.  Blank lines leave
nothing behind but their count. -/
theorem forEach_putLine (h : Good maxDepth lines values) : ∀ {e : Encoding},
    e.session.encoder.options.maxNestingDepth = maxDepth → e.session.waiting = [] →
    (Emission.forEach Encoder.put values e.session.encoder).outcome = .ok () ∧
      ∃ e', Emission.forEach putLine lines e =
          .write (Emission.forEach Encoder.put values e.session.encoder).bytes e' ∧
        After lines values e e' ∧ e'.session.encoder.options.maxNestingDepth = maxDepth := by
  induction h with
  | nil =>
    intro e hdepth hwaiting
    exact ⟨rfl, e, rfl, ⟨rfl, hwaiting, rfl, rfl, rfl⟩, hdepth⟩
  | @blank line lines values head _ ih =>
    intro e hdepth hwaiting
    obtain ⟨hok, e', hrest, hafter, hdepth'⟩ :=
      ih (e := { e.count line with blankLines := e.blankLines + 1 }) hdepth hwaiting
    refine ⟨hok, e', ?_, ?_, hdepth'⟩
    · rw [Emission.forEach_cons, putLine_blank hdepth head, Emission.skip_andThen, hrest]
      rfl
    · obtain ⟨hencoder, hwaiting', hlines, hblank, hbytes⟩ := hafter
      simp only [count] at *
      refine ⟨hencoder, hwaiting', ?_, ?_, ?_⟩
      · simp only [List.length_cons]
        omega
      · simp only [List.length_cons]
        omega
      · simp only [List.flatten_cons, List.length_append]
        omega
  -- A document goes to the encoder, whose options stay the same, so that the next line is judged
  -- by the same depth.
  | @document line lines v values head _ ih =>
    intro e hdepth hwaiting
    obtain ⟨hput, hline⟩ := putLine_document hdepth hwaiting head
    have hoptions := (Encoder.put_of_le (hdepth ▸ head.fits.1)).2
    obtain ⟨hok, e', hrest, hafter, hdepth'⟩ :=
      ih (e := { e.count line with session := ⟨(e.session.encoder.put v).state, []⟩ })
        (by rw [← hdepth]; exact congrArg EncodeOptions.maxNestingDepth hoptions) rfl
    rw [Emission.forEach_cons, Emission.forEach_cons, Emission.andThen_of_ok hput, hline,
      Emission.write_andThen, hrest]
    refine ⟨hok, e', rfl, ?_, hdepth'⟩
    obtain ⟨hencoder, hwaiting', hlines, hblank, hbytes⟩ := hafter
    simp only [count] at *
    refine ⟨?_, hwaiting', ?_, ?_, ?_⟩
    · rw [Emission.forEach_cons, Emission.andThen_of_ok hput, hencoder]
    · simp only [List.length_cons]
      omega
    · simp only [List.length_cons]
      omega
    · simp only [List.flatten_cons, List.length_append]
      omega

end Encoding

/-! ## 6. Whole inputs -/

variable {options : EncodeOptions} {bytes : List UInt8} {lines good rest : List Line} {bad : Line}
  {values : List Json} {fault : Fault}

/-- What lines say repeats no key. -/
theorem Good.distinct {maxDepth : Nat} (h : Good maxDepth lines values) :
    ∀ v ∈ values, v.Distinct := by
  induction h with
  | nil => simp
  | blank _ _ ih => exact ih
  | document head _ ih => exact List.forall_mem_cons.mpr ⟨head.fits.2, ih⟩

/-- An encoding that has opened its stream and read nothing. -/
def opened (options : EncodeOptions) : Encoding :=
  { session := ⟨(Encoder.new options).start.state, []⟩ }

/-- Encoding lines: the start of a stream, the lines, and nothing at the end, since a document is
delivered as soon as it is accepted. -/
theorem encodeLines_eq (options : EncodeOptions) (bytes : List UInt8) :
    encodeLines (Tape.ofBytes bytes) options =
      (Emission.write (Encoder.new options).start.bytes (opened options)).andThen
        (Emission.forEach Encoding.putLine (Line.split bytes)) := by
  have hfinish : Encoding.finish .clean = Emission.skip := rfl
  show (Emission.andThen _ (Encoding.finish .clean)) = _
  rw [hfinish, Emission.andThen_skip]
  rfl

/-- Lines that all say something are encoded as the documents among them would be. -/
theorem encodeLines_good (h : Good options.maxNestingDepth lines values)
    (hlines : Line.Cuts bytes lines) :
    (Emission.forEach Encoder.put values (Encoder.new options).start.state).outcome = .ok () ∧
      ∃ e', encodeLines (Tape.ofBytes bytes) options = .write (stream options values) e' ∧
        Encoding.After lines values (opened options) e' := by
  obtain ⟨hok, e', hrest, hafter, -⟩ := Encoding.forEach_putLine h (e := opened options) rfl rfl
  refine ⟨hok, e', ?_, hafter⟩
  rw [encodeLines_eq, hlines.split_eq, Emission.write_andThen, hrest]
  rfl

/-- What a clean input of lines that all say something comes to: its values, and a summary that
counts all lines and all bytes. -/
theorem encode_good (h : Good options.maxNestingDepth lines values) (hlines : Line.Cuts bytes lines) :
    Carries options values (encode (Tape.ofBytes bytes) options .accepting).output ∧
      ∃ summary, (encode (Tape.ofBytes bytes) options .accepting).outcome = .ok summary ∧
        summary.linesRead = lines.length ∧ summary.blankLines + values.length = lines.length ∧
        summary.bytesIn = bytes.length := by
  obtain ⟨hok, e', hall, hafter⟩ := encodeLines_good h hlines
  have hbytes : bytes.length = lines.flatten.length := by
    rw [← hlines.split_eq, Line.flatten_split]
  rw [encode, hall]
  refine ⟨carries_of_ok h.distinct hok, e'.summary, rfl, ?_, ?_, ?_⟩
  · simpa [Encoding.summary, opened] using hafter.linesRead
  · simpa [Encoding.summary, opened] using hafter.blankLines
  · rw [hbytes]
    simpa [Encoding.summary, opened] using hafter.bytesIn

/-- What an input comes to that has a faulty line.  What has been written for the lines in front of
it stays, and lines behind it are not looked at. -/
theorem encode_faulty (h : Good options.maxNestingDepth good values)
    (hbad : Faulty options.maxNestingDepth (good.length + 1) bad fault)
    (hlines : Line.Cuts bytes (good ++ bad :: rest)) :
    Carries options values (encode (Tape.ofBytes bytes) options .accepting).output ∧
      (encode (Tape.ofBytes bytes) options .accepting).outcome = .error fault := by
  obtain ⟨hok, e', hgood, hafter, hdepth⟩ := Encoding.forEach_putLine h (e := opened options) rfl rfl
  have hcarries := carries_of_ok h.distinct hok
  have hnumber : e'.linesRead = good.length := by simpa [opened] using hafter.linesRead
  rw [← hnumber] at hbad
  have hall : encodeLines (Tape.ofBytes bytes) options =
      ⟨stream options values, e', .error fault⟩ := by
    rw [encodeLines_eq, hlines.split_eq, Emission.write_andThen, Emission.forEach_append, hgood,
      Emission.write_andThen, Emission.forEach_cons, Encoding.putLine_faulty hdepth hbad,
      Emission.fail_andThen]
    simp [Emission.fail, stream, opened]
  rw [encode, hall]
  exact ⟨hcarries, rfl⟩

/-- **Encoding lines.**  Take any bytes, cut into lines.

* If every line says something, encoding succeeds, and the output is the stream of the values among
  what they say.
* If there is a faulty line behind lines that say something, encoding fails with its fault, which
  names the line by its number, and the output is the stream of the values before it.
* One of the two is the case.

Either way these values are decoded from the output, where the limits of a reader admit them. -/
theorem encode_lines (options : EncodeOptions) (bytes : List UInt8) (lines : List Line)
    (hlines : Line.Cuts bytes lines) :
    let encoded := encode (Tape.ofBytes bytes) options .accepting
    (∀ values, Good options.maxNestingDepth lines values →
      Carries options values encoded.output ∧
        ∃ summary, encoded.outcome = .ok summary ∧ summary.linesRead = lines.length ∧
          summary.blankLines + values.length = lines.length ∧ summary.bytesIn = bytes.length) ∧
    (∀ good values bad rest fault, lines = good ++ bad :: rest →
      Good options.maxNestingDepth good values →
      Faulty options.maxNestingDepth (good.length + 1) bad fault →
      Carries options values encoded.output ∧ encoded.outcome = .error fault) ∧
    ((∃ values, Good options.maxNestingDepth lines values) ∨
      ∃ good values bad rest fault, lines = good ++ bad :: rest ∧
        Good options.maxNestingDepth good values ∧
        Faulty options.maxNestingDepth (good.length + 1) bad fault) := by
  intro encoded
  refine ⟨fun values h => encode_good h hlines, ?_, ?_⟩
  · rintro good values bad rest fault rfl h hbad
    exact encode_faulty h hbad hlines
  · simpa only [Nat.add_comm 1] using good_or_faulty options.maxNestingDepth lines 1

/-- A null, an empty line, and brackets that nest too deep. -/
theorem encode_lines_deep :
    let options : EncodeOptions := { maxNestingDepth := 1 }
    let first : Line := [0x6E, 0x75, 0x6C, 0x6C, 0x0A]
    let bad : Line := [0x5B, 0x5B, 0x0A]
    let lines : List Line := [first, [0x0A], bad]
    Line.Cuts lines.flatten lines ∧ Good 1 [first, [0x0A]] [.null] ∧
      Faulty 1 3 bad (.limit (.lineNesting 1 3)) ∧
      let encoded := encode (Tape.ofBytes lines.flatten) options .accepting
      encodeValues [.null] options = .ok encoded.output ∧
        encoded.outcome = .error (.limit (.lineNesting 1 3)) := by
  intro options first bad lines
  have hlines : Line.Cuts lines.flatten lines := by
    have hsplit : Line.split lines.flatten = lines := by decide
    rw [← hsplit]
    exact Line.cuts_split _
  have hgood : Good 1 [first, [0x0A]] [.null] := by
    have hfirst : Says 1 first (some .null) :=
      .document (Utf8.decode_encode "null\n") (by decide) (by decide) rfl
    have hempty : Says 1 [0x0A] none := .blank (Utf8.decode_encode "\n") (by decide)
    exact .document hfirst (.blank hempty .nil)
  have hbad : Faulty 1 3 bad (.limit (.lineNesting 1 3)) :=
    .tooDeep (Utf8.decode_encode "[[\n") (by decide) (by decide)
  obtain ⟨-, hfaulty, -⟩ := encode_lines options lines.flatten lines hlines
  obtain ⟨hcarries, houtcome⟩ := hfaulty [first, [0x0A]] [.null] bad [] _ rfl hgood hbad
  exact ⟨hlines, hgood, hbad, hcarries.encoded, houtcome⟩

end Ndjson

end DictLog
