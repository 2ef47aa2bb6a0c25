/-
# Compact text is read back

What is written for a value without blanks is a document, and the document is that value
(`document_compact`).  The readers are followed through the text that the writers give, one reader and
one writer at a time.  How far they get is fuel, and there is enough of it: two for each character.

A compact text also has no control character, no line feed in particular (`printable_compact`).  So
whoever takes a value takes its compact text as a line as well.
-/
import Mathlib.Data.List.TakeWhile
import Mathlib.Tactic.IntervalCases
import DictLog.Proofs.Nesting
import DictLog.Proofs.Numerals
import DictLog.Text.Blank

namespace DictLog.Json

open Read

/-! ## 1. Strings -/

variable {c : Char} {chars rest : List Char} {fuel : Nat}

/-- A character that is no control character: the blank, or one behind it. -/
def Printable (c : Char) : Prop :=
  0x20 ≤ c.toNat

/-- Whether a character is printable can be decided. -/
instance (c : Char) : Decidable (Printable c) :=
  inferInstanceAs (Decidable (0x20 ≤ c.toNat))

theorem printable_of_all {text : List Char} (h : text.all (Printable ·) = true) :
    ∀ x ∈ text, Printable x :=
  fun x hx => of_decide_eq_true (List.all_eq_true.mp h x hx)

/-- A character is written as it is, or behind a backslash so that it is read back.  All that is
written is printable. -/
theorem escape_cases (c : Char) :
    (escape c = [c] ∧ c ≠ '"' ∧ c ≠ '\\' ∧ Printable c) ∨
      ∃ code, escape c = '\\' :: code ∧ (∀ x ∈ code, Printable x) ∧
        ∀ more, escaped (code ++ more) = .ok (c, more) := by
  by_cases hquote : c = '"'
  · subst hquote
    exact .inr ⟨['"'], rfl, printable_of_all rfl, fun _ => rfl⟩
  by_cases hslash : c = '\\'
  · subst hslash
    exact .inr ⟨['\\'], rfl, printable_of_all rfl, fun _ => rfl⟩
  rcases Nat.lt_or_ge c.toNat 0x20 with hcontrol | hplain
  · obtain ⟨n, hn, rfl⟩ : ∃ n < 0x20, c = Char.ofNat n := ⟨c.toNat, hcontrol, c.ofNat_toNat.symm⟩
    clear hquote hslash hcontrol
    refine .inr ?_
    -- The 32 control characters, one by one.
    interval_cases n <;> exact ⟨_, rfl, printable_of_all rfl, fun _ => rfl⟩
  · exact .inl ⟨by rw [escape, if_neg hquote, if_neg hslash, if_neg (Nat.not_lt.mpr hplain)], hquote,
      hslash, hplain⟩

/-- A character that was written is read back. -/
theorem stringTail_escape (c : Char) (fuel : Nat) (read more : List Char) :
    stringTail (fuel + 1) read (escape c ++ more) = stringTail fuel (c :: read) more := by
  rcases escape_cases c with ⟨htext, hquote, hslash, hplain⟩ | ⟨code, htext, -, hcode⟩
  · rw [htext, List.singleton_append, stringTail, if_neg hquote, if_neg hslash,
      if_neg (Nat.not_lt.mpr hplain)]
  · rw [htext, List.cons_append, stringTail, if_neg (by decide), if_pos rfl, hcode]

theorem stringTail_escapes (rest : List Char) : ∀ (chars : List Char) (fuel : Nat)
    (read : List Char), chars.length < fuel →
      stringTail fuel read (chars.flatMap escape ++ '"' :: rest) =
        .ok (String.ofList (read.reverse ++ chars), rest)
  | [], fuel + 1, read, _ => by simp [stringTail]
  | c :: chars, fuel + 1, read, h => by
    have hmore := stringTail_escapes rest chars fuel (c :: read)
      (by simpa only [List.length_cons, Nat.add_lt_add_iff_right] using h)
    rw [List.flatMap_cons, List.append_assoc, stringTail_escape, hmore, List.reverse_cons,
      List.append_assoc, List.singleton_append]

/-- Escaping makes a text no shorter, so that fuel for what is written is enough for what is read. -/
theorem length_le_escapes : ∀ chars : List Char, chars.length ≤ (chars.flatMap escape).length
  | [] => Nat.le_refl 0
  | c :: chars => by
    have hchars := length_le_escapes chars
    have hc : 0 < (escape c).length := by
      rcases escape_cases c with ⟨htext, -⟩ | ⟨code, htext, -⟩ <;> simp [htext]
    rw [List.flatMap_cons, List.length_append, List.length_cons]
    omega

/-- A string is read back from behind its opening quote. -/
theorem stringTail_quote (s : String) {fuel : Nat} (h : (quote s).length ≤ fuel)
    (rest : List Char) :
    ∃ cs, quote s ++ rest = '"' :: cs ∧ stringTail fuel [] cs = .ok (s, rest) := by
  have hlength := length_le_escapes s.toList
  have hread := stringTail_escapes rest s.toList fuel [] (by
    simp only [quote, List.cons_append, List.length_cons, List.length_append] at h
    omega)
  rw [List.reverse_nil, List.nil_append, String.ofList_toList] at hread
  exact ⟨_, by simp [quote], hread⟩

/-! ## 2. Values -/

/-- A text that begins with a character that is not blank and closes nothing. -/
def Opens (cs : List Char) : Prop :=
  ∃ c tail, cs = c :: tail ∧ Text.isBlank c = false ∧ c ≠ ']' ∧ c ≠ '\x7d'

theorem Opens.append {cs : List Char} (h : Opens cs) (rest : List Char) : Opens (cs ++ rest) := by
  obtain ⟨c, tail, rfl, hc⟩ := h
  exact ⟨c, tail ++ rest, rfl, hc⟩

/-- The blanks between tokens are among those that a line may be made of. -/
theorem isBlank_of_read (h : Read.isBlank c = true) : Text.isBlank c = true := by
  simp only [Read.isBlank, Bool.or_eq_true, beq_iff_eq] at h
  rcases h with ((rfl | rfl) | rfl) | rfl <;> decide

/-- There is nothing to skip in front of it. -/
theorem Opens.skipBlanks {cs : List Char} (h : Opens cs) : skipBlanks cs = cs := by
  obtain ⟨c, tail, rfl, hc, -⟩ := h
  have hread : Read.isBlank c = false := by
    cases hread : Read.isBlank c with
    | false => rfl
    | true => rw [isBlank_of_read hread] at hc; cases hc
  rw [Read.skipBlanks, List.dropWhile_cons, hread, if_neg Bool.false_ne_true]

theorem toNat_of_isDigit (h : c.isDigit = true) : 48 ≤ c.toNat ∧ c.toNat ≤ 57 := by
  simpa [Char.isDigit, UInt32.le_iff_toNat_le] using h

/-- A digit is neither a control character nor a blank. -/
theorem printable_of_isDigit (h : c.isDigit = true) : Printable c :=
  Nat.le_trans (by decide) (toNat_of_isDigit h).1

/-- The characters of a number are no blanks. -/
theorem Read.OfNumber.isBlank (h : OfNumber c) : Text.isBlank c = false := by
  rcases h with hdigit | hother
  · have hrange := toNat_of_isDigit hdigit
    simp only [Text.isBlank, Text.inRanges, Text.blankRanges, List.any_cons, List.any_nil,
      Bool.or_false, Bool.or_eq_false_iff, Bool.and_eq_false_imp, decide_eq_true_eq,
      decide_eq_false_iff_not]
    omega
  · simp only [List.mem_cons, List.not_mem_nil, or_false] at hother
    rcases hother with rfl | rfl | rfl | rfl <;> decide

theorem Read.OfNumber.plain (h : OfNumber c) : Plain c := by
  rcases h with hdigit | hother
  · exact plain_of_isDigit hdigit
  · simp only [List.mem_cons, List.not_mem_nil, or_false] at hother
    rcases hother with rfl | rfl | rfl | rfl <;> decide

theorem Read.OfNumber.printable (h : OfNumber c) : Printable c := by
  rcases h with hdigit | hother
  · exact printable_of_isDigit hdigit
  · simp only [List.mem_cons, List.not_mem_nil, or_false] at hother
    rcases hother with rfl | rfl | rfl | rfl <;> decide

/-- A number takes at least one character, since nothing would not be read back. -/
theorem writeNumber_ne_nil (number : Number) : writeNumber number ≠ [] := by
  intro hnil
  have hread := @value_writeNumber [] number (by rintro c ⟨⟩) 0
  rw [hnil] at hread
  cases hread

/-- A compact text opens a value. -/
theorem opens_compact : ∀ v : Json, Opens (compact v)
  | .null => ⟨'n', _, rfl, by decide⟩
  | .bool true => ⟨'t', _, rfl, by decide⟩
  | .bool false => ⟨'f', _, rfl, by decide⟩
  | .number n => by
    obtain ⟨c, tail, htext⟩ := List.exists_cons_of_ne_nil (writeNumber_ne_nil n)
    have hc : OfNumber c := ofNumber_of_mem n c (by rw [htext]; exact List.mem_cons_self)
    exact ⟨c, tail, htext, hc.isBlank, hc.plain.2.2.2.1, hc.plain.2.2.2.2⟩
  | .string _ => ⟨'"', _, rfl, by decide⟩
  | .array _ => ⟨'[', _, rfl, by decide⟩
  | .object _ => ⟨'\x7b', _, rfl, by decide⟩

theorem opens_compactItems : ∀ items : List Json, items ≠ [] → Opens (compactItems items)
  | [v], _ => opens_compact v
  | v :: _ :: _, _ => (opens_compact v).append _

theorem opens_compactMembers : ∀ members : List (String × Json), members ≠ [] →
    Opens (compactMembers members)
  | [_], _ => ⟨'"', _, rfl, by decide⟩
  | _ :: _ :: _, _ => ⟨'"', _, rfl, by decide⟩

/-- A comma stands before the next item, and nothing else does.  What comes next is neither a blank
nor a closing bracket. -/
theorem itemEnd_comma {cs : List Char} (h : Opens cs) : itemEnd (',' :: cs) = .ok (false, cs) := by
  have hskip := h.skipBlanks
  obtain ⟨c, tail, rfl, -, hc, -⟩ := h
  have hcomma : Read.skipBlanks (',' :: c :: tail) = ',' :: c :: tail := rfl
  simp only [itemEnd, hcomma, hskip]
  split
  · rename_i heq
    cases heq
  · rename_i heq
    cases heq
    exact absurd rfl hc
  · rfl

/-- The same of a comma before the next member, which is its key. -/
theorem memberEnd_comma {cs : List Char} (h : Opens cs) :
    memberEnd (',' :: cs) = .ok (false, cs) := by
  have hskip := h.skipBlanks
  obtain ⟨c, tail, rfl, -, -, hc⟩ := h
  have hcomma : Read.skipBlanks (',' :: c :: tail) = ',' :: c :: tail := rfl
  simp only [memberEnd, hcomma, hskip]
  split
  · rename_i heq
    cases heq
  · rename_i heq
    cases heq
    exact absurd rfl hc
  · rfl

/-- A key is read up to its colon. -/
theorem key_quote (k : String) (h : (quote k).length ≤ fuel) (rest : List Char) :
    key fuel (quote k ++ ':' :: rest) = .ok (k, rest) := by
  obtain ⟨cs, htext, hread⟩ := stringTail_quote k h (':' :: rest)
  rw [htext]
  simp only [key, hread]
  rfl

/-- A number stops in front of what may follow it in a container. -/
theorem stops_of {c : Char} (hc : c = ',' ∨ c = ']' ∨ c = '\x7d') (rest : List Char) :
    Stops (c :: rest) := by
  rintro x ⟨⟩
  rcases hc with rfl | rfl | rfl <;> decide

/-- Behind an opening bracket, the first item.  What opens an item is no closing bracket, so the
array is not taken for an empty one. -/
theorem value_bracket {cs : List Char} (h : Opens cs) :
    value (fuel + 1) ('[' :: cs) = items fuel [] cs := by
  have hskip := h.skipBlanks
  obtain ⟨c, tail, rfl, -, hc, -⟩ := h
  have hbracket : Read.skipBlanks ('[' :: c :: tail) = '[' :: c :: tail := rfl
  simp only [value, hbracket, hskip]
  split
  · rename_i heq
    cases heq
  · rename_i heq
    cases heq
    exact absurd rfl hc
  · rfl

/-- Behind an opening brace, the first key, in the same way. -/
theorem value_brace {cs : List Char} (h : Opens cs) :
    value (fuel + 1) ('\x7b' :: cs) = members fuel [] cs := by
  have hskip := h.skipBlanks
  obtain ⟨c, tail, rfl, -, -, hc⟩ := h
  have hbrace : Read.skipBlanks ('\x7b' :: c :: tail) = '\x7b' :: c :: tail := rfl
  simp only [value, hbrace, hskip]
  split
  · rename_i heq
    cases heq
  · rename_i heq
    cases heq
    exact absurd rfl hc
  · rfl

mutual

/-- A compact text is read back, up to whatever may follow it.

The recursion is on the value, over items and members together, as it is written; the fuel goes down
by one for each reader, of which there are two for a character. -/
theorem value_compact : ∀ (v : Json) (fuel : Nat) (rest : List Char), Stops rest →
    2 * (compact v).length < fuel → value fuel (compact v ++ rest) = .ok (v, rest)
  | .null, fuel + 1, rest, _, _ => rfl
  | .bool true, fuel + 1, rest, _, _ => rfl
  | .bool false, fuel + 1, rest, _, _ => rfl
  | .number n, fuel + 1, rest, hrest, _ => value_writeNumber n hrest fuel
  | .string s, fuel + 1, rest, _, h => by
    rw [compact] at h
    have hfuel : (quote s).length ≤ fuel := by omega
    obtain ⟨cs, htext, hread⟩ := stringTail_quote s hfuel rest
    rw [compact, htext]
    simp only [value]
    rw [show Read.skipBlanks ('"' :: cs) = '"' :: cs from rfl]
    simp only [hread]
  | .array [], fuel + 1, rest, _, _ => rfl
  | .array (v :: items), fuel + 1, rest, _, h => by
    simp only [compact, List.length_append, List.length_cons] at h
    have hopens := (opens_compactItems (v :: items) (List.cons_ne_nil _ _)).append (']' :: rest)
    have hread := items_compact (v :: items) fuel [] rest (List.cons_ne_nil _ _) (by omega)
    rw [compact, List.cons_append, List.cons_append, List.append_assoc]
    exact (value_bracket hopens).trans hread
  | .object [], fuel + 1, rest, _, _ => rfl
  | .object (m :: members), fuel + 1, rest, _, h => by
    simp only [compact, List.length_append, List.length_cons] at h
    have hopens := (opens_compactMembers (m :: members) (List.cons_ne_nil _ _)).append
      ('\x7d' :: rest)
    have hread := members_compact (m :: members) fuel [] rest (List.cons_ne_nil _ _) (by omega)
    rw [compact, List.cons_append, List.cons_append, List.append_assoc]
    exact (value_brace hopens).trans hread

/-- The items of an array, of which some have been read already.  Reading goes at most two calls
deeper for each character, so twice the length of the text is fuel enough. -/
theorem items_compact : ∀ (items : List Json) (fuel : Nat) (read : List Json) (rest : List Char),
    items ≠ [] → 2 * (compactItems items).length + 1 < fuel →
      Read.items fuel read (compactItems items ++ ']' :: rest) =
        .ok (.array (read.reverse ++ items), rest)
  | [v], fuel + 1, read, rest, _, h => by
    have hv := value_compact v fuel (']' :: rest) (stops_of (by simp) _)
      (by simpa [compactItems] using h)
    simp only [compactItems, Read.items, hv]
    rw [show itemEnd (']' :: rest) = .ok (true, rest) from rfl, List.reverse_cons]
  | v :: w :: items, fuel + 1, read, rest, _, h => by
    simp only [compactItems, List.length_append, List.length_cons] at h
    have hv := value_compact v fuel (',' :: (compactItems (w :: items) ++ ']' :: rest))
      (stops_of (by simp) _) (by omega)
    have hmore := items_compact (w :: items) fuel (v :: read) rest (List.cons_ne_nil _ _) (by omega)
    have hnext := itemEnd_comma ((opens_compactItems (w :: items) (List.cons_ne_nil _ _)).append
      (']' :: rest))
    rw [compactItems, List.append_assoc, List.cons_append, Read.items, hv]
    simp only [hnext, hmore, List.reverse_cons, List.append_assoc, List.singleton_append]

/-- The members of an object, in the same way. -/
theorem members_compact : ∀ (members : List (String × Json)) (fuel : Nat)
    (read : List (String × Json)) (rest : List Char), members ≠ [] →
      2 * (compactMembers members).length + 1 < fuel →
        Read.members fuel read (compactMembers members ++ '\x7d' :: rest) =
          .ok (.object (read.reverse ++ members), rest)
  | [(k, v)], fuel + 1, read, rest, _, h => by
    simp only [compactMembers, List.length_append, List.length_cons] at h
    have hk := @key_quote fuel k (by omega) (compact v ++ '\x7d' :: rest)
    have hv := value_compact v fuel ('\x7d' :: rest) (stops_of (by simp) _) (by omega)
    rw [compactMembers, List.append_assoc, List.cons_append, Read.members, hk]
    simp only [hv]
    rw [show memberEnd ('\x7d' :: rest) = .ok (true, rest) from rfl, List.reverse_cons]
  | (k, v) :: m :: members, fuel + 1, read, rest, _, h => by
    simp only [compactMembers, List.length_append, List.length_cons] at h
    have hk := @key_quote fuel k (by omega)
      (compact v ++ ',' :: (compactMembers (m :: members) ++ '\x7d' :: rest))
    have hv := value_compact v fuel (',' :: (compactMembers (m :: members) ++ '\x7d' :: rest))
      (stops_of (by simp) _) (by omega)
    have hmore := members_compact (m :: members) fuel ((k, v) :: read) rest (List.cons_ne_nil _ _)
      (by omega)
    have hnext := memberEnd_comma ((opens_compactMembers (m :: members)
      (List.cons_ne_nil _ _)).append ('\x7d' :: rest))
    rw [compactMembers]
    simp only [List.append_assoc, List.cons_append]
    rw [Read.members, hk]
    simp only [hv, hnext, hmore, List.reverse_cons, List.append_assoc, List.singleton_append]

end

/-- A compact text with blanks behind it is a document.  The blanks are those that may stand between
tokens, so a line keeps its line feed. -/
theorem document_compact (v : Json) (hrest : ∀ c ∈ rest, Read.isBlank c = true) :
    document (compact v ++ rest) = .ok v := by
  have hstops : Stops rest := by
    intro c hc
    have hblank := hrest c (List.mem_of_mem_head? hc)
    simp only [Read.isBlank, Bool.or_eq_true, beq_iff_eq] at hblank
    rcases hblank with ((rfl | rfl) | rfl) | rfl <;> decide
  have hread := value_compact v (2 * (compact v ++ rest).length + 1) rest hstops
    (by rw [List.length_append]; omega)
  have hskip : Read.skipBlanks rest = [] := by
    rw [Read.skipBlanks, List.dropWhile_eq_nil_iff]
    exact hrest
  simp only [document, hread, hskip]

/-! ## 3. Control characters -/

/-- What a character is escaped to is printable. -/
theorem printable_escape (c : Char) : ∀ x ∈ escape c, Printable x := by
  rcases escape_cases c with ⟨htext, -, -, hplain⟩ | ⟨code, htext, hcode, -⟩
  · rw [htext]
    exact List.forall_mem_singleton.mpr hplain
  · rw [htext]
    exact List.forall_mem_cons.mpr ⟨by decide, hcode⟩

/-- A string between its quotes is printable. -/
theorem printable_quote (s : String) : ∀ x ∈ quote s, Printable x := by
  have hchars : ∀ x ∈ s.toList.flatMap escape, Printable x := by
    intro x hx
    obtain ⟨c, -, hc⟩ := List.mem_flatMap.mp hx
    exact printable_escape c x hc
  exact List.forall_mem_append.mpr
    ⟨List.forall_mem_cons.mpr ⟨by decide, hchars⟩, List.forall_mem_singleton.mpr (by decide)⟩

theorem printable_separated {text more : List Char} (h : ∀ x ∈ text, Printable x)
    (hc : Printable c) (k : ∀ x ∈ more, Printable x) : ∀ x ∈ text ++ c :: more, Printable x :=
  List.forall_mem_append.mpr ⟨h, List.forall_mem_cons.mpr ⟨hc, k⟩⟩

theorem printable_brackets {first last : Char} {text : List Char} (hfirst : Printable first)
    (hlast : Printable last) (h : ∀ x ∈ text, Printable x) :
    ∀ x ∈ first :: text ++ [last], Printable x :=
  List.forall_mem_append.mpr
    ⟨List.forall_mem_cons.mpr ⟨hfirst, h⟩, List.forall_mem_singleton.mpr hlast⟩

mutual

/-- A compact text has no control characters, whatever its strings hold. -/
theorem printable_compact : ∀ v : Json, ∀ x ∈ compact v, Printable x
  | .null => printable_of_all rfl
  | .bool true => printable_of_all rfl
  | .bool false => printable_of_all rfl
  | .number n => fun x h => (ofNumber_of_mem n x h).printable
  | .string s => printable_quote s
  | .array items => printable_brackets (by decide) (by decide) (printable_compactItems items)
  | .object members => printable_brackets (by decide) (by decide) (printable_compactMembers members)

theorem printable_compactItems : ∀ items : List Json, ∀ x ∈ compactItems items, Printable x
  | [] => by simp [compactItems]
  | [v] => printable_compact v
  | v :: w :: items =>
    printable_separated (printable_compact v) (by decide) (printable_compactItems (w :: items))

/-- The members one by one, with commas and colons. -/
theorem printable_compactMembers : ∀ members : List (String × Json),
    ∀ x ∈ compactMembers members, Printable x
  | [] => by simp [compactMembers]
  | [(k, v)] => printable_separated (printable_quote k) (by decide) (printable_compact v)
  | (k, v) :: m :: members => by
    rw [compactMembers]
    exact printable_separated
      (printable_separated (printable_quote k) (by decide) (printable_compact v)) (by decide)
      (printable_compactMembers (m :: members))

end

end DictLog.Json
