/-
# A text nests as deep as its brackets

`Json.bracketDepth` counts brackets without knowing what a document is, and `Json.parse` knows
nothing of that count.  They agree on every document, which is what makes the count worth asking for
first: a document nests, as it is written, exactly as deep as its brackets (`depth_document`).  Merging
repeated keys may leave out what was deepest, and makes nothing deeper (`depth_merge`).

Each reader takes some characters off the front of a text.  `Took n cs rest` says that a scan of
the characters in between comes back to where it was, having been `n` deeper on the way and no more
than that; `Quoted` is the same inside a string, where a scan sees nothing at all.
-/
import DictLog.Json.Read

namespace DictLog.Json

/-! ## 1. Merging -/

/-- A member takes the place of the one with its key, or stands behind the others. -/
theorem depthMembers_put (key : String) (v : Json) (ms : Members) :
    depthMembers (Members.put key v ms) ≤ max v.depth (depthMembers ms) := by
  induction ms with
  | nil => simp [Members.put, depthMembers]
  | cons m rest ih =>
    obtain ⟨k, w⟩ := m
    rw [Members.put]
    split <;> simp only [depthMembers] <;> omega

/-- Putting members one after the other makes nothing deeper, since some may be lost and none
changes. -/
theorem depthMembers_ofList (ms : List (String × Json)) :
    depthMembers (Members.ofList ms) ≤ depthMembers ms := by
  suffices ∀ acc : Members, depthMembers
      (ms.foldl (fun object member => Members.put member.1 member.2 object) acc) ≤
        max (depthMembers acc) (depthMembers ms) by
    simpa [Members.ofList, depthMembers] using this []
  induction ms with
  | nil => intro acc; simp [depthMembers]
  | cons m rest ih =>
    intro acc
    have hput := depthMembers_put m.1 m.2 acc
    have hrest := ih (Members.put m.1 m.2 acc)
    simp only [List.foldl_cons, depthMembers] at hrest ⊢
    omega

mutual

/-- Merging repeated keys makes nothing deeper. -/
theorem depth_merge : ∀ v : Json, v.merge.depth ≤ v.depth
  | null => Nat.le_refl _
  | bool _ => Nat.le_refl _
  | number _ => Nat.le_refl _
  | string _ => Nat.le_refl _
  | array items => Nat.add_le_add_left (depth_mergeItems items) 1
  | object members =>
    Nat.add_le_add_left (Nat.le_trans (depthMembers_ofList _) (depth_mergeMembers members)) 1

theorem depth_mergeItems : ∀ items : List Json, depthItems (mergeItems items) ≤ depthItems items
  | [] => Nat.le_refl _
  | v :: rest => by
    have hv := depth_merge v
    have hrest := depth_mergeItems rest
    simp only [mergeItems, depthItems]
    omega

/-- Merging in the values of members, before these are put, changes no depth. -/
theorem depth_mergeMembers : ∀ members : List (String × Json),
    depthMembers (mergeMembers members) ≤ depthMembers members
  | [] => Nat.le_refl _
  | (_, v) :: rest => by
    have hv := depth_merge v
    have hrest := depth_mergeMembers rest
    simp only [mergeMembers, depthMembers]
    omega

end

/-! ## 2. What a scan makes of a part -/

namespace BracketScan

/-- A scan that is not inside a string. -/
structure Outside (s : BracketScan) : Prop where
  inString : s.inString = false
  escaped : s.escaped = false
  deepest : s.depth ≤ s.deepest

/-- The scan `t` is back where `s` was, and has been `n` deeper, and no more than that. -/
structure Back (n : Nat) (s t : BracketScan) : Prop where
  outside : Outside t
  depth : t.depth = s.depth
  deepest : t.deepest = max s.deepest (s.depth + n)

theorem Outside.stay {s : BracketScan} (h : Outside s) : Back 0 s s :=
  ⟨h, rfl, (Nat.max_eq_left h.deepest).symm⟩

end BracketScan

namespace Read

open BracketScan

variable {n m fuel : Nat} {cs ds rest : List Char} {c : Char} {v : Json} {text : String}

/-- A reader took a part that nests `n` deep. -/
def Took (n : Nat) (cs rest : List Char) : Prop :=
  ∃ used, cs = used ++ rest ∧ ∀ s, Outside s → Back n s (used.foldl step s)

theorem Took.refl (cs : List Char) : Took 0 cs cs :=
  ⟨[], rfl, fun _ hs => hs.stay⟩

/-- One part after another: the deeper of the two counts, since the scan is back where it was in
between. -/
theorem Took.trans (h : Took n cs ds) (k : Took m ds rest) : Took (max n m) cs rest := by
  obtain ⟨used, rfl, hused⟩ := h
  obtain ⟨more, rfl, hmore⟩ := k
  refine ⟨used ++ more, by simp, fun s hs => ?_⟩
  obtain ⟨ht, hdepth, hdeepest⟩ := hused s hs
  obtain ⟨hu, hdepth', hdeepest'⟩ := hmore _ ht
  rw [List.foldl_append]
  exact ⟨hu, by omega, by omega⟩

theorem Took.then (h : Took 0 cs ds) (k : Took n ds rest) : Took n cs rest :=
  Nat.zero_max n ▸ h.trans k

theorem Took.and (h : Took n cs ds) (k : Took 0 ds rest) : Took n cs rest :=
  Nat.max_zero n ▸ h.trans k

/-- A character that a scan passes over. -/
def Plain (c : Char) : Prop :=
  c ≠ '"' ∧ c ≠ '[' ∧ c ≠ '\x7b' ∧ c ≠ ']' ∧ c ≠ '\x7d'

/-- Whether a character is plain can be decided. -/
instance (c : Char) : Decidable (Plain c) := by
  unfold Plain
  infer_instance

theorem Plain.took (h : Plain c) (rest : List Char) : Took 0 (c :: rest) rest := by
  refine ⟨[c], rfl, fun s hs => ?_⟩
  obtain ⟨h₁, h₂, h₃, h₄, h₅⟩ := h
  have hstep : step s c = s := by simp [step, hs.inString, h₁, h₂, h₃, h₄, h₅]
  rw [List.foldl_cons, hstep]
  exact hs.stay

theorem took_of_plain {used : List Char} (h : ∀ c ∈ used, Plain c) (rest : List Char) :
    Took 0 (used ++ rest) rest := by
  induction used with
  | nil => exact .refl rest
  | cons c used ih =>
    rw [List.forall_mem_cons] at h
    exact (h.1.took _).then (ih h.2)

theorem step_open {first : Char} (hfirst : first = '[' ∨ first = '\x7b') {s : BracketScan}
    (hs : Outside s) :
    step s first = { s with depth := s.depth + 1, deepest := max s.deepest (s.depth + 1) } := by
  rcases hfirst with rfl | rfl <;> simp [step, hs.inString]

theorem step_close {last : Char} (hlast : last = ']' ∨ last = '\x7d') {s : BracketScan}
    (hs : Outside s) : step s last = { s with depth := s.depth - 1 } := by
  rcases hlast with rfl | rfl <;> simp [step, hs.inString]

/-- A scan is not inside a string behind a bracket either. -/
theorem outside_open {first : Char} (hfirst : first = '[' ∨ first = '\x7b') {s : BracketScan}
    (hs : Outside s) : Outside (step s first) := by
  rw [step_open hfirst hs]
  exact ⟨hs.inString, hs.escaped, Nat.le_max_right _ _⟩

/-- What stands in brackets nests one deeper than they do.  A bracket opens a level whichever kind it
is of; that they match is a matter of the reader. -/
theorem Took.brackets {first last : Char} (hfirst : first = '[' ∨ first = '\x7b')
    (hlast : last = ']' ∨ last = '\x7d') (h : Took n cs (last :: rest)) :
    Took (1 + n) (first :: cs) rest := by
  obtain ⟨used, rfl, hused⟩ := h
  refine ⟨first :: (used ++ [last]), by simp, fun s hs => ?_⟩
  have hopen := step_open hfirst hs
  have hback := hused _ (outside_open hfirst hs)
  rw [List.foldl_cons, List.foldl_append, List.foldl_cons, List.foldl_nil,
    step_close hlast hback.outside]
  obtain ⟨⟨hstring, hescaped, -⟩, hdepth, hdeepest⟩ := hback
  have hs' := hs.deepest
  simp only [hopen] at hdepth hdeepest hstring hescaped ⊢
  exact ⟨⟨hstring, hescaped, by simp only; omega⟩, by simp only; omega, by simp only; omega⟩

/-! ## 3. Strings -/

/-- A reader took a part of a string. -/
def Quoted (cs rest : List Char) : Prop :=
  ∃ used, cs = used ++ rest ∧
    ∀ s : BracketScan, s.inString = true → s.escaped = false → used.foldl step s = s

theorem Quoted.refl (cs : List Char) : Quoted cs cs :=
  ⟨[], rfl, fun _ _ _ => rfl⟩

theorem Quoted.trans (h : Quoted cs ds) (k : Quoted ds rest) : Quoted cs rest := by
  obtain ⟨used, rfl, hused⟩ := h
  obtain ⟨more, rfl, hmore⟩ := k
  refine ⟨used ++ more, by simp, fun s hs he => ?_⟩
  rw [List.foldl_append, hused s hs he, hmore s hs he]

/-- A character that neither ends a string nor begins an escape. -/
theorem quoted_cons (hquote : c ≠ '"') (hslash : c ≠ '\\') (rest : List Char) :
    Quoted (c :: rest) rest :=
  ⟨[c], rfl, fun s hs he => by simp [step, hs, he, hquote, hslash]⟩

/-- Behind a backslash, a scan passes over any character. -/
theorem quoted_escape (c : Char) (rest : List Char) : Quoted ('\\' :: c :: rest) rest := by
  refine ⟨['\\', c], rfl, fun s hs he => ?_⟩
  obtain ⟨depth, deepest, inString, escaped⟩ := s
  obtain rfl : inString = true := hs
  obtain rfl : escaped = false := he
  simp [step]

theorem ne_of_hexValue {d : Nat} (h : hexValue? c = some d) : c ≠ '"' ∧ c ≠ '\\' := by
  constructor <;> rintro rfl <;> cases (show none = some d from h)

/-- A code of four hexadecimal digits is passed over inside a string. -/
theorem quoted_hexCode {code : Nat} (h : hexCode cs = .ok (code, rest)) : Quoted cs rest := by
  unfold hexCode at h
  split at h
  · rename_i a b c d rest
    split at h
    · rename_i ha hb hc hd
      cases h
      have hquoted : ∀ {c : Char} {n : Nat}, hexValue? c = some n → ∀ rest, Quoted (c :: rest) rest :=
        fun hc => quoted_cons (ne_of_hexValue hc).1 (ne_of_hexValue hc).2
      exact (((hquoted ha _).trans (hquoted hb _)).trans (hquoted hc _)).trans (hquoted hd _)
    · cases h
  · split at h <;> cases h

/-- The second half of a pair of surrogates is passed over as well, with the backslash in front of
it: `u` and four hexadecimal digits. -/
theorem quoted_lowSurrogate {high : Nat} {e : Char} (h : lowSurrogate high cs = .ok (e, rest)) :
    Quoted cs rest := by
  unfold lowSurrogate at h
  split at h
  case h_3 tail =>
    cases hlow : hexCode tail with
    | error f => simp [hlow] at h
    | ok low =>
      simp only [hlow] at h
      split at h
      · simp only [Except.ok.injEq, Prod.mk.injEq] at h
        obtain ⟨-, rfl⟩ := h
        exact (quoted_escape _ _).trans (quoted_hexCode hlow)
      · cases h
  all_goals cases h

/-- What stands behind a backslash is part of the string with it, even if it is a quote or another
backslash. -/
theorem quoted_escaped {e : Char} (h : escaped cs = .ok (e, rest)) : Quoted ('\\' :: cs) rest := by
  unfold escaped at h
  split at h
  case h_10 tail =>
    refine (quoted_escape _ _).trans ?_
    unfold codeEscape at h
    cases hcode : hexCode tail with
    | error f => simp [hcode] at h
    | ok code =>
      have hquoted := quoted_hexCode hcode
      simp only [hcode] at h
      split at h
      · cases h
      · split at h
        · exact hquoted.trans (quoted_lowSurrogate h)
        · cases h
          exact hquoted
  all_goals first
    | (cases h; exact quoted_escape _ _)
    | cases h

/-- A string is read up to its closing quote, which is the first quote that is not escaped.  A scan
of brackets stops being inside the string just there. -/
theorem quoted_stringTail {read : List Char} (h : stringTail fuel read cs = .ok (text, rest)) :
    Quoted cs ('"' :: rest) := by
  induction fuel generalizing read cs with
  | zero => cases h
  | succ fuel ih =>
    cases cs with
    | nil => cases h
    | cons c cs =>
      rw [stringTail] at h
      split at h
      · rename_i hquote
        cases h
        rw [hquote]
        exact .refl _
      · rename_i hquote
        split at h
        · rename_i hslash
          cases he : escaped cs with
          | error f => simp [he] at h
          | ok e =>
            simp only [he] at h
            rw [hslash]
            exact (quoted_escaped he).trans (ih h)
        · rename_i hslash
          split at h
          · cases h
          · exact (quoted_cons hquote hslash _).trans (ih h)

/-- A scan passes over a string, between its quotes. -/
theorem foldl_quoted {used : List Char}
    (h : ∀ s : BracketScan, s.inString = true → s.escaped = false → used.foldl step s = s)
    {s : BracketScan} (hs : Outside s) : ('"' :: (used ++ ['"'])).foldl step s = s := by
  have hopen : step s '"' = { s with inString := true } := by simp [step, hs.inString]
  have hclose : step { s with inString := true } '"' = s := by
    obtain ⟨depth, deepest, inString, escaped⟩ := s
    obtain rfl : inString = false := hs.inString
    obtain rfl : escaped = false := hs.escaped
    simp [step]
  rw [List.foldl_cons, hopen, List.foldl_append, h { s with inString := true } rfl hs.escaped,
    List.foldl_cons, hclose, List.foldl_nil]

/-- A string nests nothing, whatever stands in it. -/
theorem took_string (h : stringTail fuel [] cs = .ok (text, rest)) : Took 0 ('"' :: cs) rest := by
  obtain ⟨used, rfl, hused⟩ := quoted_stringTail h
  refine ⟨'"' :: (used ++ ['"']), by simp, fun s hs => ?_⟩
  rw [foldl_quoted hused hs]
  exact hs.stay

/-! ## 4. Numbers, words and blanks -/

theorem plain_of_isDigit (h : c.isDigit = true) : Plain c := by
  refine ⟨?_, ?_, ?_, ?_, ?_⟩ <;> rintro rfl <;> exact absurd h (by decide)

theorem took_takeWhile {p : Char → Bool} (hp : ∀ c, p c = true → Plain c) (cs : List Char) :
    Took 0 cs (cs.dropWhile p) := by
  have hplain : ∀ c ∈ cs.takeWhile p, Plain c :=
    fun c hc => hp c (List.all_eq_true.mp List.all_takeWhile c hc)
  have htook := took_of_plain hplain (cs.dropWhile p)
  rwa [List.takeWhile_append_dropWhile] at htook

theorem took_digits (cs : List Char) : Took 0 cs (cs.dropWhile Char.isDigit) :=
  took_takeWhile (fun _ => plain_of_isDigit) cs

theorem took_blanks (cs : List Char) : Took 0 cs (skipBlanks cs) := by
  refine took_takeWhile (fun c hc => ?_) cs
  simp only [isBlank, Bool.or_eq_true, beq_iff_eq] at hc
  rcases hc with ((rfl | rfl) | rfl) | rfl <;> decide

/-- Here and below, a number is taken from where its reader stands to where it stops.  What is read
nests nothing, and this is stated as its depth so that the lemma fits where a value is expected. -/
theorem took_doubleNumber {negative : Bool} {d : Decimal}
    (h : doubleNumber negative d cs = .ok (v, rest)) : Took v.depth cs rest := by
  unfold doubleNumber at h
  split at h
  · cases h
    exact .refl _
  · cases h

/-- A whole number, which may be too large for an integer and is read as a double then. -/
theorem took_wholeNumber {negative : Bool} (h : wholeNumber negative n cs = .ok (v, rest)) :
    Took v.depth cs rest := by
  unfold wholeNumber at h
  split at h
  · cases h
    exact .refl _
  · exact took_doubleNumber h

/-- What is left behind an exponent. -/
def Magnitude.behind : Magnitude → List Char
  | value _ cs => cs
  | excessive cs => cs

/-- The digits of an exponent, also of one that is too large to be counted, where the reader goes on
over digits that it does not need. -/
theorem took_exponentDigits (cs : List Char) : ∀ n, Took 0 cs (exponentDigits n cs).behind := by
  induction cs with
  | nil => exact fun _ => .refl _
  | cons c cs ih =>
    intro n
    rw [exponentDigits]
    split
    · rename_i hdigit
      dsimp only
      split
      · exact (plain_of_isDigit hdigit).took _
      · exact ((plain_of_isDigit hdigit).took _).then (ih _)
    · exact .refl _

/-- A sign, the digits behind it, and the number that they scale.  A number is a scalar, and none of
its characters is a bracket or a quote. -/
theorem took_scaledNumber {negative : Bool} {d : Decimal}
    (h : scaledNumber negative d cs = .ok (v, rest)) : Took v.depth cs rest := by
  unfold scaledNumber at h
  split at h
  rename_i down ds hsign
  have htook : Took 0 cs ds := by
    split at hsign <;> cases hsign
    · exact Plain.took (by decide) _
    · exact Plain.took (by decide) _
    · exact .refl _
  refine htook.then ?_
  split at h
  · cases h
  · rename_i c tail
    split at h
    · have hdigits := took_exponentDigits (c :: tail) 0
      split at h
      · rename_i hvalue
        rw [hvalue] at hdigits
        exact hdigits.then (took_doubleNumber h)
      · rename_i hvalue
        rw [hvalue] at hdigits
        split at h
        · cases h
        · exact (hdigits.then (took_digits _)).then (took_doubleNumber h)
    · cases h

/-- Behind the digits there may be an exponent. -/
theorem took_decimalEnd {negative whole : Bool} {d : Decimal}
    (h : decimalEnd negative d whole cs = .ok (v, rest)) : Took v.depth cs rest := by
  unfold decimalEnd at h
  split at h
  · exact (Plain.took (by decide) _).then (took_scaledNumber h)
  · exact (Plain.took (by decide) _).then (took_scaledNumber h)
  · split at h
    · exact took_wholeNumber h
    · exact took_doubleNumber h

/-- Behind the whole part there may be a fraction. -/
theorem took_afterDigits {negative : Bool} {digits : List Char}
    (h : afterDigits negative digits cs = .ok (v, rest)) : Took v.depth cs rest := by
  unfold afterDigits at h
  split at h
  · rename_i fraction
    dsimp only [spanDigits] at h
    split at h
    · split at h <;> cases h
    · exact ((Plain.took (by decide) _).then (took_digits _)).then (took_decimalEnd h)
  · exact took_decimalEnd h

/-- A number behind its sign: zero, or digits that do not begin with zero. -/
theorem took_unsigned {negative : Bool} (h : unsigned negative cs = .ok (v, rest)) :
    Took v.depth cs rest := by
  unfold unsigned at h
  split at h
  · cases h
  · refine (Plain.took (by decide) _).then ?_
    split at h
    · split at h
      · cases h
      · exact took_afterDigits h
    · exact took_afterDigits h
  · dsimp only [spanDigits] at h
    split at h
    · cases h
    · exact (took_digits _).then (took_afterDigits h)

theorem plain_of_isLower (h : c.isLower = true) : Plain c := by
  refine ⟨?_, ?_, ?_, ?_, ?_⟩ <;> rintro rfl <;> exact absurd h (by decide)

/-- One of the three words, which are all lower case, so that they hold no bracket and no quote. -/
theorem took_word {w : Json} {expected : List Char} (hlower : expected.all Char.isLower = true)
    (h : word w expected cs = .ok (v, rest)) : v = w ∧ Took 0 cs rest := by
  induction expected generalizing cs with
  | nil =>
    cases h
    exact ⟨rfl, .refl _⟩
  | cons e expected ih =>
    rw [List.all_cons, Bool.and_eq_true] at hlower
    cases cs with
    | nil => cases h
    | cons c cs =>
      rw [word] at h
      split at h
      · rename_i heq
        obtain ⟨hv, htook⟩ := ih hlower.2 h
        rw [heq]
        exact ⟨hv, ((plain_of_isLower hlower.1).took _).then htook⟩
      · cases h

/-! ## 5. Values -/

/-- A key, and the colon behind it, nest nothing. -/
theorem took_key (h : key fuel cs = .ok (text, rest)) : Took 0 cs rest := by
  unfold key at h
  split at h
  · rename_i tail
    cases hstring : stringTail fuel [] tail with
    | error f => simp [hstring] at h
    | ok s =>
      simp only [hstring] at h
      have htook := (took_string hstring).then (took_blanks _)
      split at h
      · cases h
      · rename_i colon hcolon
        cases h
        rw [hcolon] at htook
        exact htook.then (Plain.took (by decide) _)
      · cases h
  · cases h

/-- Behind an item there is the end of the array, or a comma.  The bracket is left for whoever opened
the array, so that the level is closed where it was opened. -/
theorem took_itemEnd {last : Bool} (h : itemEnd cs = .ok (last, rest)) :
    if last then Took 0 cs (']' :: rest) else Took 0 cs rest := by
  unfold itemEnd at h
  have htook := took_blanks cs
  split at h
  · cases h
  · rename_i heq
    cases h
    rw [heq] at htook
    exact htook
  · rename_i tail heq
    rw [heq] at htook
    have hcomma := (htook.then (Plain.took (by decide) _)).then (took_blanks tail)
    split at h
    · cases h
    · cases h
    · cases h
      exact hcomma
  · cases h

/-- Behind a member there is the end of the object, or a comma, in the same way. -/
theorem took_memberEnd {last : Bool} (h : memberEnd cs = .ok (last, rest)) :
    if last then Took 0 cs ('\x7d' :: rest) else Took 0 cs rest := by
  unfold memberEnd at h
  have htook := took_blanks cs
  split at h
  · cases h
  · rename_i heq
    cases h
    rw [heq] at htook
    exact htook
  · rename_i tail heq
    rw [heq] at htook
    have hcomma := (htook.then (Plain.took (by decide) _)).then (took_blanks tail)
    split at h
    · cases h
    · cases h
    · cases h
      exact hcomma
  · cases h

mutual

/-- A value that is read nests as deep as its characters do.

The induction is on the fuel, over values, items and members together, and the cases are those that
the reader tells by the first character. -/
theorem took_value : ∀ {fuel : Nat} {cs rest : List Char} {v : Json},
    value fuel cs = .ok (v, rest) → Took v.depth cs rest
  | 0, _, _, _, h => nomatch h
  | fuel + 1, cs, rest, v, h => by
    refine (took_blanks cs).then ?_
    rw [value] at h
    generalize skipBlanks cs = ds at h ⊢
    split at h
    · cases h
    · obtain ⟨rfl, htook⟩ := took_word rfl h
      exact (Plain.took (by decide) _).then htook
    · obtain ⟨rfl, htook⟩ := took_word rfl h
      exact (Plain.took (by decide) _).then htook
    · obtain ⟨rfl, htook⟩ := took_word rfl h
      exact (Plain.took (by decide) _).then htook
    · exact (Plain.took (by decide) _).then (took_unsigned h)
    · rename_i tail
      cases hstring : stringTail fuel [] tail with
      | error f => simp [hstring] at h
      | ok s =>
        simp only [hstring] at h
        cases h
        exact took_string hstring
    · rename_i tail
      have hinner := took_blanks tail
      split at h
      · cases h
      · rename_i hclose
        cases h
        rw [hclose] at hinner
        exact hinner.brackets (.inl rfl) (.inl rfl)
      · obtain ⟨more, rfl, htook⟩ := took_items h
        exact (hinner.then htook).brackets (.inl rfl) (.inl rfl)
    · rename_i tail
      have hinner := took_blanks tail
      split at h
      · cases h
      · rename_i hclose
        cases h
        rw [hclose] at hinner
        exact hinner.brackets (.inr rfl) (.inr rfl)
      · obtain ⟨more, rfl, htook⟩ := took_members h
        exact (hinner.then htook).brackets (.inr rfl) (.inr rfl)
    · split at h
      · exact took_unsigned h
      · cases h

/-- The items of an array, of which some have been read already.  Those still to come count, since
the text of the others is no longer there. -/
theorem took_items : ∀ {fuel : Nat} {read : List Json} {cs rest : List Char} {v : Json},
    items fuel read cs = .ok (v, rest) →
      ∃ more, v = .array (read.reverse ++ more) ∧ Took (depthItems more) cs (']' :: rest)
  | 0, _, _, _, _, h => nomatch h
  | fuel + 1, read, cs, rest, v, h => by
    rw [items] at h
    cases hvalue : value fuel cs with
    | error f => simp [hvalue] at h
    | ok p =>
      obtain ⟨w, ds⟩ := p
      simp only [hvalue] at h
      have hhead := took_value hvalue
      cases hend : itemEnd ds with
      | error f => simp [hend] at h
      | ok q =>
        obtain ⟨last, es⟩ := q
        simp only [hend] at h
        have hbehind := took_itemEnd hend
        cases last with
        | true =>
          cases h
          refine ⟨[w], by simp, ?_⟩
          simpa [depthItems] using hhead.and hbehind
        | false =>
          obtain ⟨more, rfl, htook⟩ := took_items h
          exact ⟨w :: more, by simp, (hhead.and hbehind).trans htook⟩

/-- The members of an object, in the same way.  Only their values nest; keys that are repeated count
as often as they stand there. -/
theorem took_members : ∀ {fuel : Nat} {read : List (String × Json)} {cs rest : List Char} {v : Json},
    members fuel read cs = .ok (v, rest) →
      ∃ more, v = .object (read.reverse ++ more) ∧ Took (depthMembers more) cs ('\x7d' :: rest)
  | 0, _, _, _, _, h => nomatch h
  | fuel + 1, read, cs, rest, v, h => by
    rw [members] at h
    cases hkey : key fuel cs with
    | error f => simp [hkey] at h
    | ok p =>
      obtain ⟨k, bs⟩ := p
      simp only [hkey] at h
      cases hvalue : value fuel bs with
      | error f => simp [hvalue] at h
      | ok p =>
        obtain ⟨w, ds⟩ := p
        simp only [hvalue] at h
        have hhead := (took_key hkey).then (took_value hvalue)
        cases hend : memberEnd ds with
        | error f => simp [hend] at h
        | ok q =>
          obtain ⟨last, es⟩ := q
          simp only [hend] at h
          have hbehind := took_memberEnd hend
          cases last with
          | true =>
            cases h
            refine ⟨[(k, w)], by simp, ?_⟩
            simpa [depthMembers] using hhead.and hbehind
          | false =>
            obtain ⟨more, rfl, htook⟩ := took_members h
            exact ⟨(k, w) :: more, by simp, (hhead.and hbehind).trans htook⟩

end

/-- A text of which a reader took everything nests as deep as its brackets do. -/
theorem Took.eq_bracketDepth (h : Took n cs []) : n = bracketDepth cs := by
  obtain ⟨used, rfl, hused⟩ := h
  have hdeepest : bracketDepth used = max 0 (0 + n) := (hused {} ⟨rfl, rfl, Nat.le_refl _⟩).deepest
  rw [List.append_nil]
  omega

end Read

/-- A text that is a JSON document nests, before repeated keys are merged, as deep as its brackets
do. -/
theorem depth_document {text : List Char} {v : Json} (h : document text = .ok v) :
    v.depth = bracketDepth text := by
  unfold document at h
  cases hvalue : Read.value (2 * text.length + 1) text with
  | error f => simp [hvalue] at h
  | ok p =>
    obtain ⟨w, rest⟩ := p
    simp only [hvalue] at h
    have htook := (Read.took_value hvalue).and (Read.took_blanks rest)
    split at h
    · rename_i hend
      cases h
      rw [hend] at htook
      exact htook.eq_bracketDepth
    · cases h

end DictLog.Json
