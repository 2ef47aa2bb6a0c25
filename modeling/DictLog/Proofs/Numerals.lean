/-
# A written number is read back

An integer is written as its digits, and a double as digits laid out in one of four ways: without
a power of ten, its point behind all of the digits, among them or in front of them, or with one.
Each way the same readers take what was written, up to whatever may follow a number (`Stops`), and
are left with a decimal of the value that was laid out (`unsigned_layout`).  Rounding depends on the
value alone, and so the number read is the number written (`value_writeNumber`).
-/
import DictLog.Json.Print
import DictLog.Json.Read
import DictLog.Proofs.Decimals

namespace DictLog.Json.Read

variable {digits fraction rest : List Char} {negative : Bool} {d : Decimal} {n k m : Nat}

/-! ## 1. Digits -/

/-- Digits as a number begins with: a single zero, or no zero in front. -/
inductive Numeral : List Char → Prop
  | zero : Numeral ['0']
  | other {c : Char} {tail : List Char} (hne : c ≠ '0')
      (digits : ∀ x ∈ c :: tail, x.isDigit = true) : Numeral (c :: tail)

theorem isDigit_of_mem_toDigits (n : Nat) : ∀ c ∈ Nat.toDigits 10 n, c.isDigit = true :=
  fun _ hc => Nat.isDigit_of_mem_toDigits (by decide) (by decide) hc

/-- The digits of a number but zero do not begin with a zero. -/
theorem toDigits_of_ne_zero (h : n ≠ 0) : ∃ c tail, Nat.toDigits 10 n = c :: tail ∧ c ≠ '0' := by
  induction n using Nat.strongRecOn with
  | _ n ih =>
    rcases Nat.lt_or_ge n 10 with hlt | hge
    · refine ⟨n.digitChar, [], Nat.toDigits_of_lt_base hlt, ?_⟩
      rwa [ne_eq, Nat.digitChar_eq_zero]
    · obtain ⟨c, tail, hquotient, hc⟩ := ih (n / 10) (by omega) (by omega)
      refine ⟨c, tail ++ [(n % 10).digitChar], ?_, hc⟩
      rw [Nat.toDigits_of_base_le (by decide) hge, hquotient, List.cons_append]

/-- The digits of any number are such as a number begins with. -/
theorem numeral_toDigits (n : Nat) : Numeral (Nat.toDigits 10 n) := by
  have hdigits := isDigit_of_mem_toDigits n
  by_cases h : n = 0
  · rw [h, Nat.toDigits_zero]
    exact .zero
  · obtain ⟨c, tail, htext, hc⟩ := toDigits_of_ne_zero h
    rw [htext] at hdigits ⊢
    exact .other hc hdigits

/-- The value of some digits, as the library has it. -/
theorem digitsValue_eq (digits : List Char) : digitsValue digits = Nat.ofDigitChars 10 digits 0 :=
  Nat.ofDigitChars_eq_foldl.symm

theorem digitsValue_toDigits (n : Nat) : digitsValue (Nat.toDigits 10 n) = n := by
  rw [digitsValue_eq, Nat.ofDigitChars_ten_toDigits]

/-- Zeros behind the digits multiply their value, zeros in front do not change it. -/
theorem digitsValue_zeros (digits : List Char) (k : Nat) :
    digitsValue (digits ++ List.replicate k '0') = digitsValue digits * Nat.pow 10 k ∧
      digitsValue (List.replicate k '0' ++ digits) = digitsValue digits := by
  simp only [digitsValue_eq, Nat.ofDigitChars_append, Nat.ofDigitChars_replicate_zero, Nat.mul_zero,
    Nat.pow_eq, and_true]
  exact Nat.mul_comm _ _

/-- A text that does not go on with a digit. -/
def NoDigit (rest : List Char) : Prop :=
  ∀ c ∈ rest.head?, c.isDigit = false

/-- A text that does not go on with a number: not with a digit, a point or a power of ten. -/
def Stops (rest : List Char) : Prop :=
  ∀ c ∈ rest.head?, c.isDigit = false ∧ c ≠ '.' ∧ c ≠ 'e' ∧ c ≠ 'E'

theorem Stops.noDigit (h : Stops rest) : NoDigit rest :=
  fun c hc => (h c hc).1

/-- A character that is no digit will do. -/
theorem noDigit_cons {c : Char} (h : c.isDigit = false) (rest : List Char) : NoDigit (c :: rest) := by
  rintro x ⟨⟩
  exact h

/-- Digits are taken up to where they end. -/
theorem spanDigits_append (hdigits : ∀ c ∈ digits, c.isDigit = true) (hrest : NoDigit rest) :
    spanDigits (digits ++ rest) = (digits, rest) := by
  have hfront : rest.takeWhile Char.isDigit = [] ∧ rest.dropWhile Char.isDigit = rest := by
    cases rest with
    | nil => exact ⟨rfl, rfl⟩
    | cons c rest => simp [hrest c rfl]
  rw [spanDigits, List.takeWhile_append_of_pos hdigits, List.dropWhile_append_of_pos hdigits,
    hfront.1, hfront.2, List.append_nil]

/-! ## 2. The parts of a number -/

/-- The first digits of a number are taken as they stand, whatever follows them. -/
theorem unsigned_numeral (h : Numeral digits) (hrest : NoDigit rest) :
    unsigned negative (digits ++ rest) = afterDigits negative digits rest := by
  cases h with
  | zero =>
    cases rest with
    | nil => rfl
    | cons c rest => simp [unsigned, hrest c rfl]
  | @other c tail hne hdigits =>
    have hspan := spanDigits_append hdigits hrest
    rw [List.cons_append] at hspan ⊢
    rw [unsigned]
    · simp [hspan]
    · rintro ⟨⟩
    · rintro cs ⟨⟩
      exact hne rfl

/-- Where no power of ten follows, the digits are what was read. -/
theorem decimalEnd_stops (h : Stops rest) (whole : Bool) : decimalEnd negative d whole rest =
    if whole then wholeNumber negative d.coefficient rest else doubleNumber negative d rest := by
  unfold decimalEnd
  split
  · exact absurd rfl (h 'e' rfl).2.2.1
  · exact absurd rfl (h 'E' rfl).2.2.2
  · rfl

theorem afterDigits_stops (h : Stops rest) :
    afterDigits negative digits rest = wholeNumber negative (digitsValue digits) rest := by
  unfold afterDigits
  split
  · exact absurd rfl (h '.' rfl).2.1
  · rw [decimalEnd_stops h, if_pos rfl]

theorem afterDigits_point (hfraction : ∀ c ∈ fraction, c.isDigit = true) (hne : fraction ≠ [])
    (hrest : NoDigit rest) : afterDigits negative digits ('.' :: (fraction ++ rest)) =
      decimalEnd negative ⟨digitsValue (digits ++ fraction), -fraction.length⟩ false rest := by
  simp [afterDigits, spanDigits_append hfraction hrest, hne]

/-- Each further digit makes the value no smaller. -/
theorem le_ofDigitChars (digits : List Char) : ∀ n, n ≤ Nat.ofDigitChars 10 digits n := by
  induction digits with
  | nil => exact fun n => Nat.le_refl n
  | cons c digits ih =>
    intro n
    rw [Nat.ofDigitChars_cons]
    exact Nat.le_trans (by omega) (ih _)

/-- An exponent that is not excessive is read to its end.  The bound is the largest power that a
reader counts up to. -/
theorem exponentDigits_append (hrest : NoDigit rest) : ∀ (n : Nat),
    (∀ c ∈ digits, c.isDigit = true) → Nat.ofDigitChars 10 digits n ≤ 2147483647 →
      exponentDigits n (digits ++ rest) = .value (Nat.ofDigitChars 10 digits n) rest := by
  induction digits with
  | nil =>
    intro n _ _
    cases rest with
    | nil => rfl
    | cons c rest => simp [exponentDigits, hrest c rfl]
  | cons c digits ih =>
    intro n hdigits hsmall
    obtain ⟨hc, hdigits⟩ := List.forall_mem_cons.mp hdigits
    have hgrow := le_ofDigitChars digits (10 * n + (c.toNat - '0'.toNat))
    rw [Nat.ofDigitChars_cons] at hsmall ⊢
    rw [List.cons_append, exponentDigits, if_pos hc]
    simp only
    rw [if_neg (by omega), ih _ hdigits hsmall]

/-- A signed exponent is added, so what is read is the decimal with its point moved. -/
theorem scaledNumber_signed {e : Int} (he : e.natAbs ≤ 2147483647) (hrest : NoDigit rest) :
    scaledNumber negative d (Decimal.signed e ++ rest) =
      doubleNumber negative ⟨d.coefficient, d.exponent + e⟩ rest := by
  have hvalue : Nat.ofDigitChars 10 (Nat.toDigits 10 e.natAbs) 0 = e.natAbs :=
    Nat.ofDigitChars_ten_toDigits
  have hread := exponentDigits_append hrest 0 (isDigit_of_mem_toDigits e.natAbs) (by rwa [hvalue])
  obtain ⟨c, tail, htext⟩ := List.exists_cons_of_ne_nil (@Nat.toDigits_ne_nil e.natAbs 10)
  have hc : c.isDigit = true := isDigit_of_mem_toDigits e.natAbs c (by simp [htext])
  rw [hvalue, htext, List.cons_append] at hread
  rcases Int.lt_or_le e 0 with hdown | hup
  · have hshift : -(e.natAbs : Int) = e := by omega
    rw [Decimal.signed, if_pos hdown, htext, List.cons_append, List.cons_append]
    simp only [scaledNumber, hc, hread, if_true, hshift]
  · have hshift : (e.natAbs : Int) = e := by omega
    rw [Decimal.signed, if_neg (Int.not_lt.mpr hup), htext, List.cons_append, List.cons_append]
    simp only [scaledNumber, hc, hread, if_true, Bool.false_eq_true, if_false, hshift]

/-! ## 3. Layouts -/

theorem unsigned_point (hdigits : Numeral digits) (hfraction : ∀ c ∈ fraction, c.isDigit = true)
    (hne : fraction ≠ []) (hrest : Stops rest) :
    unsigned negative (digits ++ '.' :: fraction ++ rest) =
      doubleNumber negative ⟨digitsValue (digits ++ fraction), -fraction.length⟩ rest := by
  rw [List.append_assoc, List.cons_append, unsigned_numeral hdigits (noDigit_cons rfl _),
    afterDigits_point hfraction hne hrest.noDigit, decimalEnd_stops hrest]
  rfl

theorem isDigit_of_mem_zeros (k : Nat) : ∀ c ∈ List.replicate k '0', c.isDigit = true := by
  intro c hc
  rw [List.eq_of_mem_replicate hc]
  rfl

/-- The first digits of a number but zero, and any behind them. -/
theorem numeral_take (hn : n ≠ 0) (hk : 0 < k) {more : List Char}
    (hmore : ∀ c ∈ more, c.isDigit = true) : Numeral ((Nat.toDigits 10 n).take k ++ more) := by
  obtain ⟨c, tail, htext, hc⟩ := toDigits_of_ne_zero hn
  have hdigits := isDigit_of_mem_toDigits n
  obtain ⟨k, rfl⟩ := Nat.exists_eq_succ_of_ne_zero (Nat.ne_of_gt hk)
  rw [htext] at hdigits ⊢
  rw [List.take_succ_cons, List.cons_append]
  refine .other hc (List.forall_mem_cons.mpr ⟨hdigits c List.mem_cons_self, ?_⟩)
  exact List.forall_mem_append.mpr
    ⟨fun x hx => hdigits x (List.mem_cons_of_mem _ (List.mem_of_mem_take hx)), hmore⟩

/-- All digits before the point. -/
theorem unsigned_whole (hn : n ≠ 0) (hrest : Stops rest) (zeros : Nat) :
    unsigned negative (Nat.toDigits 10 n ++ List.replicate zeros '0' ++ ['.', '0'] ++ rest) =
      doubleNumber negative ⟨n * Nat.pow 10 (zeros + 1), -1⟩ rest := by
  have hfront := numeral_take hn (@Nat.length_toDigits_pos 10 n) (isDigit_of_mem_zeros zeros)
  rw [List.take_length] at hfront
  have hvalue : digitsValue (Nat.toDigits 10 n ++ List.replicate zeros '0' ++ ['0']) =
      n * Nat.pow 10 (zeros + 1) := by
    rw [List.append_assoc, ← List.replicate_succ', (digitsValue_zeros _ _).1, digitsValue_toDigits]
  rw [← hvalue]
  exact unsigned_point hfront (List.forall_mem_singleton.mpr rfl) (List.cons_ne_nil _ _) hrest

/-- The point among the digits of a coefficient: as many powers of ten are taken off as there are
digits behind it. -/
theorem unsigned_among (hn : n ≠ 0) (hrest : Stops rest) (hk : 0 < k)
    (hlt : k < (Nat.toDigits 10 n).length) :
    unsigned negative ((Nat.toDigits 10 n).take k ++ '.' :: (Nat.toDigits 10 n).drop k ++ rest) =
      doubleNumber negative ⟨n, (k : Int) - (Nat.toDigits 10 n).length⟩ rest := by
  have hfront := @numeral_take n k hn hk [] (by simp)
  have hdrop : ∀ c ∈ (Nat.toDigits 10 n).drop k, c.isDigit = true :=
    fun c hc => isDigit_of_mem_toDigits n c (List.mem_of_mem_drop hc)
  rw [List.append_nil] at hfront
  rw [unsigned_point hfront hdrop (by simpa using hlt) hrest, List.take_append_drop,
    digitsValue_toDigits, List.length_drop]
  congr 2
  omega

/-- All digits behind the point. -/
theorem unsigned_behind (hrest : Stops rest) (zeros : Nat) :
    unsigned negative ('0' :: '.' :: List.replicate zeros '0' ++ Nat.toDigits 10 n ++ rest) =
      doubleNumber negative ⟨n, -(zeros + (Nat.toDigits 10 n).length : Nat)⟩ rest := by
  have hfraction := List.forall_mem_append.mpr
    ⟨isDigit_of_mem_zeros zeros, isDigit_of_mem_toDigits n⟩
  have hvalue : digitsValue (['0'] ++ (List.replicate zeros '0' ++ Nat.toDigits 10 n)) = n := by
    rw [← List.append_assoc, List.singleton_append, ← List.replicate_succ, (digitsValue_zeros _ _).2,
      digitsValue_toDigits]
  have hread := @unsigned_point ['0'] _ rest negative .zero hfraction (by simp) hrest
  rw [hvalue, List.length_append, List.length_replicate] at hread
  simpa using hread

/-- One digit, a point if more digits follow, and a power of ten.  The power is counted from the
first digit, and the decimal from the last. -/
theorem unsigned_power {e : Int} (hn : n ≠ 0) (he : e.natAbs ≤ 2147483647) (hrest : NoDigit rest) :
    unsigned negative ((Nat.toDigits 10 n).take 1 ++
        (if (Nat.toDigits 10 n).length ≤ 1 then [] else '.' :: (Nat.toDigits 10 n).drop 1) ++
        'e' :: Decimal.signed e ++ rest) =
      doubleNumber negative ⟨n, e + 1 - (Nat.toDigits 10 n).length⟩ rest := by
  have hfront := @numeral_take n 1 hn (by decide) [] (by simp)
  have hpos := @Nat.length_toDigits_pos 10 n
  have hvalue := digitsValue_toDigits n
  have hmark := noDigit_cons (show 'e'.isDigit = false from rfl) (Decimal.signed e ++ rest)
  rw [List.append_nil] at hfront
  -- A single digit has no point behind it.
  split
  · rename_i hone
    rw [List.take_of_length_le hone] at hfront ⊢
    rw [List.append_nil, List.append_assoc, List.cons_append, unsigned_numeral hfront hmark]
    have hexponent : e + 1 - ((Nat.toDigits 10 n).length : Int) = 0 + e := by omega
    calc afterDigits negative (Nat.toDigits 10 n) ('e' :: (Decimal.signed e ++ rest))
        = scaledNumber negative ⟨digitsValue (Nat.toDigits 10 n), 0⟩ (Decimal.signed e ++ rest) := rfl
      _ = doubleNumber negative ⟨n, e + 1 - (Nat.toDigits 10 n).length⟩ rest := by
          rw [scaledNumber_signed he hrest, hvalue, hexponent]
  · rename_i hmore
    have hdrop : ∀ c ∈ (Nat.toDigits 10 n).drop 1, c.isDigit = true :=
      fun c hc => isDigit_of_mem_toDigits n c (List.mem_of_mem_drop hc)
    have hne : (Nat.toDigits 10 n).drop 1 ≠ [] := by
      rw [ne_eq, List.drop_eq_nil_iff]
      exact hmore
    have hexponent : e + 1 - ((Nat.toDigits 10 n).length : Int) =
        -((Nat.toDigits 10 n).drop 1).length + e := by
      rw [List.length_drop]
      omega
    simp only [List.append_assoc, List.cons_append]
    rw [unsigned_numeral hfront (noDigit_cons rfl _), afterDigits_point hdrop hne hmark,
      List.take_append_drop, hvalue, hexponent]
    exact scaledNumber_signed he hrest

/-- What is laid out is read as a decimal of the same value.  Only a whole number, which is written
with zeros behind its digits, is read as another decimal of that value. -/
theorem unsigned_layout (hne : d.coefficient ≠ 0)
    (hplace : -400 < d.pointPlace ∧ d.pointPlace ≤ 400) (hrest : Stops rest) :
    ∃ d', d.SameValue d' ∧
      unsigned negative (numberLayout.write d ++ rest) = doubleNumber negative d' rest := by
  -- In all layouts but the first, the decimal itself is read.
  have hself : ∀ (e : Int) (text : List Char), e = d.exponent →
      unsigned negative text = doubleNumber negative ⟨d.coefficient, e⟩ rest →
      ∃ d', d.SameValue d' ∧ unsigned negative text = doubleNumber negative d' rest := by
    rintro e text rfl h
    exact ⟨d, rfl, h⟩
  have hpos := @Nat.length_toDigits_pos 10 d.coefficient
  simp only [Decimal.pointPlace] at hplace
  obtain ⟨text, htext⟩ : ∃ text, numberLayout.write d = text := ⟨_, rfl⟩
  rw [htext]
  simp only [Decimal.Layout.write] at htext
  split at htext
  · split at htext
    · -- as in 1200.0
      refine ⟨_, Decimal.sameValue_zeros d.coefficient (d.exponent.toNat + 1) d.exponent, ?_⟩
      rw [← htext, unsigned_whole hne hrest]
      congr 2
      omega
    · split at htext
      · -- as in 1.2
        rw [← htext]
        exact hself _ _ (by omega) (unsigned_among hne hrest (by omega) (by omega))
      · -- as in 0.0012
        rw [← htext]
        exact hself _ _ (by omega) (unsigned_behind hrest _)
  · -- as in 1.2e-7
    rw [← htext]
    exact hself _ _ (by omega) (unsigned_power hne (by omega) hrest.noDigit)

/-! ## 4. Characters -/

/-- A character that numbers are written with. -/
def OfNumber (c : Char) : Prop :=
  c.isDigit = true ∨ c ∈ ['-', '+', '.', 'e']

/-- However a decimal is laid out, it takes no other characters. -/
theorem ofNumber_of_layout (d : Decimal) : ∀ c ∈ numberLayout.write d, OfNumber c := by
  have hdigits : ∀ c ∈ Nat.toDigits 10 d.coefficient, OfNumber c :=
    fun c hc => .inl (isDigit_of_mem_toDigits _ c hc)
  have hzeros : ∀ k, ∀ c ∈ List.replicate k '0', OfNumber c :=
    fun k c hc => .inl (isDigit_of_mem_zeros k c hc)
  have hzero : OfNumber '0' := .inl rfl
  have hpoint : OfNumber '.' := .inr (by decide)
  have htake : ∀ k, ∀ c ∈ (Nat.toDigits 10 d.coefficient).take k, OfNumber c :=
    fun k c hc => hdigits c (List.mem_of_mem_take hc)
  have hdrop : ∀ k, ∀ c ∈ (Nat.toDigits 10 d.coefficient).drop k, OfNumber c :=
    fun k c hc => hdigits c (List.mem_of_mem_drop hc)
  have hpower : ∀ e, ∀ c ∈ 'e' :: Decimal.signed e, OfNumber c := by
    intro e
    refine List.forall_mem_cons.mpr ⟨.inr (by decide), List.forall_mem_cons.mpr ⟨.inr ?_, ?_⟩⟩
    · split <;> decide
    · exact fun c hc => .inl (isDigit_of_mem_toDigits _ c hc)
  simp only [Decimal.Layout.write]
  split
  · split
    · simp only [List.forall_mem_append, List.forall_mem_cons]
      exact ⟨⟨hdigits, hzeros _⟩, hpoint, hzero, by simp⟩
    · split <;> simp only [List.forall_mem_append, List.forall_mem_cons]
      · exact ⟨htake _, hpoint, hdrop _⟩
      · exact ⟨⟨hzero, hpoint, hzeros _⟩, hdigits⟩
  · refine List.forall_mem_append.mpr ⟨List.forall_mem_append.mpr ⟨htake _, ?_⟩, hpower _⟩
    split
    · simp
    · exact List.forall_mem_cons.mpr ⟨hpoint, hdrop _⟩

/-! ## 5. Numbers -/

/-- The digits of a magnitude are read as a decimal that is rounded to it.  That they are the
shortest such digits does not matter for reading them back. -/
theorem unsigned_shortest (hm : m < Binary64.infinity) (hrest : Stops rest) :
    ∃ d', d'.magnitude = m ∧ unsigned negative (numberLayout.write (Decimal.shortest m) ++ rest) =
      doubleNumber negative d' rest := by
  have hmagnitude := Decimal.magnitude_shortest hm
  by_cases hzero : (Decimal.shortest m).coefficient = 0
  · have hshortest := Decimal.shortest_of_coefficient hm hzero
    rw [hshortest] at hmagnitude ⊢
    have hread := @unsigned_point ['0'] ['0'] rest negative .zero (List.forall_mem_singleton.mpr rfl)
      (List.cons_ne_nil _ _) hrest
    exact ⟨_, hmagnitude, hread⟩
  · have hne : (Decimal.shortest m).magnitude ≠ 0 := by
      intro hnone
      rw [hmagnitude] at hnone
      rw [hnone] at hzero
      exact hzero rfl
    rw [← hmagnitude] at hm
    obtain ⟨d', hsame, hread⟩ := unsigned_layout hzero (Decimal.pointPlace_bounds hm hne) hrest
    exact ⟨d', (Decimal.magnitude_congr hsame hm).trans hmagnitude, hread⟩

theorem unsigned_double (x : Double) (hrest : Stops rest) :
    unsigned x.negative (numberLayout.write (Decimal.shortest x.magnitude) ++ rest) =
      .ok (.number (.double x), rest) := by
  obtain ⟨d', hmagnitude, hread⟩ := @unsigned_shortest rest x.negative x.magnitude x.finite hrest
  rw [hread, doubleNumber, Decimal.toDouble?, hmagnitude, Double.ofMagnitude?_magnitude]

/-- An integer without its sign, which is put back where it was.  A zero has no sign; with one it
would be read as a double. -/
theorem unsigned_integer (i : Integer) (hrest : Stops rest) :
    unsigned (decide (i.value < 0)) (Nat.toDigits 10 i.value.natAbs ++ rest) =
      .ok (.number (.integer i), rest) := by
  obtain ⟨value, lower, upper⟩ := i
  rw [unsigned_numeral (numeral_toDigits _) hrest.noDigit, afterDigits_stops hrest,
    digitsValue_toDigits, wholeNumber]
  rcases Int.lt_or_le value 0 with hdown | hup
  · have hle : value.natAbs ≤ 0x8000000000000000 := by omega
    have hne : value.natAbs ≠ 0 := by omega
    have hvalue : -(value.natAbs : Int) = value := by omega
    simp only [hdown, decide_true, if_true, if_neg hne, Integer.negate?, dif_pos hle, hvalue]
  · have hlt : value.natAbs < 0x10000000000000000 := by omega
    have hvalue : (value.natAbs : Int) = value := by omega
    simp only [Int.not_lt.mpr hup, decide_false, Bool.false_eq_true, if_false, Integer.ofNat?,
      dif_pos hlt, hvalue]

/-- What is read as a number without its sign begins with a digit. -/
theorem digit_of_unsigned {cs : List Char} {v : Json} (h : unsigned negative cs = .ok (v, rest)) :
    ∃ c tail, cs = c :: tail ∧ c.isDigit = true := by
  cases cs with
  | nil => cases h
  | cons c tail =>
    refine ⟨c, tail, rfl, ?_⟩
    cases hc : c.isDigit with
    | true => rfl
    | false =>
      have hread : unsigned negative (c :: tail) = failPast 1 .invalidNumber (c :: tail) := by
        rw [unsigned]
        · simp [spanDigits, hc]
        · rintro ⟨⟩
        · rintro more ⟨⟩
          cases hc
      rw [hread] at h
      cases h

/-- A value that begins with a digit is a number, since no other value does. -/
theorem value_digit {fuel : Nat} {c : Char} {tail : List Char} (hc : c.isDigit = true) :
    value (fuel + 1) (c :: tail) = unsigned false (c :: tail) := by
  have hskip : skipBlanks (c :: tail) = c :: tail := by
    have hne : ∀ x : Char, x.isDigit = false → c ≠ x := by
      rintro x hx rfl
      rw [hc] at hx
      cases hx
    simp [skipBlanks, isBlank, hne]
  rw [value, hskip]
  split <;> rename_i heq <;> cases heq
  case h_9 => rw [if_pos hc]
  all_goals cases hc

/-- A number is written as a sign, if it has one, and what is read as the number without its sign. -/
theorem exists_unsigned (number : Number) : ∃ negative text,
    writeNumber number = (if negative then '-' :: text else text) ∧ (∀ c ∈ text, OfNumber c) ∧
      ∀ rest, Stops rest → unsigned negative (text ++ rest) = .ok (.number number, rest) := by
  cases number with
  | integer i =>
    refine ⟨decide (i.value < 0), Nat.toDigits 10 i.value.natAbs, ?_, ?_, ?_⟩
    · simp only [writeNumber, Integer.digits, decide_eq_true_eq]
    · exact fun c hc => .inl (isDigit_of_mem_toDigits _ c hc)
    · exact fun rest hrest => unsigned_integer i hrest
  | double x =>
    exact ⟨x.negative, _, rfl, ofNumber_of_layout _, fun rest hrest => unsigned_double x hrest⟩

/-- A number that is written is read back, up to whatever may follow it. -/
theorem value_writeNumber (number : Number) (hrest : Stops rest) (fuel : Nat) :
    value (fuel + 1) (writeNumber number ++ rest) = .ok (.number number, rest) := by
  obtain ⟨negative, text, hwrite, -, hread⟩ := exists_unsigned number
  specialize hread rest hrest
  rw [hwrite]
  cases negative with
  | true => exact hread
  | false =>
    obtain ⟨c, tail, htext, hc⟩ := digit_of_unsigned hread
    rw [htext] at hread
    rw [if_neg Bool.false_ne_true, htext, value_digit hc, hread]

theorem ofNumber_of_mem (number : Number) : ∀ c ∈ writeNumber number, OfNumber c := by
  obtain ⟨negative, text, hwrite, htext, -⟩ := exists_unsigned number
  rw [hwrite]
  cases negative with
  | true => exact List.forall_mem_cons.mpr ⟨.inr (by decide), htext⟩
  | false => exact htext

end DictLog.Json.Read
