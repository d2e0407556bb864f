import Jevt.Library.Decimal
import Jevt.Library.Json
import Jevt.Library.Rounding
import Mathlib.Data.List.DropRight

/-!
# Numbers as text

Integers in decimal digits (`integerText`), and rational numbers in a number of significant digits,
in the shorter of fixed and scientific notation without trailing zeros (`generalText`): the `%g`
conversion of C. Both are numbers of the JSON grammar.
-/

namespace Jevt.Library

/-- An integer, with a sign if it is negative. -/
def integerText (n : ℤ) : List UInt8 :=
  if n < 0 then 0x2d :: decimal n.natAbs else decimal n.natAbs

/-- The digits behind the point, without trailing zeros, and the point if there are any. -/
def fractionText (digits : List UInt8) : List UInt8 :=
  let kept := digits.rdropWhile (· = 0x30)
  if kept = [] then [] else 0x2e :: kept

/-- An exponent: its sign and at least two digits. -/
def exponentText (e : ℤ) : List UInt8 :=
  0x65 :: (if e < 0 then 0x2d else 0x2b) ::
    if e.natAbs < 10 then 0x30 :: decimal e.natAbs else decimal e.natAbs

/-- The `precision` significant digits of a positive number as an integer, and the decimal exponent
of the first of them. -/
def significand (precision : ℕ) (q : ℚ) : ℕ × ℤ :=
  let exponent := Int.log 10 q
  let rounded := (roundHalfEven (q / 10 ^ (exponent + 1 - precision))).toNat
  -- the last step of the rounding may have reached the next power of ten
  if rounded = 10 ^ precision then (10 ^ (precision - 1), exponent + 1) else (rounded, exponent)

/-- A positive number. -/
def positiveText (precision : ℕ) (q : ℚ) : List UInt8 :=
  let digits := decimal (significand precision q).1
  let exponent := (significand precision q).2
  if exponent < -4 ∨ precision ≤ exponent then
    digits.take 1 ++ fractionText (digits.drop 1) ++ exponentText exponent
  else if exponent < 0 then
    0x30 :: fractionText (List.replicate (-exponent - 1).toNat 0x30 ++ digits)
  else
    digits.take (exponent + 1).toNat ++ fractionText (digits.drop (exponent + 1).toNat)

/-- A number. -/
def generalText (precision : ℕ) (q : ℚ) : List UInt8 :=
  if q = 0 then [0x30]
  else if q < 0 then 0x2d :: positiveText precision (-q)
  else positiveText precision q

/-- Some numbers with a precision of twelve digits. -/
example : generalText 12 (1 / 40) = "0.025".toUTF8.toList := by decide +kernel

/-! ## Digits -/

/-- The numeral of a positive number does not start with a zero. -/
theorem decimal_eq_cons {n : ℕ} (h : 0 < n) : ∃ b tail, decimal n = b :: tail ∧ b ≠ 0x30 := by
  induction n using Nat.strongRecOn with
  | ind n ih =>
    by_cases hsmall : n < 10
    · have hdigits : ∀ n < 10, 0 < n → UInt8.ofNat (Nat.digitChar n).toNat ≠ 0x30 := by decide
      refine ⟨_, [], ?_, hdigits n hsmall h⟩
      rw [decimal, Nat.toDigits_of_lt_base hsmall, List.map_singleton]
    · obtain ⟨b, tail, htext, hb⟩ := ih (n / 10) (by omega) (by omega)
      refine ⟨b, tail ++ [UInt8.ofNat (n % 10).digitChar.toNat], ?_, hb⟩
      rw [decimal, Nat.toDigits_of_base_le (by decide) (by omega), List.map_append, ← decimal,
        htext, List.map_singleton, List.cons_append]

/-- A numeral has digits only. -/
theorem all_isDigit_decimal (n : ℕ) : ∀ b ∈ decimal n, Json.isDigit b = true := by
  intro b hb
  obtain ⟨hlow, hhigh⟩ := isDigit_of_mem_decimal hb
  simp [Json.isDigit, hlow, hhigh]

/-- A numeral has at least one digit. -/
theorem decimal_ne_nil (n : ℕ) : decimal n ≠ [] := by
  simp [decimal, Nat.toDigits_ne_nil]

/-! ## The number grammar -/

/-- The two parts of a number without a sign: its integer, and its fraction with its exponent. -/
structure NumberParts (int rest : List UInt8) : Prop where
  ne_nil : int ≠ []
  digits : ∀ b ∈ int, Json.isDigit b = true
  zero : int.length = 1 ∨ int.head? ≠ some 0x30
  bytes : ∀ b ∈ rest, Json.isNumberByte b = true
  stop : ∀ b ∈ rest.head?, Json.isDigit b = false
  fraction : Json.isFraction rest = true

variable {int rest digits : List UInt8}

/-- A digit can stand in a number. -/
theorem isNumberByte_of_isDigit {b : UInt8} (h : Json.isDigit b = true) :
    Json.isNumberByte b = true := by
  simp [Json.isNumberByte, h]

/-- Both parts in a row are a number. -/
theorem NumberParts.isNumber (h : NumberParts int rest) : Json.isNumber (int ++ rest) = true := by
  obtain ⟨htake, hdrop⟩ := span_append h.digits h.stop
  obtain ⟨b, tail, rfl⟩ := List.exists_cons_of_ne_nil h.ne_nil
  have hsign : b ≠ 0x2d := by
    rintro rfl
    exact absurd (h.digits _ List.mem_cons_self) (by decide)
  have hbytes : ∀ c ∈ b :: (tail ++ rest), Json.isNumberByte c = true := by
    intro c hc
    rcases List.mem_append.1 ((List.cons_append (a := b) ▸ hc : c ∈ b :: tail ++ rest)) with hc | hc
    · exact isNumberByte_of_isDigit (h.digits c hc)
    · exact h.bytes c hc
  rw [List.cons_append] at htake hdrop ⊢
  simp only [Json.isNumber, hsign, if_false, htake, hdrop, h.fraction, Bool.and_eq_true,
    Bool.or_eq_true, decide_eq_true_eq, and_true]
  exact ⟨⟨List.all_eq_true.2 hbytes, by simp⟩, h.zero⟩

/-- A minus makes another number of a number. -/
theorem NumberParts.isNumber_neg (h : NumberParts int rest) :
    Json.isNumber (0x2d :: (int ++ rest)) = true := by
  have hnumber := h.isNumber
  obtain ⟨htake, hdrop⟩ := span_append h.digits h.stop
  simp only [Json.isNumber, Bool.and_eq_true, List.all_cons] at hnumber ⊢
  simp only [if_true, htake, hdrop, h.fraction, and_true]
  refine ⟨⟨⟨by decide, hnumber.1.1.1⟩, by simpa using h.ne_nil⟩, ?_⟩
  simpa using h.zero

/-- A numeral is the integer of a number. -/
theorem numberParts_decimal (n : ℕ) : NumberParts (decimal n) [] := by
  refine ⟨decimal_ne_nil n, all_isDigit_decimal n, ?_, by simp, by simp, rfl⟩
  rcases Nat.eq_zero_or_pos n with rfl | hpos
  · exact .inl rfl
  · obtain ⟨b, tail, htext, hb⟩ := decimal_eq_cons hpos
    simp [htext, hb]

/-- An integer is a number. -/
theorem isNumber_integerText (n : ℤ) : Json.isNumber (integerText n) = true := by
  have hparts := numberParts_decimal n.natAbs
  rw [integerText]
  split
  · simpa using hparts.isNumber_neg
  · simpa using hparts.isNumber

/-- What may follow the fraction of a number. -/
structure IsExponent (rest : List UInt8) : Prop where
  bytes : ∀ b ∈ rest, Json.isNumberByte b = true
  mark : ∀ b ∈ rest.head?, b = 0x65
  exponent : Json.isExponent rest = true

/-- The exponent may be absent. -/
theorem isExponent_nil : IsExponent [] := ⟨by simp, by simp, rfl⟩

/-- An exponent may follow the fraction of a number. -/
theorem isExponent_exponentText (e : ℤ) : IsExponent (exponentText e) := by
  have hdigits : ∀ b ∈ (if e.natAbs < 10 then 0x30 :: decimal e.natAbs else decimal e.natAbs),
      Json.isDigit b = true := by
    intro b hb
    split at hb
    · rcases List.mem_cons.1 hb with rfl | hb
      · rfl
      · exact all_isDigit_decimal _ b hb
    · exact all_isDigit_decimal _ b hb
  have hne : (if e.natAbs < 10 then 0x30 :: decimal e.natAbs else decimal e.natAbs) ≠ [] := by
    split
    · simp
    · exact decimal_ne_nil _
  unfold exponentText
  generalize (if e.natAbs < 10 then 0x30 :: decimal e.natAbs else decimal e.natAbs) = text
    at hdigits hne
  refine ⟨?_, by simp, ?_⟩
  · intro b hb
    simp only [List.mem_cons] at hb
    rcases hb with rfl | rfl | hb
    · rfl
    · split <;> rfl
    · exact isNumberByte_of_isDigit (hdigits b hb)
  · have hall : text.all Json.isDigit = true := List.all_eq_true.2 hdigits
    by_cases he : e < 0 <;> simp [Json.isExponent, he, hne, hall]

/-- A fraction and an exponent may follow the integer of a number. -/
theorem numberParts_fractionText (hint : NumberParts int [])
    (hdigits : ∀ b ∈ digits, Json.isDigit b = true) (hrest : IsExponent rest) :
    NumberParts int (fractionText digits ++ rest) := by
  have hstop : ∀ b ∈ rest.head?, Json.isDigit b = false := by
    intro b hb
    obtain rfl := hrest.mark b hb
    rfl
  unfold fractionText
  by_cases hnil : digits.rdropWhile (· = 0x30) = []
  · refine ⟨hint.ne_nil, hint.digits, hint.zero, ?_, ?_, ?_⟩
    · simpa [hnil] using hrest.bytes
    · simpa [hnil] using hstop
    · rw [if_pos hnil, List.nil_append]
      cases rest with
      | nil => rfl
      | cons b rest =>
        obtain rfl := hrest.mark b rfl
        exact hrest.exponent
  · have hkept : ∀ b ∈ digits.rdropWhile (· = 0x30), Json.isDigit b = true := fun b hb =>
      hdigits b ((List.rdropWhile_prefix _ digits).mem hb)
    obtain ⟨htake, hdrop⟩ := span_append hkept hstop
    rw [if_neg hnil, List.cons_append]
    refine ⟨hint.ne_nil, hint.digits, hint.zero, ?_, by simp; rfl, ?_⟩
    · intro b hb
      rcases List.mem_cons.1 hb with rfl | hb
      · rfl
      · rcases List.mem_append.1 hb with hb | hb
        · exact isNumberByte_of_isDigit (hkept b hb)
        · exact hrest.bytes b hb
    · simp only [Json.isFraction, if_true, htake, hdrop, hrest.exponent, Bool.and_true]
      simpa using hnil

/-! ## Significant digits -/

variable {precision : ℕ} {q : ℚ}

/-- A positive number has a positive significand. -/
theorem significand_pos (hprecision : 1 ≤ precision) (hq : 0 < q) :
    0 < (significand precision q).1 := by
  rw [significand]
  split
  · exact Nat.pow_pos (by decide)
  · -- the first digit stands before the point
    have hlow : ((10 : ℕ) : ℚ) ^ Int.log 10 q ≤ q := Int.zpow_log_le_self (by decide) hq
    have hunit : (0 : ℚ) < 10 ^ (Int.log 10 q + 1 - precision) :=
      zpow_pos (by norm_num) _
    have hplace : (10 : ℚ) ^ (Int.log 10 q + 1 - precision) ≤ 10 ^ Int.log 10 q :=
      zpow_le_zpow_right₀ (by norm_num) (by omega)
    have hone : ((1 : ℤ) : ℚ) ≤ q / 10 ^ (Int.log 10 q + 1 - precision) := by
      rw [Int.cast_one, le_div_iff₀ hunit, one_mul]
      exact hplace.trans (by exact_mod_cast hlow)
    have hround := le_roundHalfEven hone
    omega

/-- The digits of an integer cut anywhere behind the first are the integer of a number. -/
theorem numberParts_take {n k : ℕ} (hn : 0 < n) (hk : 0 < k) :
    NumberParts ((decimal n).take k) [] := by
  obtain ⟨b, tail, htext, hb⟩ := decimal_eq_cons hn
  obtain ⟨k, rfl⟩ := Nat.exists_eq_succ_of_ne_zero hk.ne'
  refine ⟨by simp [htext], fun c hc => all_isDigit_decimal n c (List.mem_of_mem_take hc), ?_,
    by simp, by simp, rfl⟩
  simp [htext, hb]

/-- The text of a positive number has the two parts of a number. -/
theorem exists_numberParts_positiveText (hprecision : 1 ≤ precision) (hq : 0 < q) :
    ∃ int rest, positiveText precision q = int ++ rest ∧ NumberParts int rest := by
  have hpos := significand_pos hprecision hq
  have hdigits := all_isDigit_decimal (significand precision q).1
  have hdrop : ∀ k, ∀ b ∈ (decimal (significand precision q).1).drop k, Json.isDigit b = true :=
    fun k b hb => hdigits b (List.mem_of_mem_drop hb)
  rw [positiveText]
  split_ifs with hscientific hsmall
  · exact ⟨_, _, List.append_assoc _ _ _, numberParts_fractionText
      (numberParts_take hpos one_pos) (hdrop 1) (isExponent_exponentText _)⟩
  · refine ⟨[0x30], fractionText _ ++ [], by rw [List.append_nil]; rfl, numberParts_fractionText
      (numberParts_decimal 0) (fun b hb => ?_) isExponent_nil⟩
    rcases List.mem_append.1 hb with hb | hb
    · obtain rfl := List.eq_of_mem_replicate hb
      rfl
    · exact hdigits b hb
  · exact ⟨_, fractionText _ ++ [], by rw [List.append_nil], numberParts_fractionText
      (numberParts_take hpos (by omega)) (hdrop _) isExponent_nil⟩

/-- **A number in significant digits is a number of the JSON grammar.** -/
theorem isNumber_generalText (hprecision : 1 ≤ precision) (q : ℚ) :
    Json.isNumber (generalText precision q) = true := by
  rw [generalText]
  split_ifs with hzero hneg
  · rfl
  · obtain ⟨int, rest, htext, hparts⟩ :=
      exists_numberParts_positiveText hprecision (neg_pos.2 hneg)
    rw [htext]
    exact hparts.isNumber_neg
  · obtain ⟨int, rest, htext, hparts⟩ := exists_numberParts_positiveText hprecision
      (lt_of_le_of_ne (not_lt.1 hneg) (Ne.symm hzero))
    rw [htext]
    exact hparts.isNumber

end Jevt.Library
