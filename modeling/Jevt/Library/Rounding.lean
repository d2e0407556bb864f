import Mathlib.Algebra.Order.Floor.Ring
import Mathlib.Algebra.Ring.Int.Parity
import Mathlib.Data.Int.Log
import Mathlib.Data.Rat.Floor

/-!
# Rounding to the nearest

`roundHalfEven` is the integer nearest to a rational number, the even one of two. With it a number
is rounded to a binary format: to a multiple of the unit in the last place of a significand of a
given length, but of no smaller unit than the format has (`roundBinary`). The rounding keeps the
order (`roundBinary_mono`) and the numbers the format has (`roundBinary_natCast`), and a power of
two absorbs whatever is at most half a unit of its last place (`roundBinary_absorb`).
-/

namespace Jevt.Library

/-! ## Integers -/

/-- The nearest integer, and the even one of two. -/
def roundHalfEven (q : ℚ) : ℤ :=
  if q - ⌊q⌋ < 1 / 2 ∨ q - ⌊q⌋ = 1 / 2 ∧ Even ⌊q⌋ then ⌊q⌋ else ⌊q⌋ + 1

variable {q r : ℚ}

/-- An integer is not rounded. -/
theorem roundHalfEven_intCast (n : ℤ) : roundHalfEven n = n := by
  simp [roundHalfEven]

/-- Rounding keeps the order. -/
theorem roundHalfEven_mono (h : q ≤ r) : roundHalfEven q ≤ roundHalfEven r := by
  have hfloor : ⌊q⌋ ≤ ⌊r⌋ := Int.floor_le_floor h
  rcases hfloor.lt_or_eq with hlt | heq
  · unfold roundHalfEven
    split_ifs <;> omega
  · -- in one unit interval the part behind the point decides
    unfold roundHalfEven
    rw [← heq]
    split_ifs with hq hr hr
    · exact le_rfl
    · exact Int.le_add_one le_rfl
    · exfalso
      rcases hr with hr | ⟨hr, heven⟩
      · exact hq (.inl (by linarith))
      · rcases (show q - ⌊q⌋ ≤ 1 / 2 by linarith).lt_or_eq with hlt | hhalf
        · exact hq (.inl hlt)
        · exact hq (.inr ⟨hhalf, heven⟩)
    · exact le_rfl

/-- What is at most an integer is rounded to at most that integer. -/
theorem roundHalfEven_le {n : ℤ} (h : q ≤ n) : roundHalfEven q ≤ n := by
  have hround := roundHalfEven_mono h
  rwa [roundHalfEven_intCast] at hround

/-- What is at least an integer is rounded to at least that integer. -/
theorem le_roundHalfEven {n : ℤ} (h : (n : ℚ) ≤ q) : n ≤ roundHalfEven q := by
  have hround := roundHalfEven_mono h
  rwa [roundHalfEven_intCast] at hround

/-- Rounding is symmetric. -/
theorem roundHalfEven_neg (q : ℚ) : roundHalfEven (-q) = -roundHalfEven q := by
  by_cases hint : (⌊q⌋ : ℚ) = q
  · rw [← hint, ← Int.cast_neg, roundHalfEven_intCast, roundHalfEven_intCast]
  · have hlow : (⌊q⌋ : ℚ) < q := lt_of_le_of_ne (Int.floor_le q) hint
    have hhigh := Int.lt_floor_add_one q
    have hfloor : ⌊-q⌋ = -⌊q⌋ - 1 := by
      rw [Int.floor_eq_iff]
      push_cast
      constructor <;> linarith
    have hparity : Even (-⌊q⌋ - 1) ↔ ¬ Even ⌊q⌋ := by
      rw [Int.even_sub_one, even_neg]
    unfold roundHalfEven
    simp only [hfloor, hparity, Int.cast_sub, Int.cast_neg, Int.cast_one]
    rcases lt_trichotomy (q - ⌊q⌋) (1 / 2) with hlt | heq | hgt
    · have hmirror : 1 / 2 < -q - (-(⌊q⌋ : ℚ) - 1) := by linarith
      simp only [hlt, true_or, if_true, hmirror.not_gt, hmirror.ne', false_and, or_self, if_false]
      omega
    · have hmirror : -q - (-(⌊q⌋ : ℚ) - 1) = 1 / 2 := by linarith
      by_cases heven : Even ⌊q⌋
      · simp [heq, hmirror, heven]
      · simp [heq, hmirror, heven]
        omega
    · have hmirror : -q - (-(⌊q⌋ : ℚ) - 1) < 1 / 2 := by linarith
      simp only [hmirror, true_or, if_true, hgt.not_gt, hgt.ne', false_and, or_self, if_false]
      omega

/-- Half a unit above an even number is rounded down. -/
theorem roundHalfEven_of_even {n : ℤ} (hn : Even n) (hlow : (n : ℚ) ≤ q) (hhigh : q ≤ n + 1 / 2) :
    roundHalfEven q = n := by
  have hfloor : ⌊q⌋ = n := Int.floor_eq_iff.2 ⟨hlow, by linarith⟩
  rw [roundHalfEven, hfloor, if_pos]
  rcases (show q - n ≤ 1 / 2 by linarith).lt_or_eq with hlt | heq
  · exact .inl hlt
  · exact .inr ⟨heq, hn⟩

/-! ## Binary formats -/

/-- The exponent of the last place of a number with a significand of `precision` bits, in a format
whose smallest place has the exponent `least`. -/
def lastPlace (precision : ℕ) (least : ℤ) (q : ℚ) : ℤ :=
  max (Int.log 2 |q| + 1 - precision) least

/-- Rounding to a multiple of the last place. -/
def roundBinary (precision : ℕ) (least : ℤ) (q : ℚ) : ℚ :=
  roundHalfEven (q / 2 ^ lastPlace precision least q) * 2 ^ lastPlace precision least q

section
variable {precision : ℕ} {least : ℤ}

/-- A power of two is positive. -/
theorem two_zpow_pos (e : ℤ) : (0 : ℚ) < 2 ^ e :=
  zpow_pos two_pos e

/-- A multiple of the last place is not rounded. -/
theorem roundBinary_of_multiple {n : ℤ} (h : q = n * 2 ^ lastPlace precision least q) :
    roundBinary precision least q = q := by
  have hquot : q / 2 ^ lastPlace precision least q = n := by
    rw [div_eq_iff (two_zpow_pos _).ne']
    exact h
  rw [roundBinary, hquot, roundHalfEven_intCast, ← h]

/-- A power of two from the last place on bounds what it is rounded from. -/
theorem roundBinary_le_zpow {e : ℤ} (hplace : lastPlace precision least q ≤ e) (h : q ≤ 2 ^ e) :
    roundBinary precision least q ≤ 2 ^ e := by
  obtain ⟨k, hk⟩ := Int.le.dest hplace
  have hsplit : (2 : ℚ) ^ e = (2 ^ k : ℤ) * 2 ^ lastPlace precision least q := by
    rw [← hk, zpow_add₀ two_ne_zero, mul_comm]
    simp
  rw [roundBinary, hsplit]
  refine mul_le_mul_of_nonneg_right ?_ (two_zpow_pos _).le
  rw [Int.cast_le]
  refine roundHalfEven_le ?_
  rw [div_le_iff₀ (two_zpow_pos _), ← hsplit]
  exact h

/-- A power of two from the last place on bounds from below. -/
theorem zpow_le_roundBinary {e : ℤ} (hplace : lastPlace precision least q ≤ e) (h : 2 ^ e ≤ q) :
    2 ^ e ≤ roundBinary precision least q := by
  obtain ⟨k, hk⟩ := Int.le.dest hplace
  have hsplit : (2 : ℚ) ^ e = (2 ^ k : ℤ) * 2 ^ lastPlace precision least q := by
    rw [← hk, zpow_add₀ two_ne_zero, mul_comm]
    simp
  rw [roundBinary, hsplit]
  refine mul_le_mul_of_nonneg_right ?_ (two_zpow_pos _).le
  rw [Int.cast_le]
  refine le_roundHalfEven ?_
  rw [le_div_iff₀ (two_zpow_pos _), ← hsplit]
  exact h

/-- Zero is not rounded. -/
theorem roundBinary_zero : roundBinary precision least 0 = 0 := by
  have hzero := roundHalfEven_intCast 0
  rw [Int.cast_zero] at hzero
  rw [roundBinary, zero_div, hzero, Int.cast_zero, zero_mul]

/-- Rounding is symmetric. -/
theorem roundBinary_neg (q : ℚ) :
    roundBinary precision least (-q) = -roundBinary precision least q := by
  have hplace : lastPlace precision least (-q) = lastPlace precision least q := by
    rw [lastPlace, lastPlace, abs_neg]
  rw [roundBinary, roundBinary, hplace, neg_div, roundHalfEven_neg]
  push_cast
  ring

/-- What is not negative stays so. -/
theorem roundBinary_nonneg (h : 0 ≤ q) : 0 ≤ roundBinary precision least q := by
  have hround : (0 : ℤ) ≤ roundHalfEven (q / 2 ^ lastPlace precision least q) := by
    refine le_roundHalfEven ?_
    rw [Int.cast_zero]
    exact div_nonneg h (two_zpow_pos _).le
  exact mul_nonneg (by exact_mod_cast hround) (two_zpow_pos _).le

/-- Positive numbers are rounded in their order. -/
theorem roundBinary_mono_of_pos (hprecision : 1 ≤ precision) (hq : 0 < q) (h : q ≤ r) :
    roundBinary precision least q ≤ roundBinary precision least r := by
  have hr : 0 < r := hq.trans_le h
  have hlog : Int.log 2 q ≤ Int.log 2 r := Int.log_mono_right hq h
  have hplaces : lastPlace precision least q ≤ lastPlace precision least r := by
    rw [lastPlace, lastPlace, abs_of_pos hq, abs_of_pos hr]
    omega
  rcases hplaces.lt_or_eq with hlt | heq
  · -- the power of two that starts the larger number lies between the rounded ones
    have hlarge : lastPlace precision least r ≤ Int.log 2 r := by
      simp only [lastPlace, abs_of_pos hq, abs_of_pos hr] at hlt ⊢
      omega
    have hsmall : Int.log 2 q < Int.log 2 r := by
      simp only [lastPlace, abs_of_pos hq, abs_of_pos hr] at hlt
      omega
    have hbelow : q ≤ 2 ^ Int.log 2 r := by
      have hnext := Int.lt_zpow_succ_log_self one_lt_two q
      have hpow : ((2 : ℕ) : ℚ) ^ (Int.log 2 q + 1) ≤ (2 : ℕ) ^ Int.log 2 r :=
        zpow_le_zpow_right₀ (by norm_num) hsmall
      exact_mod_cast (hnext.le.trans hpow)
    have habove : (2 : ℚ) ^ Int.log 2 r ≤ r := by
      exact_mod_cast Int.zpow_log_le_self one_lt_two hr
    exact (roundBinary_le_zpow (hplaces.trans hlarge) hbelow).trans
      (zpow_le_roundBinary hlarge habove)
  · unfold roundBinary
    rw [heq]
    refine mul_le_mul_of_nonneg_right ?_ (two_zpow_pos _).le
    rw [Int.cast_le]
    exact roundHalfEven_mono (div_le_div_of_nonneg_right h (two_zpow_pos _).le)

/-- **Rounding to a binary format keeps the order.** -/
theorem roundBinary_mono (hprecision : 1 ≤ precision) (h : q ≤ r) :
    roundBinary precision least q ≤ roundBinary precision least r := by
  rcases lt_trichotomy q 0 with hq | rfl | hq
  · rcases lt_or_ge r 0 with hr | hr
    · have hneg : roundBinary precision least (-r) ≤ roundBinary precision least (-q) :=
        roundBinary_mono_of_pos hprecision (neg_pos.2 hr) (neg_le_neg h)
      rw [roundBinary_neg, roundBinary_neg] at hneg
      exact neg_le_neg_iff.1 hneg
    · have hneg : 0 ≤ roundBinary precision least (-q) := roundBinary_nonneg (neg_nonneg.2 hq.le)
      rw [roundBinary_neg] at hneg
      exact (neg_nonneg.1 hneg).trans (roundBinary_nonneg hr)
  · rw [roundBinary_zero]
    exact roundBinary_nonneg h
  · exact roundBinary_mono_of_pos hprecision hq h

/-- A power of two absorbs what is at most half a unit of its last place. -/
theorem roundBinary_absorb (hprecision : 2 ≤ precision) (hleast : least ≤ -precision) {e : ℕ}
    (hq : 0 ≤ q) (hsmall : q * 2 ^ precision ≤ 2 ^ e) :
    roundBinary precision least (2 ^ e + q) = 2 ^ e := by
  have hpow : (0 : ℚ) < 2 ^ e := by positivity
  have hlt : q < 2 ^ e := by
    have hbits : (4 : ℚ) ≤ 2 ^ precision :=
      (by norm_num : (4 : ℚ) ≤ 2 ^ 2).trans (pow_le_pow_right₀ one_le_two hprecision)
    nlinarith
  have hlog : Int.log 2 ((2 : ℚ) ^ e + q) = e := by
    have hlow : ((2 : ℕ) : ℚ) ^ (e : ℤ) ≤ 2 ^ e + q := by
      push_cast [zpow_natCast]
      linarith
    have hhigh : (2 : ℚ) ^ e + q < ((2 : ℕ) : ℚ) ^ ((e : ℤ) + 1) := by
      have hdouble : ((2 : ℕ) : ℚ) ^ ((e : ℤ) + 1) = 2 ^ e * 2 := by
        rw [zpow_add_one₀ (by norm_num), zpow_natCast, Nat.cast_ofNat]
      rw [hdouble]
      linarith
    have hle := (Int.zpow_le_iff_le_log one_lt_two (by linarith)).1 hlow
    have hge := (Int.lt_zpow_iff_log_lt one_lt_two (by linarith)).1 hhigh
    omega
  have hplace : lastPlace precision least (2 ^ e + q) = e + 1 - precision := by
    rw [lastPlace, abs_of_pos (by linarith), hlog]
    omega
  have hunit : (2 : ℚ) ^ (e + 1 - precision : ℤ) * 2 ^ precision = 2 ^ e * 2 := by
    rw [← zpow_natCast, ← zpow_add₀ two_ne_zero, sub_add_cancel, zpow_add_one₀ two_ne_zero,
      zpow_natCast]
  have hpos := two_zpow_pos (e + 1 - precision : ℤ)
  -- the power of two is an even number of units
  have heven : (2 : ℚ) ^ e = ((2 ^ (precision - 1) : ℤ) : ℚ) * 2 ^ (e + 1 - precision : ℤ) := by
    have hsplit : (2 : ℚ) ^ precision = 2 ^ (precision - 1) * 2 := by
      rw [← pow_succ, Nat.sub_add_cancel (by omega)]
    rw [hsplit] at hunit
    push_cast
    linarith
  have hround : roundHalfEven ((2 ^ e + q) / 2 ^ (e + 1 - precision : ℤ)) =
      2 ^ (precision - 1) := by
    refine roundHalfEven_of_even ?_ ?_ ?_
    · exact (even_two.pow_of_ne_zero (by omega) : Even ((2 : ℤ) ^ (precision - 1)))
    · rw [le_div_iff₀ hpos, ← heven]
      linarith
    · have hpow_pos : (0 : ℚ) < 2 ^ precision := by positivity
      rw [div_le_iff₀ hpos, add_mul, ← heven]
      nlinarith
  rw [roundBinary, hplace, hround, ← heven]

/-- The integers that fit into the significand are not rounded. -/
theorem roundBinary_natCast (hprecision : 2 ≤ precision) (hleast : least ≤ -precision) {n : ℕ}
    (hn : n ≤ 2 ^ precision) : roundBinary precision least n = n := by
  rcases hn.lt_or_eq with hlt | rfl
  · rcases Nat.eq_zero_or_pos n with rfl | hpos
    · rw [Nat.cast_zero, roundBinary_zero]
    · have hnpos : (0 : ℚ) < n := by exact_mod_cast hpos
      have hlog : Int.log 2 (n : ℚ) < precision := by
        refine (Int.lt_zpow_iff_log_lt one_lt_two hnpos).1 ?_
        rw [zpow_natCast]
        exact_mod_cast hlt
      have hplace : lastPlace precision least n ≤ 0 := by
        rw [lastPlace, abs_of_pos hnpos]
        omega
      obtain ⟨k, hk⟩ := Int.le.dest hplace
      refine roundBinary_of_multiple (n := n * 2 ^ k) ?_
      have hone : (2 : ℚ) ^ k * 2 ^ lastPlace precision least n = 1 := by
        rw [← zpow_natCast, ← zpow_add₀ two_ne_zero, add_comm, hk, zpow_zero]
      push_cast
      rw [mul_assoc, hone, mul_one]
  · have habsorb := roundBinary_absorb hprecision hleast (e := precision) le_rfl (by simp)
    rw [add_zero] at habsorb
    rw [Nat.cast_pow, Nat.cast_ofNat, habsorb]

end

end Jevt.Library
