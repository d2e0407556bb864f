import Jevt.Core.Floating
import Jevt.Library.Rounding

/-!
# Binary formats

What the rounding of a binary format keeps (`Floating.Format`), and the formats of a machine with
the binary types of the floating-point standard (`Arithmetic.ieee`), which keep it.
-/

namespace Jevt

open Library

/-- What the rounding of a format with `precision` bits keeps: the order, the integers that fit into
its bits, and a power of two to which at most half a unit of its last place is added. -/
structure Floating.Format (precision : ℕ) (round : ℚ → Floating) : Prop where
  mono : ∀ q r : ℚ, q ≤ r → (round q).le (round r) = true
  integer : ∀ n : ℤ, |n| ≤ 2 ^ precision → round n = .finite n
  absorb : ∀ (e : ℕ) (q : ℚ), e ≤ 512 → 0 ≤ q → q * 2 ^ precision ≤ 2 ^ e →
    round (2 ^ e + q) = .finite (2 ^ e)

/-- `double` has 53 bits, and `long double` at least as many. -/
structure Arithmetic.Formats (arith : Arithmetic) : Prop where
  double : Floating.Format 53 arith.double
  longDouble : ∃ precision, 53 ≤ precision ∧ precision ≤ 113 ∧
    Floating.Format precision arith.longDouble

namespace Floating.Format

variable {precision : ℕ} {round : ℚ → Floating}

/-- Zero is not rounded. -/
theorem zero (h : Format precision round) : round 0 = .finite 0 := by
  have hzero := h.integer 0 (by simp)
  rwa [Int.cast_zero] at hzero

/-- A power of two is not rounded. -/
theorem pow (h : Format precision round) {e : ℕ} (he : e ≤ 512) :
    round (2 ^ e) = .finite (2 ^ e) := by
  have habsorb := h.absorb e 0 he le_rfl (by simp)
  rwa [add_zero] at habsorb

/-- What is between zero and a power of two is rounded to a number between them. -/
theorem exists_finite (h : Format precision round) {e : ℕ} (he : e ≤ 512) {q : ℚ} (hq : 0 ≤ q)
    (hpow : q ≤ 2 ^ e) : ∃ r, round q = .finite r ∧ 0 ≤ r ∧ r ≤ 2 ^ e := by
  have hlow := h.mono 0 q hq
  have hhigh := h.mono q (2 ^ e) hpow
  rw [h.zero] at hlow
  rw [h.pow he] at hhigh
  exact Floating.eq_finite_of_le hlow hhigh

/-- A large enough power of two absorbs what is added to anything below it. -/
theorem exists_finite_add (h : Format precision round) {e : ℕ} (he : e ≤ 512) {q r : ℚ}
    (hq : 0 ≤ q) (hpow : q ≤ 2 ^ e) (hr : 0 ≤ r) (hsmall : r * 2 ^ precision ≤ 2 ^ e) :
    ∃ s, round (q + r) = .finite s ∧ 0 ≤ s ∧ s ≤ 2 ^ e := by
  have hlow := h.mono 0 (q + r) (add_nonneg hq hr)
  have hhigh := h.mono (q + r) (2 ^ e + r) (add_le_add_left hpow r)
  rw [h.zero] at hlow
  rw [h.absorb e r he hr hsmall] at hhigh
  exact Floating.eq_finite_of_le hlow hhigh

end Floating.Format

/-! ## The formats of the standard -/

/-- A binary format: its bits, the exponent of its range, and that of its smallest place. -/
def Floating.binary (precision range : ℕ) (least : ℤ) (q : ℚ) : Floating :=
  let rounded := roundBinary precision least q
  if |rounded| < 2 ^ range then .finite rounded else .infinite (decide (rounded < 0))

/-- The types of a machine whose `long double` is the extended format. Logarithms are left out. -/
def Arithmetic.ieee : Arithmetic where
  float := .binary 24 128 (-149)
  double := .binary 53 1024 (-1074)
  longDouble := .binary 64 16384 (-16445)
  logFloat := fun _ => .nan
  logDouble := fun _ => .nan

/-- A binary format keeps what a format keeps. -/
theorem Floating.format_binary {precision range : ℕ} {least : ℤ} (hprecision : 2 ≤ precision)
    (hleast : least ≤ -precision) (hrange : 512 < range) (hbits : precision < range) :
    Format precision (binary precision range least) := by
  have hfits : ∀ (e : ℕ), e < range → (2 : ℚ) ^ e < 2 ^ range :=
    fun e he => pow_lt_pow_right₀ one_lt_two he
  refine ⟨fun q r h => ?_, fun n hn => ?_, fun e q he hq hsmall => ?_⟩
  · have hmono : roundBinary precision least q ≤ roundBinary precision least r :=
      roundBinary_mono (by omega) h
    unfold binary
    dsimp only
    -- an infinity is on the side of its sign
    split_ifs with hq hr hr
    · exact finite_le_iff.2 hmono
    · have hpos : ¬ roundBinary precision least r < 0 := fun hneg => by
        rw [abs_of_neg hneg] at hr
        rw [abs_lt] at hq
        linarith
      simp [le, lt, eq, hpos]
    · have hneg : roundBinary precision least q < 0 := by
        by_contra hpos
        rw [abs_of_nonneg (not_lt.1 hpos)] at hq
        rw [abs_lt] at hr
        linarith
      simp [le, lt, hneg]
    · by_cases hneg : roundBinary precision least q < 0
      · by_cases hneg' : roundBinary precision least r < 0 <;> simp [le, lt, eq, hneg, hneg']
      · have hpos : ¬ roundBinary precision least r < 0 := by linarith
        simp [le, lt, eq, hneg, hpos]
  · have hexact : roundBinary precision least n = n := by
      have hnat : n.natAbs ≤ 2 ^ precision := by
        have hcast : ((n.natAbs : ℕ) : ℤ) ≤ ((2 ^ precision : ℕ) : ℤ) := by
          rw [Int.natCast_natAbs]
          exact_mod_cast hn
        exact_mod_cast hcast
      have habs := roundBinary_natCast hprecision hleast hnat
      rcases n.natAbs_eq with h | h
      · rw [h, Int.cast_natCast, habs]
      · rw [h, Int.cast_neg, Int.cast_natCast, roundBinary_neg, habs]
    have hsmall : |(n : ℚ)| < 2 ^ range := by
      refine lt_of_le_of_lt ?_ (hfits precision hbits)
      exact_mod_cast hn
    rw [binary, hexact, if_pos hsmall]
  · have habsorb := roundBinary_absorb hprecision hleast hq hsmall
    have hsmall' : |(2 : ℚ) ^ e| < 2 ^ range := by
      rw [abs_of_pos (by positivity)]
      exact hfits e (by omega)
    rw [binary, habsorb, if_pos hsmall']

/-- The types of such a machine are formats. -/
theorem Arithmetic.ieee_formats : Arithmetic.ieee.Formats where
  double := Floating.format_binary (by decide) (by decide) (by decide) (by decide)
  longDouble := ⟨64, by decide, by decide,
    Floating.format_binary (by decide) (by decide) (by decide) (by decide)⟩

end Jevt
