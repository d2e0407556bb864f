import Mathlib.Algebra.BigOperators.Group.List.Basic
import Mathlib.Algebra.BigOperators.Ring.List
import Mathlib.Algebra.Order.BigOperators.Group.List
import Mathlib.Algebra.Order.Field.Basic
import Mathlib.Tactic.LinearCombination
import Mathlib.Tactic.Ring

/-!
# Mean and squared deviations of a sample

The mean of a list of numbers, and the sum of the squared deviations from it. Both have a form that
takes one number after the other: the mean moves to a new number by its share of the difference
(`sampleMean_concat`), and the squared deviations grow by the product of the differences from the
old mean and from the new one (`squaredDeviations_concat`).
-/

namespace Jevt.Library

variable {K : Type*} [Field K]

/-- The mean of a sample, zero for the empty one. -/
def sampleMean (l : List K) : K :=
  l.sum / l.length

/-- The sum of the squared deviations from the mean. -/
def squaredDeviations (l : List K) : K :=
  (l.map fun x => (x - sampleMean l) ^ 2).sum

/-- Squares of differences from any number, summed. -/
theorem sum_squared_sub (l : List K) (m : K) :
    (l.map fun x => (x - m) ^ 2).sum = (l.map (· ^ 2)).sum - 2 * m * l.sum + l.length * m ^ 2 := by
  induction l with
  | nil => simp
  | cons x l ih =>
    simp only [List.map_cons, List.sum_cons, List.length_cons, Nat.cast_add, Nat.cast_one]
    rw [ih]
    ring

/-- The order of a sample does not matter for its mean. -/
theorem sampleMean_perm {l l' : List K} (h : l.Perm l') : sampleMean l = sampleMean l' := by
  rw [sampleMean, sampleMean, h.sum_eq, h.length_eq]

/-- The order of a sample does not matter for its squared deviations. -/
theorem squaredDeviations_perm {l l' : List K} (h : l.Perm l') :
    squaredDeviations l = squaredDeviations l' := by
  rw [squaredDeviations, squaredDeviations, sampleMean_perm h]
  exact (h.map _).sum_eq

section
variable [CharZero K]

/-- The mean times the size is the sum. -/
theorem length_mul_sampleMean (l : List K) : l.length * sampleMean l = l.sum := by
  cases l with
  | nil => simp
  | cons x l =>
    have hlength : ((x :: l).length : K) ≠ 0 := Nat.cast_ne_zero.2 (by simp)
    rw [sampleMean, mul_div_cancel₀ _ hlength]

/-- The squares of a sample exceed the squared deviations by the square of the mean for each
number. -/
theorem squaredDeviations_eq (l : List K) :
    squaredDeviations l = (l.map (· ^ 2)).sum - l.length * sampleMean l ^ 2 := by
  have hsum := length_mul_sampleMean l
  rw [squaredDeviations, sum_squared_sub, ← hsum]
  ring

/-- A new number moves the mean by its share of the difference. -/
theorem sampleMean_concat (l : List K) (x : K) :
    sampleMean (l ++ [x]) = sampleMean l + (x - sampleMean l) / (l.length + 1 : ℕ) := by
  have hlength : ((l.length + 1 : ℕ) : K) ≠ 0 := Nat.cast_ne_zero.2 (by omega)
  have hsum := length_mul_sampleMean l
  rw [sampleMean, List.length_append, List.length_singleton, List.sum_append, List.sum_singleton,
    ← hsum, div_eq_iff hlength, add_mul, div_mul_cancel₀ _ hlength]
  push_cast
  ring

/-- A new number adds to the squared deviations the product of its differences from the old mean and
from the new one. -/
theorem squaredDeviations_concat (l : List K) (x : K) :
    squaredDeviations (l ++ [x]) =
      squaredDeviations l + (x - sampleMean l) * (x - sampleMean (l ++ [x])) := by
  have hnew := length_mul_sampleMean (l ++ [x])
  have hold := length_mul_sampleMean l
  rw [squaredDeviations_eq, squaredDeviations_eq]
  simp only [List.map_append, List.sum_append, List.map_singleton, List.sum_singleton,
    List.length_append, List.length_singleton] at hnew ⊢
  push_cast at hnew ⊢
  -- both means times their sizes are the sums, the second one with the number added
  have hstep : ((l.length : K) + 1) * sampleMean (l ++ [x]) = l.length * sampleMean l + x := by
    rw [hnew, hold]
  linear_combination (-sampleMean (l ++ [x]) - sampleMean l) * hstep
end

section
variable [LinearOrder K] [IsStrictOrderedRing K]

/-- Squared deviations are not negative. -/
theorem squaredDeviations_nonneg (l : List K) : 0 ≤ squaredDeviations l := by
  refine List.sum_nonneg fun y hy => ?_
  obtain ⟨x, -, rfl⟩ := List.mem_map.1 hy
  exact sq_nonneg _
end

end Jevt.Library
