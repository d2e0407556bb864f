import Mathlib.Algebra.Order.Ring.Rat
import Mathlib.Data.List.Sort
import Mathlib.Tactic.Linarith

/-!
# Nearest-rank quantiles

The sample whose rank is the product of the quantile and the number of samples, rounded up
(`nearestRank`). A property that passes from a sample to all smaller ones holds of the quantile
exactly when at least as many samples as its rank have it (`rank_le_countP_iff`): a quantile can be
bounded by counting. Smaller quantiles are smaller samples (`nearestRank_mono`).
-/

namespace Jevt.Library

variable {α : Type*}

/-- The rank of a quantile among a number of samples. -/
def rank (q : ℚ) (count : ℕ) : ℕ :=
  (q * count).ceil.toNat

/-- The sample with the rank of a quantile. -/
def nearestRank (r : α → α → Prop) [DecidableRel r] (q : ℚ) (samples : List α) : Option α :=
  (samples.insertionSort r)[rank q samples.length - 1]?

/-- A quantile of samples has one of their ranks. -/
theorem rank_bounds {q : ℚ} (hq : 0 < q) (hone : q ≤ 1) {count : ℕ} (hcount : 0 < count) :
    1 ≤ rank q count ∧ rank q count ≤ count := by
  have hpos : (0 : ℚ) < count := by exact_mod_cast hcount
  have hlow : 0 < (q * count).ceil := by
    by_contra hle
    have hle' := Rat.ceil_le_iff.1 (not_lt.1 hle)
    have hmul : 0 < q * count := mul_pos hq hpos
    rw [Int.cast_zero] at hle'
    linarith
  have hhigh : (q * count).ceil ≤ count := by
    refine Rat.ceil_le_iff.2 ?_
    rw [Int.cast_natCast]
    nlinarith
  unfold rank
  omega

/-- Larger quantiles have larger ranks. -/
theorem rank_mono {q q' : ℚ} (h : q ≤ q') (count : ℕ) : rank q count ≤ rank q' count := by
  have hceil : (q * count).ceil ≤ (q' * count).ceil := by
    refine Rat.ceil_le_iff.2 (le_trans ?_ Rat.le_ceil)
    exact mul_le_mul_of_nonneg_right h (Nat.cast_nonneg count)
  unfold rank
  omega

section
variable {r : α → α → Prop} {l : List α} {p : α → Bool}

/-- In a sorted list a property of all smaller elements holds of an element exactly when more
elements have it than stand before that element. -/
theorem lt_countP_iff (hsorted : l.Pairwise r) (hdown : ∀ a b, r a b → p b = true → p a = true)
    {k : ℕ} {a : α} (ha : l[k]? = some a) : k < l.countP p ↔ p a = true := by
  induction l generalizing k with
  | nil => cases ha
  | cons x l ih =>
    obtain ⟨hfirst, hrest⟩ := List.pairwise_cons.1 hsorted
    cases k with
    | zero =>
      obtain rfl := Option.some.inj ha
      refine ⟨fun hpos => ?_, fun hx => ?_⟩
      · obtain ⟨b, hb, hpb⟩ := List.countP_pos_iff.1 hpos
        rcases List.mem_cons.1 hb with rfl | hb
        · exact hpb
        · exact hdown _ b (hfirst b hb) hpb
      · exact List.countP_pos_iff.2 ⟨_, List.mem_cons_self, hx⟩
    | succ k =>
      have hmem : a ∈ l := List.mem_of_getElem? ha
      rw [List.countP_cons]
      by_cases hx : p x = true
      · rw [if_pos hx, Nat.add_lt_add_iff_right]
        exact ih hrest ha
      · -- nothing behind the first element has the property if that has not
        have hnone : l.countP p = 0 := by
          refine List.countP_eq_zero.2 fun b hb hpb => hx ?_
          exact hdown x b (hfirst b hb) hpb
        have hna : ¬ p a = true := fun hpa => hx (hdown x a (hfirst a hmem) hpa)
        simp [hx, hnone, hna]

end

section
variable {r : α → α → Prop} [DecidableRel r] {q : ℚ} {samples : List α} {sample : α}

/-- There is a sample of every quantile. -/
theorem exists_nearestRank (hq : 0 < q) (hone : q ≤ 1) (hne : samples ≠ []) :
    ∃ sample, nearestRank r q samples = some sample := by
  obtain ⟨hlow, hhigh⟩ := rank_bounds hq hone (List.length_pos_iff.2 hne)
  have hlt : rank q samples.length - 1 < (samples.insertionSort r).length := by
    rw [List.length_insertionSort]
    omega
  exact ⟨_, List.getElem?_eq_getElem hlt⟩

/-- A quantile is one of the samples. -/
theorem mem_of_nearestRank (h : nearestRank r q samples = some sample) : sample ∈ samples :=
  (List.mem_insertionSort r).1 (List.mem_of_getElem? h)

variable [Std.Total r] [IsTrans α r]

/-- **A quantile is bounded by counting.** -/
theorem rank_le_countP_iff {p : α → Bool} (hdown : ∀ a b, r a b → p b = true → p a = true)
    (hrank : 1 ≤ rank q samples.length) (h : nearestRank r q samples = some sample) :
    rank q samples.length ≤ samples.countP p ↔ p sample = true := by
  rw [← lt_countP_iff (List.pairwise_insertionSort r samples) hdown h,
    (List.perm_insertionSort r samples).countP_eq]
  omega

/-- **Smaller quantiles are smaller samples.** -/
theorem nearestRank_mono {q' : ℚ} {sample' : α} (hle : q ≤ q')
    (h : nearestRank r q samples = some sample) (h' : nearestRank r q' samples = some sample') :
    r sample sample' := by
  have hsorted := List.pairwise_insertionSort r samples
  have hrank := rank_mono hle samples.length
  obtain ⟨hi, rfl⟩ := List.getElem?_eq_some_iff.1 h
  obtain ⟨hj, rfl⟩ := List.getElem?_eq_some_iff.1 h'
  rcases (Nat.sub_le_sub_right hrank 1).lt_or_eq with hlt | heq
  · exact List.pairwise_iff_getElem.1 hsorted _ _ hi hj hlt
  · simp only [heq]
    exact (Std.Total.total _ _).elim id id

end

end Jevt.Library
