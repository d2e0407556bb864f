import Jevt.Core.Floating
import Jevt.Library.Statistics
import Jevt.Text

/-!
# Running moments

`moments` of `include/jevt/experience.hpp`: the number, the mean and the squared deviations of the
values that were observed, each updated from the ones before (`Moments.observe`). `std::size_t` is a
natural number, and `observe` refuses a value when the counter is at its greatest one.

In arithmetic that does not round, the three fields are the statistics of the accepted values
(`Moments.Describes`), in whatever order the values came. `moments_exact` says so for every run.
-/

namespace Jevt.Experience

open Library

/-- `moments`. -/
structure Moments where
  samples : Nat := 0
  mean : Floating := .zero
  m2 : Floating := .zero
  deriving DecidableEq

namespace Moments

variable {arith : Arithmetic} {m : Moments} {values : List Floating} {xs : List ℚ}

/-- `observe`. -/
def observe (arith : Arithmetic) (value : Floating) (m : Moments) : Bool × Moments :=
  if !value.isFinite || m.samples == sizeModulus - 1 then (false, m)
  else
    let nextSamples := m.samples + 1
    let delta := Floating.sub arith.double value m.mean
    let nextMean := Floating.add arith.double m.mean
      (Floating.div arith.double delta (arith.double nextSamples))
    let nextM2 := Floating.add arith.double m.m2
      (Floating.mul arith.double delta (Floating.sub arith.double value nextMean))
    if !nextMean.isFinite || !nextM2.isFinite then (false, m)
    else (true, { samples := nextSamples, mean := nextMean, m2 := nextM2 })

/-- `variance`. -/
def variance (arith : Arithmetic) (m : Moments) : Floating :=
  if 1 < m.samples then Floating.div arith.double m.m2 (arith.double (m.samples - 1 : ℕ)) else .zero

/-- A call of `observe` on moments with the values that were accepted before. -/
def step (arith : Arithmetic) (state : Moments × List Floating) (value : Floating) :
    Moments × List Floating :=
  match state.1.observe arith value with
  | (true, m) => (m, state.2 ++ [value])
  | (false, m) => (m, state.2)

/-- Calls of `observe` on new moments, with the values they accept. -/
def run (arith : Arithmetic) (values : List Floating) : Moments × List Floating :=
  values.foldl (step arith) ({}, [])

/-- A refused observation changes nothing. -/
theorem observe_refused {value : Floating} (h : (m.observe arith value).1 = false) :
    (m.observe arith value).2 = m := by
  unfold observe at h ⊢
  split
  · rfl
  · next hadmitted =>
    rw [if_neg hadmitted] at h
    dsimp only at h ⊢
    split
    · rfl
    · next hfinite =>
      rw [if_neg hfinite] at h
      cases h

/-! ## Exact arithmetic -/

/-- Moments are the statistics of a sample. -/
structure Describes (m : Moments) (xs : List ℚ) : Prop where
  samples : m.samples = xs.length
  mean : m.mean = .finite (sampleMean xs)
  m2 : m.m2 = .finite (squaredDeviations xs)

/-- New moments are those of the empty sample. -/
theorem describes_nil : Describes {} [] := by
  constructor <;> simp [Floating.zero, sampleMean, squaredDeviations]

/-- Statistics determine the moments. -/
theorem Describes.unique {m' : Moments} (h : Describes m xs) (h' : Describes m' xs) : m = m' := by
  cases m
  cases m'
  have hsamples := h.samples.trans h'.samples.symm
  have hmean := h.mean.trans h'.mean.symm
  have hm2 := h.m2.trans h'.m2.symm
  simp_all

/-- The order of a sample does not matter. -/
theorem Describes.perm {ys : List ℚ} (h : Describes m xs) (hperm : xs.Perm ys) :
    Describes m ys where
  samples := h.samples.trans hperm.length_eq
  mean := by rw [h.mean, sampleMean_perm hperm]
  m2 := by rw [h.m2, squaredDeviations_perm hperm]

/-- The statistics of a sample with one more value. -/
theorem describes_concat (xs : List ℚ) (x : ℚ) :
    Describes ⟨xs.length + 1, .finite (sampleMean (xs ++ [x])),
      .finite (squaredDeviations (xs ++ [x]))⟩ (xs ++ [x]) := by
  constructor <;> simp

/-- Moments accept every number, until the counter is at its greatest value. -/
theorem Describes.observe (hexact : arith.Exact) (h : Describes m xs) (x : ℚ) :
    m.observe arith (.finite x) =
      if xs.length = sizeModulus - 1 then (false, m)
      else (true, ⟨xs.length + 1, .finite (sampleMean (xs ++ [x])),
        .finite (squaredDeviations (xs ++ [x]))⟩) := by
  have hsize : ((xs.length + 1 : ℕ) : ℚ) ≠ 0 := Nat.cast_ne_zero.2 (by omega)
  unfold Moments.observe
  rw [h.samples, h.mean, h.m2, hexact.double, sampleMean_concat, squaredDeviations_concat,
    sampleMean_concat]
  simp only [Floating.sub, Floating.neg, Floating.add, Floating.div, Floating.mul,
    Floating.isFinite, if_pos hsize, ← sub_eq_add_neg]
  simp

/-- The variance of moments is the one of the sample. -/
theorem Describes.variance (hexact : arith.Exact) (h : Describes m xs) (hsize : 1 < xs.length) :
    m.variance arith = .finite (squaredDeviations xs / (xs.length - 1)) := by
  have hpositive : ((xs.length - 1 : ℕ) : ℚ) ≠ 0 := Nat.cast_ne_zero.2 (by omega)
  rw [Moments.variance, h.samples, h.m2, hexact.double, if_pos hsize, Floating.div,
    if_pos hpositive, Nat.cast_pred (by omega)]

/-- A call keeps the moments those of the accepted values. -/
theorem Describes.step (hexact : arith.Exact) (h : Describes m xs) (value : Floating) :
    ∃ ys : List ℚ, (step arith (m, xs.map .finite) value).2 = ys.map .finite ∧
      Describes (step arith (m, xs.map .finite) value).1 ys := by
  cases value with
  | finite x =>
    simp only [Moments.step, h.observe hexact x]
    split
    · next heq =>
      split at heq
      · cases heq
      · cases heq
        exact ⟨xs ++ [x], by simp, describes_concat xs x⟩
    · next heq =>
      split at heq
      · cases heq
        exact ⟨xs, rfl, h⟩
      · cases heq
  | nan | infinite => exact ⟨xs, by simp [Moments.step, Moments.observe, Floating.isFinite],
      by simpa [Moments.step, Moments.observe, Floating.isFinite] using h⟩

/-- The moments after calls are those of the accepted values. -/
theorem describes_run (hexact : arith.Exact) (values : List Floating) :
    ∃ xs : List ℚ, (run arith values).2 = xs.map .finite ∧ Describes (run arith values).1 xs := by
  induction values using List.reverseRecOn with
  | nil => exact ⟨[], rfl, describes_nil⟩
  | append_singleton values value ih =>
    obtain ⟨xs, hlog, hdescribes⟩ := ih
    rw [run, List.foldl_append, List.foldl_cons, List.foldl_nil]
    have hstate : values.foldl (Moments.step arith) ({}, []) =
        ((run arith values).1, xs.map .finite) := Prod.ext rfl hlog
    rw [hstate]
    exact hdescribes.step hexact value

/-- Numbers that the counter can count are all accepted. -/
theorem run_accepted (hexact : arith.Exact) (xs : List ℚ) (hsize : xs.length < sizeModulus) :
    (run arith (xs.map .finite)).2 = xs.map .finite := by
  induction xs using List.reverseRecOn with
  | nil => rfl
  | append_singleton xs x ih =>
    rw [List.length_append, List.length_singleton] at hsize
    have hlog := ih (by omega)
    obtain ⟨ys, hys, hdescribes⟩ := describes_run hexact (xs.map .finite)
    obtain rfl : ys = xs := List.map_injective_iff.2 (fun _ _ => Floating.finite.inj)
      (hys.symm.trans hlog)
    rw [run, List.map_append, List.foldl_append, List.map_singleton, List.foldl_cons,
      List.foldl_nil]
    have hstate : (ys.map Floating.finite).foldl (Moments.step arith) ({}, []) =
        ((run arith (ys.map .finite)).1, ys.map .finite) := Prod.ext rfl hlog
    rw [hstate, Moments.step, hdescribes.observe hexact x, if_neg (by omega)]

end Moments

/-! ## Runs -/

/-- **Moments are the exact statistics of the accepted values.** In arithmetic that does not round,
the fields after any calls of `observe` are the number of the accepted values, their mean and their
squared deviations, which are not negative, and the variance follows from them. The order of the
accepted values does not matter, and all numbers are accepted while the counter can count them. A
refused observation leaves the fields as they were, however the arithmetic rounds. -/
theorem moments_exact (arith : Arithmetic) (hexact : arith.Exact) :
    (∀ values : List Floating, ∃ xs : List ℚ,
      (Moments.run arith values).2 = xs.map .finite ∧
      (Moments.run arith values).1.samples = xs.length ∧
      (Moments.run arith values).1.mean = .finite (xs.sum / xs.length) ∧
      (Moments.run arith values).1.m2 =
        .finite (xs.map fun x => (x - xs.sum / xs.length) ^ 2).sum ∧
      0 ≤ (xs.map fun x => (x - xs.sum / xs.length) ^ 2).sum ∧
      (1 < xs.length → (Moments.run arith values).1.variance arith =
        .finite ((xs.map fun x => (x - xs.sum / xs.length) ^ 2).sum / (xs.length - 1)))) ∧
    (∀ values values' : List Floating,
      (Moments.run arith values).2.Perm (Moments.run arith values').2 →
      (Moments.run arith values).1 = (Moments.run arith values').1) ∧
    (∀ xs : List ℚ, xs.length < sizeModulus →
      (Moments.run arith (xs.map .finite)).2 = xs.map .finite) ∧
    ∀ (rounding : Arithmetic) (m : Moments) (value : Floating),
      (m.observe rounding value).1 = false → (m.observe rounding value).2 = m := by
  refine ⟨fun values => ?_, fun values values' hperm => ?_, Moments.run_accepted hexact,
    fun rounding m value => Moments.observe_refused⟩
  · obtain ⟨xs, hlog, h⟩ := Moments.describes_run hexact values
    exact ⟨xs, hlog, h.samples, h.mean, h.m2, squaredDeviations_nonneg xs, h.variance hexact⟩
  · obtain ⟨xs, hlog, h⟩ := Moments.describes_run hexact values
    obtain ⟨ys, hlog', h'⟩ := Moments.describes_run hexact values'
    rw [hlog, hlog'] at hperm
    have hfinite : Function.Injective Floating.finite := fun _ _ => Floating.finite.inj
    exact (h.perm ((List.map_perm_map_iff hfinite).1 hperm)).unique h'

/-- Three values, the second of them refused. -/
theorem moments_exact_three :
    (Moments.run .exact [.finite 1, .nan, .finite 4]).1 = ⟨2, .finite (5 / 2), .finite (9 / 2)⟩ ∧
    ∃ xs : List ℚ, (Moments.run .exact [.finite 1, .nan, .finite 4]).2 = xs.map .finite ∧
      (Moments.run .exact [.finite 1, .nan, .finite 4]).1.samples = xs.length := by
  refine ⟨by decide +kernel, ?_⟩
  obtain ⟨xs, hlog, hsamples, -⟩ := (moments_exact .exact ⟨rfl, rfl⟩).1
    [.finite 1, .nan, .finite 4]
  exact ⟨xs, hlog, hsamples⟩

end Jevt.Experience
