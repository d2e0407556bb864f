import Mathlib.Algebra.BigOperators.Group.List.Basic
import Mathlib.Algebra.Order.Ring.Rat
import Mathlib.Data.List.Basic
import Jevt.Library.Extremal

/-!
# Floating-point numbers

A value of `float`, `double` or `long double` is not a number, an infinity, or a rational number
(`Floating`). An operation is the exact one followed by the rounding of its format, and a format is
given by that rounding alone, as a function on the rationals (`Arithmetic`). What the modelled
functions decide by comparing is proved for every rounding. The two zeros are not told apart.
-/

namespace Jevt

open Library

/-- A floating-point value. -/
inductive Floating where
  | nan
  | infinite (negative : Bool)
  | finite (value : ℚ)
  deriving DecidableEq

/-- The formats, each by its rounding of an exact result, and `std::log` in two of them. -/
structure Arithmetic where
  float : ℚ → Floating
  double : ℚ → Floating
  longDouble : ℚ → Floating
  logFloat : Floating → Floating
  logDouble : Floating → Floating

/-- Arithmetic that does not round, for inputs whose results are exact in every format. -/
def Arithmetic.exact : Arithmetic where
  float := .finite
  double := .finite
  longDouble := .finite
  logFloat := fun _ => .nan
  logDouble := fun _ => .nan

namespace Floating

/-- `0.0`. -/
def zero : Floating := .finite 0

/-- `std::isfinite`. -/
def isFinite : Floating → Bool
  | finite _ => true
  | _ => false

/-- `a < b`. Every comparison with what is not a number is false. -/
def lt : Floating → Floating → Bool
  | finite a, finite b => decide (a < b)
  | infinite true, finite _ => true
  | infinite true, infinite false => true
  | finite _, infinite false => true
  | _, _ => false

/-- `a == b`. -/
def eq : Floating → Floating → Bool
  | nan, _ => false
  | a, b => decide (a = b)

/-- `a <= b`. -/
def le (a b : Floating) : Bool :=
  a.lt b || a.eq b

/-- `std::max(a, b)`. -/
def max (a b : Floating) : Floating :=
  if a.lt b then b else a

/-- A conversion to another format. -/
def convert (round : ℚ → Floating) : Floating → Floating
  | finite a => round a
  | a => a

/-- `a + b`. -/
def add (round : ℚ → Floating) : Floating → Floating → Floating
  | finite a, finite b => round (a + b)
  | finite _, infinite s => infinite s
  | infinite s, finite _ => infinite s
  | infinite s, infinite t => if s = t then infinite s else nan
  | _, _ => nan

/-- `-a`. -/
def neg : Floating → Floating
  | nan => nan
  | infinite s => infinite !s
  | finite a => finite (-a)

/-- `a - b`. -/
def sub (round : ℚ → Floating) (a b : Floating) : Floating :=
  add round a b.neg

/-- Whether the sign of an operand is negative. -/
def isNegative : Floating → Bool
  | finite a => decide (a < 0)
  | infinite s => s
  | nan => false

/-- `a * b`. -/
def mul (round : ℚ → Floating) : Floating → Floating → Floating
  | finite a, finite b => round (a * b)
  | nan, _ => nan
  | _, nan => nan
  | a, b => if a = zero ∨ b = zero then nan else infinite (a.isNegative != b.isNegative)

/-- `a / b`. -/
def div (round : ℚ → Floating) : Floating → Floating → Floating
  | nan, _ => nan
  | _, nan => nan
  | infinite _, infinite _ => nan
  | finite _, infinite _ => zero
  | infinite s, b => infinite (s != b.isNegative)
  | finite a, finite b =>
    if b ≠ 0 then round (a / b) else if a = 0 then nan else infinite (decide (a < 0))

/-- `std::clamp(v, low, high)`. -/
def clamp (v low high : Floating) : Floating :=
  if v.lt low then low else if high.lt v then high else v

/-- The loop of `std::max_element`, from position `i` on. -/
def maxElementFrom (best : Nat) (bestValue : Floating) : Nat → List Floating → Nat
  | _, [] => best
  | i, value :: rest =>
    if bestValue.lt value then maxElementFrom i value (i + 1) rest
    else maxElementFrom best bestValue (i + 1) rest

/-- `std::max_element`, as a position: the first of the greatest values. -/
def maxElement : List Floating → Nat
  | [] => 0
  | value :: rest => maxElementFrom 0 value 1 rest

/-- `std::abs`. -/
def abs : Floating → Floating
  | finite a => finite |a|
  | infinite _ => infinite false
  | nan => nan

/-- A conversion to an integer type, which truncates. -/
def toInteger : Floating → Int
  | finite a => if 0 ≤ a then a.floor else a.ceil
  | _ => 0

/-! ## Order -/

variable {a b c : Floating}

attribute [local simp] lt le eq

/-- Numbers compare as they are. -/
theorem finite_le_iff {x y : ℚ} : (finite x).le (finite y) = true ↔ x ≤ y := by
  simpa using le_iff_lt_or_eq.symm

/-- What is compared with a result is no `nan`. -/
theorem ne_nan_of_le (h : a.le b = true) : a ≠ nan ∧ b ≠ nan := by
  constructor
  · rintro rfl
    simp at h
  · rintro rfl
    cases a <;> simp at h

/-- Less than is transitive. -/
theorem lt_trans (hab : a.lt b) (hbc : b.lt c) : a.lt c := by
  rcases a with _ | (_ | _) | x <;> rcases b with _ | (_ | _) | y <;>
    rcases c with _ | (_ | _) | z <;> simp_all
  exact hab.trans hbc

/-- Of two numbers the first is at most the second when the second is not less. -/
theorem le_iff_not_lt (ha : a ≠ nan) (hb : b ≠ nan) : a.le b = true ↔ b.lt a = false := by
  rcases a with _ | (_ | _) | x <;> rcases b with _ | (_ | _) | y <;> simp_all
  exact le_iff_lt_or_eq.symm

/-- The greater of zero and anything is a number. -/
theorem max_zero_ne_nan (a : Floating) : max zero a ≠ nan := by
  unfold max
  split
  · rintro rfl
    simp_all [zero]
  · simp [zero]

/-- A value between two numbers is a number between them. -/
theorem eq_finite_of_le {x y : ℚ} (ha : (finite x).le a = true) (hb : a.le (finite y) = true) :
    ∃ q, a = finite q ∧ x ≤ q ∧ q ≤ y := by
  cases a with
  | nan => exact absurd rfl (ne_nan_of_le ha).2
  | infinite negative => cases negative <;> simp at ha hb
  | finite q =>
    exact ⟨q, rfl, finite_le_iff.1 ha, finite_le_iff.1 hb⟩

/-- Nothing is less than itself. -/
theorem lt_irrefl (a : Floating) : a.lt a = false := by
  rcases a with _ | (_ | _) | x <;> simp

/-- `std::clamp` does not leave the bounds. -/
theorem clamp_mem {v low high : Floating} (hv : v ≠ nan) (hlow : low ≠ nan) (hhigh : high ≠ nan)
    (hbounds : high.lt low = false) :
    low.le (v.clamp low high) = true ∧ (v.clamp low high).le high = true := by
  have hordered := (le_iff_not_lt hlow hhigh).2 hbounds
  have hrefl : ∀ {a : Floating}, a ≠ nan → a.le a = true := fun ha =>
    (le_iff_not_lt ha ha).2 (lt_irrefl _)
  unfold clamp
  split
  · exact ⟨hrefl hlow, hordered⟩
  · next hge =>
    split
    · exact ⟨hordered, hrefl hhigh⟩
    · next hle =>
      exact ⟨(le_iff_not_lt hlow hv).2 (by simpa using hge),
        (le_iff_not_lt hv hhigh).2 (by simpa using hle)⟩

/-- The loop of `std::max_element` finds an element of the list that none exceeds. -/
theorem maxElementFrom_max {l : List Floating} {best i : Nat} {bestValue : Floating}
    {rest : List Floating} (hbest : l[best]? = some bestValue) (hrest : l.drop i = rest)
    (hmax : ∀ j v, j < i → l[j]? = some v → bestValue.lt v = false) :
    ∃ value, l[maxElementFrom best bestValue i rest]? = some value ∧
      ∀ (j : Nat) (v : Floating), l[j]? = some v → value.lt v = false := by
  induction rest generalizing best i bestValue with
  | nil =>
    refine ⟨bestValue, hbest, fun j v hj => hmax j v ?_ hj⟩
    have hlength := List.drop_eq_nil_iff.1 hrest
    exact (List.getElem?_eq_some_iff.1 hj).1.trans_le hlength
  | cons value rest ih =>
    have hvalue : l[i]? = some value := by
      rw [← List.head?_drop, hrest]
      rfl
    have hnext : l.drop (i + 1) = rest := by
      rw [← List.drop_drop, hrest]
      rfl
    rw [maxElementFrom]
    split
    · next hlt =>
      refine ih hvalue hnext fun j v hj hv => ?_
      rcases Nat.lt_succ_iff_lt_or_eq.1 hj with hj | rfl
      · exact Bool.eq_false_iff.2 fun h =>
          absurd (lt_trans hlt h) (Bool.eq_false_iff.1 (hmax j v hj hv))
      · obtain rfl := Option.some.inj (hvalue.symm.trans hv)
        exact lt_irrefl _
    · next hge =>
      refine ih hbest hnext fun j v hj hv => ?_
      rcases Nat.lt_succ_iff_lt_or_eq.1 hj with hj | rfl
      · exact hmax j v hj hv
      · obtain rfl := Option.some.inj (hvalue.symm.trans hv)
        exact Bool.eq_false_iff.2 hge

/-- `std::max_element` finds an element of the list that none exceeds. -/
theorem maxElement_max {l : List Floating} (h : l ≠ []) :
    ∃ value, l[maxElement l]? = some value ∧
      ∀ (j : Nat) (v : Floating), l[j]? = some v → value.lt v = false := by
  cases l with
  | nil => exact absurd rfl h
  | cons value rest =>
    refine maxElementFrom_max rfl rfl fun j v hj hv => ?_
    obtain rfl : j = 0 := by omega
    obtain rfl := Option.some.inj hv
    exact lt_irrefl _

/-! ## Numbers -/

/-- Adding numbers without rounding sums them up. -/
theorem foldl_add_finite (l : List ℚ) (a : ℚ) :
    (l.map finite).foldl (add finite) (finite a) = finite (a + l.sum) := by
  induction l generalizing a with
  | nil => simp
  | cons q l ih => simp [add, ih, add_assoc]

/-- The loop of `std::max_element` finds the first of the greatest numbers. -/
theorem maxElementFrom_finite {l rest : List ℚ} {best i : Nat} {b : ℚ} (hbest : l[best]? = some b)
    (hrest : l.drop i = rest) (hmax : ∀ q ∈ l.take i, q ≤ b) (hfirst : ∀ q ∈ l.take best, q < b) :
    FirstMaxAt l (maxElementFrom best (finite b) i (rest.map finite)) := by
  induction rest generalizing best i b with
  | nil =>
    have hall : l.take i = l := List.take_of_length_le (List.drop_eq_nil_iff.1 hrest)
    rw [hall] at hmax
    refine ⟨⟨b, hbest, hmax⟩, fun j hj hmaximal => ?_⟩
    obtain ⟨c, hc, hle⟩ := hmaximal
    have hbefore : (l.take best)[j]? = some c := by
      rw [List.getElem?_take, if_pos (show j < best from hj), hc]
    have hmem : c ∈ l.take best := List.mem_of_getElem? hbefore
    exact absurd (hle b (List.mem_of_getElem? hbest)) (not_le.2 (hfirst c hmem))
  | cons q rest ih =>
    have hq : l[i]? = some q := by rw [← List.head?_drop, hrest, List.head?_cons]
    have hnext : l.drop (i + 1) = rest := by rw [← List.tail_drop, hrest, List.tail_cons]
    have htake : l.take (i + 1) = l.take i ++ [q] := by
      rw [List.take_add_one, hq]
      rfl
    rw [List.map_cons, maxElementFrom]
    simp only [lt, decide_eq_true_eq]
    by_cases hlt : b < q
    · rw [if_pos hlt]
      refine ih hq hnext ?_ fun x hx => (hmax x hx).trans_lt hlt
      intro x hx
      rw [htake, List.mem_append, List.mem_singleton] at hx
      rcases hx with hx | rfl
      · exact (hmax x hx).trans hlt.le
      · exact le_rfl
    · rw [if_neg hlt]
      refine ih hbest hnext ?_ hfirst
      intro x hx
      rw [htake, List.mem_append, List.mem_singleton] at hx
      rcases hx with hx | rfl
      · exact hmax x hx
      · exact not_lt.1 hlt

/-- **`std::max_element` finds the first of the greatest numbers.** -/
theorem maxElement_finite {l : List ℚ} (h : l ≠ []) : FirstMaxAt l (maxElement (l.map finite)) := by
  cases l with
  | nil => exact absurd rfl h
  | cons q l => exact maxElementFrom_finite rfl rfl (by simp) (by simp)

end Floating

/-- What the rounding of `double` keeps: the order, and the integers up to `2 ^ 53`. -/
structure Arithmetic.Binary64 (arith : Arithmetic) : Prop where
  integer : ∀ n : ℤ, |n| ≤ 2 ^ 53 → arith.double n = .finite n
  mono : ∀ q r : ℚ, q ≤ r → (arith.double q).le (arith.double r) = true

/-- Arithmetic that does not round, with any logarithm. -/
structure Arithmetic.Exact (arith : Arithmetic) : Prop where
  float : arith.float = .finite
  double : arith.double = .finite

/-- Arithmetic that does not round keeps everything. -/
theorem Arithmetic.exact_binary64 : Arithmetic.exact.Binary64 := by
  refine ⟨fun _ _ => rfl, fun q r h => ?_⟩
  exact Floating.finite_le_iff.2 h

/-- Truncating a rounded number does not leave the integers it is between. -/
theorem Arithmetic.Binary64.toInteger_mem {arith : Arithmetic} (h : arith.Binary64) {q : ℚ} {n : ℤ}
    (hq : 0 ≤ q) (hn : q ≤ n) (hsmall : |n| ≤ 2 ^ 53) :
    0 ≤ (arith.double q).toInteger ∧ (arith.double q).toInteger ≤ n := by
  have hzero := h.mono 0 q hq
  have hupper := h.mono q n hn
  rw [h.integer n hsmall] at hupper
  have hround : arith.double 0 = .finite 0 := h.integer 0 (by simp)
  rw [hround] at hzero
  obtain ⟨r, hr, hr0, hrn⟩ := Floating.eq_finite_of_le hzero hupper
  rw [hr, Floating.toInteger, if_pos hr0]
  refine ⟨Rat.le_floor_iff.2 hr0, ?_⟩
  have hfloor := (Rat.floor_le r).trans hrn
  exact_mod_cast hfloor

end Jevt
