import Mathlib.Data.List.Infix

/-!
# Searching a text

`find` is the position of the first occurrence of a pattern in a text. A search that has found its
pattern is not affected by text that follows (`find_append`), and it succeeds exactly when the
pattern occurs (`find_eq_none_iff`). With a single element as the pattern it cuts the text at the
first such element (`find_singleton_eq_some_iff`).
-/

namespace Jevt.Library

variable {α : Type} [DecidableEq α] {needle s t : List α}

/-- The position of the first occurrence of a pattern, if it occurs. -/
def find (needle : List α) : List α → Option Nat
  | [] => if needle = [] then some 0 else none
  | x :: s => if needle <+: x :: s then some 0 else (find needle s).map (· + 1)

/-- A pattern is not found when it does not occur. -/
theorem find_eq_none_iff : find needle s = none ↔ ¬ needle <:+: s := by
  induction s with
  | nil => simp [find]
  | cons x s ih =>
    rw [find, List.infix_cons_iff]
    by_cases hpre : needle <+: x :: s
    · simp [hpre]
    · simp [hpre, ih]

/-- A pattern that occurs is found. -/
theorem find_isSome_iff : (find needle s).isSome ↔ needle <:+: s := by
  rw [← not_iff_not, ← find_eq_none_iff, Bool.not_eq_true, Option.isSome_eq_false_iff,
    Option.isNone_iff_eq_none]

/-- What is found lies within the text. -/
theorem find_add_length_le {i : Nat} (h : find needle s = some i) :
    i + needle.length ≤ s.length := by
  induction s generalizing i with
  | nil =>
    rw [find] at h
    split at h
    · next hnil =>
      obtain rfl := Option.some.inj h
      simp [hnil]
    · cases h
  | cons x s ih =>
    rw [find] at h
    split at h
    · next hpre =>
      obtain rfl := Option.some.inj h
      simpa using hpre.length_le
    · obtain ⟨j, hj, rfl⟩ := Option.map_eq_some_iff.1 h
      have hle := ih hj
      rw [List.length_cons]
      omega

/-- What is found stands at its position. -/
theorem prefix_drop_of_find {i : Nat} (h : find needle s = some i) : needle <+: s.drop i := by
  induction s generalizing i with
  | nil =>
    rw [find] at h
    split at h <;> simp_all
  | cons x s ih =>
    rw [find] at h
    split at h
    · next hpre =>
      obtain rfl := Option.some.inj h
      exact hpre
    · obtain ⟨j, hj, rfl⟩ := Option.map_eq_some_iff.1 h
      exact ih hj

/-- Text behind the first occurrence of a pattern is not looked at. -/
theorem find_append {i : Nat} (h : find needle s = some i) : find needle (s ++ t) = some i := by
  induction s generalizing i with
  | nil =>
    have hnil : needle = [] := by
      by_contra hne
      simp [find, hne] at h
    subst hnil
    cases t <;> simpa [find] using h
  | cons x s ih =>
    rw [List.cons_append]
    rw [find] at h ⊢
    split at h
    · next hpre =>
      have hfound : needle <+: x :: (s ++ t) := hpre.trans (List.prefix_append (x :: s) t)
      rw [if_pos hfound, ← h]
    · next hpre =>
      obtain ⟨j, hj, rfl⟩ := Option.map_eq_some_iff.1 h
      have hlong : needle.length ≤ (x :: s).length := by
        have hle := find_add_length_le hj
        rw [List.length_cons]
        omega
      have hshort : ¬ needle <+: x :: (s ++ t) := fun hfound =>
        hpre (List.prefix_of_prefix_length_le hfound (List.prefix_append (x :: s) t) hlong)
      rw [if_neg hshort, ih hj, Option.map_some]

/-- The first occurrence of a pattern cuts the text behind a part without the pattern. -/
theorem exists_append_of_find {i : Nat} (hne : needle ≠ []) (h : find needle s = some i) :
    (∃ rest, s = s.take i ++ needle ++ rest) ∧ ¬ needle <:+: s.take i := by
  refine ⟨?_, fun hearlier => ?_⟩
  · obtain ⟨rest, hrest⟩ := prefix_drop_of_find h
    exact ⟨rest, by rw [List.append_assoc, hrest, List.take_append_drop]⟩
  · -- an occurrence before the first one would have been found instead
    obtain ⟨j, hj⟩ := Option.isSome_iff_exists.1 (find_isSome_iff.2 hearlier)
    have hle := find_add_length_le hj
    have hfound := find_append (t := s.drop i) hj
    rw [List.take_append_drop, h] at hfound
    obtain rfl := Option.some.inj hfound
    have hpos := List.length_pos_iff.2 hne
    rw [List.length_take] at hle
    omega

/-- A single element is found where the text can be cut before the first one. -/
theorem find_singleton_eq_some_iff {c : α} {i : Nat} :
    find [c] s = some i ↔ ∃ a b, s = a ++ c :: b ∧ c ∉ a ∧ a.length = i := by
  induction s generalizing i with
  | nil => simp [find]
  | cons x s ih =>
    simp only [find, List.cons_prefix_cons, List.nil_prefix, and_true]
    by_cases hx : c = x
    · subst hx
      simp only [if_true, Option.some.injEq]
      constructor
      · rintro rfl
        exact ⟨[], s, rfl, List.not_mem_nil, rfl⟩
      · rintro ⟨a, b, hs, ha, rfl⟩
        cases a with
        | nil => rfl
        | cons y a =>
          obtain ⟨rfl, -⟩ := List.cons.inj hs
          exact absurd List.mem_cons_self ha
    · simp only [hx, if_false, Option.map_eq_some_iff, ih]
      constructor
      · rintro ⟨_, ⟨a, b, rfl, ha, rfl⟩, rfl⟩
        exact ⟨x :: a, b, rfl, by simp [hx, ha], rfl⟩
      · rintro ⟨a, b, hs, ha, rfl⟩
        cases a with
        | nil => exact absurd (List.cons.inj hs).1.symm hx
        | cons y a =>
          obtain ⟨rfl, rfl⟩ := List.cons.inj hs
          exact ⟨a.length, ⟨a, b, rfl, List.not_mem_of_not_mem_cons ha, rfl⟩, rfl⟩

end Jevt.Library
