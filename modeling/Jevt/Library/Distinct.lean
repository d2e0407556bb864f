import Mathlib.Data.List.DropRight
import Mathlib.Data.List.Induction
import Mathlib.Data.List.Nodup
import Mathlib.Algebra.BigOperators.Group.List.Basic
import Mathlib.Algebra.GroupWithZero.Nat

/-!
# The first distinct elements of a history

`l.eraseDups` lists the distinct elements of `l` in the order in which they appear first, and its
first `n` elements are the ones a table with `n` places can hold: an element that comes again
changes nothing, a new one takes the next free place, and a full table stays as it is
(`take_eraseDups_of_mem`, `take_eraseDups_of_room`, `take_eraseDups_of_full`). Counting a history
key by key counts what has one of the keys (`sum_countP_eq`).

A window keeps the newest elements of a history, newest first (`trim_cons_take`) or newest last
(`rtake_append_singleton`). A queue of distinct elements takes a new element in at its end, and one
that is full gives up the element at its front for it (`enqueue`).
-/

namespace Jevt.Library

variable {α : Type*}

section
variable [BEq α] [LawfulBEq α] {l : List α} {a : α} {n : Nat}

/-- An element that comes again is not listed again. -/
theorem eraseDups_concat_of_mem (h : a ∈ l) : (l ++ [a]).eraseDups = l.eraseDups := by
  rw [List.eraseDups_append, List.removeAll, List.filter_cons_of_neg (by simpa using h)]
  simp

/-- A new element is listed last. -/
theorem eraseDups_concat_of_notMem (h : a ∉ l) : (l ++ [a]).eraseDups = l.eraseDups ++ [a] := by
  rw [List.eraseDups_append, List.removeAll, List.filter_cons_of_pos (by simpa using h)]
  simp [List.eraseDups_cons]

/-- The distinct elements are distinct. -/
theorem nodup_eraseDups (l : List α) : l.eraseDups.Nodup := by
  induction l using List.reverseRecOn with
  | nil => simp
  | append_singleton l a ih =>
    by_cases h : a ∈ l
    · rwa [eraseDups_concat_of_mem h]
    · rw [eraseDups_concat_of_notMem h, List.nodup_append]
      refine ⟨ih, by simp, fun b hb c hc hbc => ?_⟩
      obtain rfl := List.mem_singleton.1 hc
      exact h (hbc ▸ List.mem_eraseDups.1 hb)

/-- An element of the history that comes again does not change the table. -/
theorem take_eraseDups_of_mem (h : a ∈ l) :
    (l ++ [a]).eraseDups.take n = l.eraseDups.take n := by
  rw [eraseDups_concat_of_mem h]

/-- A full table does not change. -/
theorem take_eraseDups_of_full (h : n ≤ l.eraseDups.length) :
    (l ++ [a]).eraseDups.take n = l.eraseDups.take n := by
  by_cases hmem : a ∈ l
  · exact take_eraseDups_of_mem hmem
  · rw [eraseDups_concat_of_notMem hmem, List.take_append_of_le_length h]

/-- A new element takes the next free place. -/
theorem take_eraseDups_of_room (h : l.eraseDups.length < n) (hnew : a ∉ l) :
    (l ++ [a]).eraseDups.take n = l.eraseDups.take n ++ [a] := by
  have hall : l.eraseDups.take n = l.eraseDups := List.take_of_length_le (by omega)
  rw [eraseDups_concat_of_notMem hnew, hall, List.take_of_length_le]
  rw [List.length_append, List.length_singleton]
  omega

end

/-- Among distinct keys a key is found once or not at all. -/
theorem sum_indicator_eq {κ : Type*} [DecidableEq κ] {keys : List κ} (hnodup : keys.Nodup) (a : κ) :
    (keys.map fun k => if a = k then 1 else 0).sum = if a ∈ keys then 1 else 0 := by
  induction keys with
  | nil => simp
  | cons k keys ih =>
    obtain ⟨hnew, hrest⟩ := List.nodup_cons.1 hnodup
    rw [List.map_cons, List.sum_cons, ih hrest]
    rcases eq_or_ne a k with rfl | hne
    · simp [hnew]
    · simp [hne]

/-- Distinct keys, counted one by one. -/
theorem sum_countP_eq {κ : Type*} [DecidableEq κ] (key : α → κ) {keys : List κ}
    (hnodup : keys.Nodup) (l : List α) :
    (keys.map fun k => l.countP fun x => key x = k).sum = l.countP fun x => key x ∈ keys := by
  induction l with
  | nil => simp
  | cons x l ih =>
    simp only [List.countP_cons, List.sum_map_add, ih, decide_eq_true_eq]
    rw [sum_indicator_eq hnodup]

/-- Counting one more in one place adds one to the sum. -/
theorem sum_modify_succ {counts : List Nat} {i : Nat} (hi : i < counts.length) :
    (counts.modify i (· + 1)).sum = counts.sum + 1 := by
  induction counts generalizing i with
  | nil => exact absurd hi (Nat.not_lt_zero i)
  | cons count counts ih =>
    cases i with
    | zero => simp [Nat.add_right_comm]
    | succ i => simp [ih (Nat.lt_of_succ_lt_succ hi), Nat.add_assoc]

/-- Putting an element in front of a window and cutting it back is the window of the longer
history. -/
theorem trim_cons_take {capacity : Nat} (hpos : 0 < capacity) (a : α) (l : List α) :
    (if capacity < (a :: l.take capacity).length then (a :: l.take capacity).dropLast
      else a :: l.take capacity) = (a :: l).take capacity := by
  obtain ⟨c, rfl⟩ := Nat.exists_eq_succ_of_ne_zero (Nat.ne_of_gt hpos)
  rw [List.take_succ_cons, List.length_cons, List.length_take]
  split
  · next h =>
    have hlen : c < l.length := by omega
    rw [List.dropLast_eq_take, List.length_cons, List.length_take, Nat.add_sub_cancel,
      Nat.min_eq_left (by omega), List.take_succ_cons, List.take_take, Nat.min_eq_left (by omega)]
  · next h =>
    have hlen : l.length ≤ c := by omega
    rw [List.take_of_length_le (by omega), List.take_of_length_le hlen]

/-- Appending to the tail of a list and cutting back is appending to the list and cutting back. -/
theorem rtake_append_singleton {n : Nat} (hn : 0 < n) (l : List α) (a : α) :
    (l.rtake n ++ [a]).drop ((l.rtake n ++ [a]).length - n) = (l ++ [a]).rtake n := by
  obtain ⟨m, rfl⟩ := Nat.exists_eq_succ_of_ne_zero hn.ne'
  have htail : (l.rtake (m + 1)).rtake m = l.rtake m := by
    simp only [List.rtake, List.drop_drop, List.length_drop]
    congr 1
    omega
  calc (l.rtake (m + 1) ++ [a]).drop ((l.rtake (m + 1) ++ [a]).length - (m + 1))
      = (l.rtake (m + 1) ++ [a]).rtake (m + 1) := rfl
    _ = (l ++ [a]).rtake (m + 1) := by
        rw [List.rtake_concat_succ, List.rtake_concat_succ, htail]

/-- A tail is not longer than it may be. -/
theorem length_rtake_le (n : Nat) (l : List α) : (l.rtake n).length ≤ n := by
  simp only [List.rtake, List.length_drop]
  omega

/-- Appending to the tail of a list and dropping the first element if it has become too long is
appending to the list and cutting back. -/
theorem trim_rtake_concat {n : Nat} (hn : 0 < n) (l : List α) (a : α) :
    (if n < (l.rtake n ++ [a]).length then (l.rtake n ++ [a]).tail else l.rtake n ++ [a]) =
      (l ++ [a]).rtake n := by
  have hle := length_rtake_le n l
  have hlength : (l.rtake n ++ [a]).length = (l.rtake n).length + 1 := by simp
  rw [← rtake_append_singleton hn]
  split
  · have hone : (l.rtake n ++ [a]).length - n = 1 := by omega
    rw [hone, List.drop_one]
  · have hzero : (l.rtake n ++ [a]).length - n = 0 := by omega
    rw [hzero, List.drop_zero]

/-! ## Queues of distinct elements -/

section
variable [DecidableEq α] {capacity : Nat} {a x : α} {l : List α}

/-- Puts a new element at the end of a queue, after the first element has made room for it where the
queue is full. -/
def enqueue (capacity : Nat) (a : α) (l : List α) : List α :=
  if a ∈ l then l else (if capacity ≤ l.length then l.tail else l) ++ [a]

/-- The element at the front leaves a full queue that a new element comes to, and no other does. -/
theorem mem_enqueue_iff (hnodup : l.Nodup) :
    x ∈ enqueue capacity a l ↔
      x = a ∨ (x ∈ l ∧ ¬ (a ∉ l ∧ capacity ≤ l.length ∧ l.head? = some x)) := by
  unfold enqueue
  split
  · next ha =>
    constructor
    · intro hx
      exact .inr ⟨hx, fun h => h.1 ha⟩
    · rintro (rfl | ⟨hx, -⟩)
      · exact ha
      · exact hx
  · next ha =>
    split
    · next hfull =>
      cases l with
      | nil => simp
      | cons first rest =>
        obtain ⟨hfirst, -⟩ := List.nodup_cons.1 hnodup
        rw [List.tail_cons, List.mem_append, List.mem_singleton, List.mem_cons, List.head?_cons,
          Option.some.injEq]
        constructor
        · rintro (hx | rfl)
          · exact .inr ⟨.inr hx, fun h => hfirst (h.2.2 ▸ hx)⟩
          · exact .inl rfl
        · rintro (rfl | ⟨rfl | hx, hkeep⟩)
          · exact .inr rfl
          · exact absurd ⟨ha, hfull, rfl⟩ hkeep
          · exact .inl hx
    · next hroom =>
      simp only [List.mem_append, List.mem_singleton]
      constructor
      · rintro (hx | rfl)
        · exact .inr ⟨hx, fun h => hroom h.2.1⟩
        · exact .inl rfl
      · rintro (rfl | ⟨hx, -⟩)
        · exact .inr rfl
        · exact .inl hx

/-- The elements of a queue stay distinct. -/
theorem nodup_enqueue (hnodup : l.Nodup) : (enqueue capacity a l).Nodup := by
  unfold enqueue
  split
  · exact hnodup
  · next ha =>
    have hsub : (if capacity ≤ l.length then l.tail else l).Sublist l := by
      split
      · exact List.tail_sublist l
      · exact .refl l
    refine List.nodup_append.2 ⟨hsub.nodup hnodup, List.nodup_singleton a, ?_⟩
    intro y hy b hb heq
    obtain rfl := List.mem_singleton.1 hb
    exact ha (heq ▸ hsub.subset hy)

/-- A queue stays within its capacity. -/
theorem length_enqueue_le (hpos : 0 < capacity) (hle : l.length ≤ capacity) :
    (enqueue capacity a l).length ≤ capacity := by
  unfold enqueue
  split
  · exact hle
  · split
    · simp only [List.length_append, List.length_tail, List.length_singleton]
      omega
    · simp only [List.length_append, List.length_singleton]
      omega

/-- A queue that holds the newest elements of a history holds those of the longer one. -/
theorem enqueue_suffix {history : List α} (h : l <:+ history) (ha : a ∉ l) :
    enqueue capacity a l <:+ history ++ [a] := by
  rw [enqueue, if_neg ha]
  have hpart : (if capacity ≤ l.length then l.tail else l) <:+ history := by
    split
    · exact (List.tail_suffix l).trans h
    · exact h
  obtain ⟨older, rfl⟩ := hpart
  exact ⟨older, (List.append_assoc ..).symm⟩

end

end Jevt.Library
