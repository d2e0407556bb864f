import Mathlib.Data.List.Nodup
import Mathlib.Data.List.Perm.Subperm
import Jevt.Decision.Graph
import Jevt.Library.Topological

/-!
# The order of a decision graph

The last loop of the constructor on tables that describe a graph: `preds i` are the dependencies of
the node `i`, and the table of consumers is their converse (`Consumes`). The loop keeps for every
node the number of its dependencies that are not behind the cursor, and the order contains exactly
the nodes for which that number is zero (`Draining`). When the cursor has passed the whole order,
the order is topological and contains every node whose dependencies it contains (`drain_spec`).
-/

namespace Jevt.DecisionGraph

open Library

variable {n : Nat} {preds : Nat → List Nat} {consumers : List (List Nat)}

/-- The tables of a graph with `n` nodes: no node has a dependency twice, and the consumers of a
node are, once each, the nodes that depend on it. -/
structure Consumes (n : Nat) (preds : Nat → List Nat) (consumers : List (List Nat)) : Prop where
  preds_nodup : ∀ i < n, (preds i).Nodup
  preds_lt : ∀ i < n, ∀ p ∈ preds i, p < n
  nodup : ∀ p < n, consumers[p]!.Nodup
  mem : ∀ p < n, ∀ i, i ∈ consumers[p]! ↔ i < n ∧ p ∈ preds i

/-- The dependencies of a node that are not among the nodes of a list. -/
def missing (preds : Nat → List Nat) (done : List Nat) (i : Nat) : List Nat :=
  (preds i).filter fun p => p ∉ done

/-- Nothing is missing when every dependency is among the nodes of the list. -/
theorem missing_eq_nil {done : List Nat} {i : Nat} :
    missing preds done i = [] ↔ ∀ p ∈ preds i, p ∈ done := by
  simp [missing, List.filter_eq_nil_iff]

/-- The variables of the last loop with the cursor at a position: the order repeats no node, every
node counts the dependencies that are not behind the cursor, the nodes of the order are those that
count none, and dependencies come first. -/
structure Draining (n : Nat) (preds : Nat → List Nat) (cursor : Nat) (acc : List Nat × List Nat) :
    Prop where
  size : acc.1.length = n
  nodup : acc.2.Nodup
  lt : ∀ i ∈ acc.2, i < n
  inside : cursor ≤ acc.2.length
  remaining : ∀ i < n, acc.1[i]! = (missing preds (acc.2.take cursor) i).length
  ready : ∀ i < n, (i ∈ acc.2 ↔ missing preds (acc.2.take cursor) i = [])
  topological : Topological preds acc.2

/-- One node is counted out where it was missing. -/
theorem length_missing_append (hnodup : ∀ i < n, (preds i).Nodup) {done : List Nat} {u i : Nat}
    (hi : i < n) (hu : u ∉ done) :
    (missing preds (done ++ [u]) i).length =
      if u ∈ preds i then (missing preds done i).length - 1 else (missing preds done i).length := by
  have hfilter : missing preds (done ++ [u]) i = (missing preds done i).filter (· != u) := by
    unfold missing
    rw [List.filter_filter]
    refine List.filter_congr fun p _ => ?_
    by_cases hpu : p = u <;> simp [hpu]
  have hmissing : (missing preds done i).Nodup := (hnodup i hi).filter _
  rw [hfilter, ← hmissing.erase_eq_filter]
  split
  · next hmem =>
    refine List.length_erase_of_mem (List.mem_filter.2 ⟨hmem, ?_⟩)
    simpa using hu
  · next hmem =>
    rw [List.erase_of_not_mem]
    exact fun h => hmem (List.mem_filter.1 h).1

/-- What releasing the consumers of a node does: each of them counts one dependency less, and those
that count none any more are appended to the order. -/
theorem foldl_release : ∀ (cs remaining order : List Nat), cs.Nodup →
    (∀ i ∈ cs, i < remaining.length) →
    (cs.foldl release (remaining, order)).1.length = remaining.length ∧
    (∀ i, (cs.foldl release (remaining, order)).1[i]! =
      if i ∈ cs then sizeSub remaining[i]! 1 else remaining[i]!) ∧
    (cs.foldl release (remaining, order)).2 =
      order ++ cs.filter fun i => sizeSub remaining[i]! 1 = 0
  | [], remaining, order, _, _ => by simp
  | c :: cs, remaining, order, hnodup, hlt => by
      obtain ⟨hc, hcs⟩ := List.nodup_cons.1 hnodup
      have hset : ∀ i, (remaining.set c (sizeSub remaining[c]! 1))[i]! =
          if i = c then sizeSub remaining[c]! 1 else remaining[i]! := by
        intro i
        by_cases hic : i = c
        · subst hic
          simp [hlt i List.mem_cons_self]
        · simp [List.getElem!_eq_getElem?_getD, List.getElem?_set_ne (Ne.symm hic), hic]
      obtain ⟨hlength, hvalues, horder⟩ := foldl_release cs
        (remaining.set c (sizeSub remaining[c]! 1))
        (if sizeSub remaining[c]! 1 = 0 then order ++ [c] else order) hcs
        (fun i hi => by simpa using hlt i (List.mem_cons_of_mem _ hi))
      have hrelease : release (remaining, order) c = (remaining.set c (sizeSub remaining[c]! 1),
          if sizeSub remaining[c]! 1 = 0 then order ++ [c] else order) := rfl
      rw [List.foldl_cons, hrelease]
      refine ⟨hlength.trans List.length_set, fun i => (hvalues i).trans ?_, horder.trans ?_⟩
      · rw [hset]
        by_cases hic : i = c
        · rw [if_neg (hic ▸ hc), if_pos hic, if_pos (hic ▸ List.mem_cons_self), hic]
        · simp only [List.mem_cons, hic, false_or, if_false]
      · have hfilter : cs.filter (fun i =>
            sizeSub (remaining.set c (sizeSub remaining[c]! 1))[i]! 1 = 0) =
            cs.filter fun i => sizeSub remaining[i]! 1 = 0 :=
          List.filter_congr fun i hi => by rw [hset, if_neg (ne_of_mem_of_not_mem hi hc)]
        rw [hfilter, List.filter_cons]
        by_cases hzero : sizeSub remaining[c]! 1 = 0
        · simp only [hzero, if_true, decide_true, List.append_assoc, List.singleton_append]
        · simp only [hzero, if_false, decide_false, Bool.false_eq_true]

section
variable {cursor : Nat} {remaining order : List Nat}

/-- The node at the cursor is the next one to be behind it. -/
theorem Draining.next (h : Draining n preds cursor (remaining, order))
    (hcursor : cursor < order.length) :
    order[cursor]! < n ∧ order[cursor]! ∉ order.take cursor ∧
      order.take (cursor + 1) = order.take cursor ++ [order[cursor]!] := by
  have hget : order[cursor]? = some order[cursor]! := by simp [hcursor]
  have htake : order.take (cursor + 1) = order.take cursor ++ [order[cursor]!] := by
    rw [List.take_add_one, hget]
    rfl
  have hnodup := (List.take_sublist (cursor + 1) order).nodup h.nodup
  rw [htake] at hnodup
  exact ⟨h.lt _ (List.mem_of_getElem? hget),
    fun hmem => List.disjoint_of_nodup_append hnodup hmem (List.mem_singleton_self _), htake⟩

/-- Behind the turn every node counts what is missing then. -/
theorem Draining.counts (hc : Consumes n preds consumers)
    (h : Draining n preds cursor (remaining, order)) (hcursor : cursor < order.length) {i : Nat}
    (hi : i < n) :
    (if i ∈ consumers[order[cursor]!]! then sizeSub remaining[i]! 1 else remaining[i]!) =
      (missing preds (order.take (cursor + 1)) i).length := by
  obtain ⟨hlt, hundone, htake⟩ := h.next hcursor
  have hremaining : remaining[i]! = (missing preds (order.take cursor) i).length :=
    h.remaining i hi
  rw [htake, length_missing_append hc.preds_nodup hi hundone]
  by_cases hmem : order[cursor]! ∈ preds i
  · -- a consumer counts at least the node at the cursor
    have hcounted : order[cursor]! ∈ missing preds (order.take cursor) i :=
      List.mem_filter.2 ⟨hmem, by simpa using hundone⟩
    rw [if_pos ((hc.mem _ hlt i).2 ⟨hi, hmem⟩), if_pos hmem, hremaining,
      sizeSub_of_le (List.length_pos_of_mem hcounted)]
  · rw [if_neg fun h => hmem ((hc.mem _ hlt i).1 h).2, if_neg hmem, hremaining]

/-- The turn appends the consumers of the node at the cursor that miss nothing any more. -/
theorem Draining.mem_released (hc : Consumes n preds consumers)
    (h : Draining n preds cursor (remaining, order)) (hcursor : cursor < order.length) (i : Nat) :
    i ∈ (consumers[order[cursor]!]!.filter fun i => sizeSub remaining[i]! 1 = 0) ↔
      i < n ∧ order[cursor]! ∈ preds i ∧ missing preds (order.take (cursor + 1)) i = [] := by
  obtain ⟨hlt, -, -⟩ := h.next hcursor
  rw [List.mem_filter, hc.mem _ hlt, decide_eq_true_iff, and_assoc]
  refine and_congr_right fun hi => and_congr_right fun hmem => ?_
  have hcount := h.counts hc hcursor hi
  rw [if_pos ((hc.mem _ hlt i).2 ⟨hi, hmem⟩)] at hcount
  rw [hcount, List.length_eq_zero_iff]

/-- Behind the turn the nodes that miss nothing are the ones that missed nothing before it, and the
ones it appends. -/
theorem Draining.mem_order (hc : Consumes n preds consumers)
    (h : Draining n preds cursor (remaining, order)) (hcursor : cursor < order.length) {i : Nat}
    (hi : i < n) :
    i ∈ order ∨ i ∈ (consumers[order[cursor]!]!.filter fun i => sizeSub remaining[i]! 1 = 0) ↔
      missing preds (order.take (cursor + 1)) i = [] := by
  obtain ⟨-, hundone, htake⟩ := h.next hcursor
  rw [h.ready i hi, h.mem_released hc hcursor]
  constructor
  · rintro (hold | ⟨-, -, hnil⟩)
    · refine missing_eq_nil.2 fun p hp => ?_
      rw [htake]
      exact List.mem_append_left _ (missing_eq_nil.1 hold p hp)
    · exact hnil
  · intro hnil
    by_cases hmem : order[cursor]! ∈ preds i
    · exact .inr ⟨hi, hmem, hnil⟩
    · have hlength := length_missing_append hc.preds_nodup hi hundone
      rw [← htake, hnil, if_neg hmem] at hlength
      exact .inl (List.eq_nil_of_length_eq_zero hlength.symm)

end

/-- A turn of the loop moves the cursor over one node. -/
theorem Draining.step (hc : Consumes n preds consumers) {cursor : Nat} {acc : List Nat × List Nat}
    (h : Draining n preds cursor acc) (hcursor : cursor < acc.2.length) :
    Draining n preds (cursor + 1) (consumers[acc.2[cursor]!]!.foldl release acc) := by
  obtain ⟨remaining, order⟩ := acc
  obtain ⟨hun, hundone, -⟩ := h.next hcursor
  have hnew := h.mem_released hc hcursor
  obtain ⟨hlength, hvalues, horder⟩ := foldl_release consumers[order[cursor]!]! remaining order
    (hc.nodup _ hun) fun i hi => h.size.symm ▸ ((hc.mem _ hun i).1 hi).1
  have htake : (consumers[order[cursor]!]!.foldl release (remaining, order)).2.take (cursor + 1) =
      order.take (cursor + 1) := by
    rw [horder, List.take_append_of_le_length hcursor]
  refine ⟨hlength.trans h.size, ?nodup, ?lt, ?inside, fun i hi => ?remaining,
    fun i hi => ?ready, ?topological⟩
  case nodup =>
    rw [horder]
    refine List.nodup_append.2 ⟨h.nodup, (hc.nodup _ hun).filter _, ?_⟩
    rintro i hi _ hj rfl
    have hold := (h.ready i (h.lt i hi)).1 hi
    obtain ⟨-, hmem, -⟩ := (hnew i).1 hj
    exact hundone (missing_eq_nil.1 hold _ hmem)
  case lt =>
    intro i hi
    rw [horder] at hi
    rcases List.mem_append.1 hi with hi | hi
    · exact h.lt i hi
    · exact ((hnew i).1 hi).1
  case inside =>
    rw [horder, List.length_append]
    exact Nat.le_add_right_of_le hcursor
  case remaining => rw [htake, hvalues, h.counts hc hcursor hi]
  case ready =>
    rw [htake, horder, List.mem_append]
    exact h.mem_order hc hcursor hi
  case topological =>
    rw [horder]
    refine h.topological.append fun i hi p hp => ?_
    obtain ⟨-, -, hnil⟩ := (hnew i).1 hi
    exact List.mem_of_mem_take (missing_eq_nil.1 hnil p hp)

/-- The cursor starts before the nodes that depend on nothing. -/
theorem Draining.start {remaining : List Nat} (hsize : remaining.length = n)
    (hremaining : ∀ i < n, remaining[i]! = (preds i).length) :
    Draining n preds 0 (remaining, (List.range n).filter fun i => remaining[i]! = 0) := by
  have hmissing : ∀ i, missing preds [] i = preds i := fun i => by simp [missing]
  have hmem : ∀ i, i ∈ (List.range n).filter (fun i => remaining[i]! = 0) ↔
      i < n ∧ preds i = [] := by
    intro i
    rw [List.mem_filter, List.mem_range, decide_eq_true_iff]
    refine and_congr_right fun hi => ?_
    rw [hremaining i hi, List.length_eq_zero_iff]
  refine ⟨hsize, List.nodup_range.filter _, fun i hi => ((hmem i).1 hi).1, Nat.zero_le _,
    fun i hi => ?_, fun i hi => ?_, ?_⟩
  · rw [List.take_zero, hmissing]
    exact hremaining i hi
  · rw [List.take_zero, hmissing]
    exact (hmem i).trans (and_iff_right hi)
  · have hstart : Topological preds
        ([] ++ (List.range n).filter fun i => remaining[i]! = 0) := by
      refine Topological.nil.append fun i hi p hp => ?_
      rwa [((hmem i).1 hi).2] at hp
    exact hstart

/-- The order never has more nodes than the graph. -/
theorem Draining.length_le {cursor : Nat} {acc : List Nat × List Nat}
    (h : Draining n preds cursor acc) : acc.2.length ≤ n := by
  have hsub : acc.2.Subperm (List.range n) :=
    h.nodup.subperm fun i hi => List.mem_range.2 (h.lt i hi)
  simpa using hsub.length_le

/-- **Kahn's algorithm.** The order repeats no node, lists dependencies first and contains every
node whose dependencies it contains. -/
theorem drain_spec (hc : Consumes n preds consumers) :
    ∀ {turns cursor : Nat} {acc : List Nat × List Nat}, Draining n preds cursor acc →
      n ≤ cursor + turns →
      (drain consumers turns cursor acc).Nodup ∧ (∀ i ∈ drain consumers turns cursor acc, i < n) ∧
      Topological preds (drain consumers turns cursor acc) ∧
      ∀ i < n, (∀ p ∈ preds i, p ∈ drain consumers turns cursor acc) →
        i ∈ drain consumers turns cursor acc := by
  have hdone : ∀ {cursor : Nat} {acc : List Nat × List Nat}, Draining n preds cursor acc →
      acc.2.length ≤ cursor → acc.2.Nodup ∧ (∀ i ∈ acc.2, i < n) ∧ Topological preds acc.2 ∧
      ∀ i < n, (∀ p ∈ preds i, p ∈ acc.2) → i ∈ acc.2 := by
    intro cursor acc h hle
    refine ⟨h.nodup, h.lt, h.topological, fun i hi hp => (h.ready i hi).2 (missing_eq_nil.2 ?_)⟩
    rwa [List.take_of_length_le hle]
  intro turns
  induction turns with
  | zero =>
    intro cursor acc h hle
    exact hdone h (h.length_le.trans hle)
  | succ turns ih =>
    intro cursor acc h hle
    unfold drain
    split
    · next hcursor => exact ih (h.step hc hcursor) (by omega)
    · next hcursor => exact hdone h (Nat.not_lt.1 hcursor)

end Jevt.DecisionGraph
