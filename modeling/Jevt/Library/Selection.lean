import Mathlib.Data.List.Perm.Basic

/-!
# Queues that are served in batches

Elements wait in a queue, each with a key. A batch is formed from the front (`select`): it takes the
first elements with the key of the oldest one, at most so many, out of the queue, and the others
close up. `Served` is a whole history of arrivals and batches.

Whatever arrives, every batch brings each waiting element forward (`Served.within`), so an element
waits for no more batches than there were elements before it. Within a key the batches take the
elements in their order (`Served.filter_eq`).
-/

namespace Jevt.Library

variable {α κ : Type*}

section
variable (p : α → Prop) [DecidablePred p]

/-- The first elements with the property `p`, at most so many, and the elements that are left. -/
def select : Nat → List α → List α × List α
  | 0, queue => ([], queue)
  | _ + 1, [] => ([], [])
  | room + 1, a :: rest =>
    if p a then (a :: (select room rest).1, (select room rest).2)
    else ((select (room + 1) rest).1, a :: (select (room + 1) rest).2)

/-- Nothing is selected when there is no room. -/
theorem select_zero (queue : List α) : select p 0 queue = ([], queue) := by
  cases queue <;> rfl

variable {p}

/-- An element with the property is selected when there is room. -/
theorem select_cons_of_pos {a : α} (ha : p a) (room : Nat) (rest : List α) :
    select p (room + 1) (a :: rest) = (a :: (select p room rest).1, (select p room rest).2) := by
  rw [select, if_pos ha]

/-- An element without the property is left. -/
theorem select_cons_of_neg {a : α} (ha : ¬p a) (room : Nat) (rest : List α) :
    select p (room + 1) (a :: rest) =
      ((select p (room + 1) rest).1, a :: (select p (room + 1) rest).2) := by
  rw [select, if_neg ha]

variable (p)

/-- What is selected. -/
theorem select_fst (room : Nat) (queue : List α) :
    (select p room queue).1 = (queue.filter fun a => p a).take room := by
  induction queue generalizing room with
  | nil => cases room <;> simp [select]
  | cons a rest ih =>
    cases room with
    | zero => simp [select_zero]
    | succ room =>
      by_cases ha : p a
      · simp [select_cons_of_pos ha, ha, ih]
      · simp [select_cons_of_neg ha, ha, ih]

/-- The elements that are left stay in their order. -/
theorem select_snd_sublist (room : Nat) (queue : List α) :
    (select p room queue).2.Sublist queue := by
  induction queue generalizing room with
  | nil => cases room <;> simp [select]
  | cons a rest ih =>
    cases room with
    | zero => simp [select_zero]
    | succ room =>
      by_cases ha : p a
      · rw [select_cons_of_pos ha]
        exact (ih room).cons a
      · rw [select_cons_of_neg ha]
        exact (ih (room + 1)).cons_cons a

/-- Nothing is lost and nothing is duplicated. -/
theorem select_perm (room : Nat) (queue : List α) :
    ((select p room queue).1 ++ (select p room queue).2).Perm queue := by
  induction queue generalizing room with
  | nil => cases room <;> simp [select]
  | cons a rest ih =>
    cases room with
    | zero => simp [select_zero]
    | succ room =>
      by_cases ha : p a
      · rw [select_cons_of_pos ha]
        exact (ih room).cons a
      · rw [select_cons_of_neg ha]
        exact List.perm_middle.trans ((ih (room + 1)).cons a)

variable {p}

/-- Among elements that are all eligible, or all not, selecting keeps the order. -/
theorem filter_select {q : α → Prop} [DecidablePred q]
    (hq : (∀ a, q a → p a) ∨ ∀ a, q a → ¬p a) (room : Nat) (queue : List α) :
    ((select p room queue).1 ++ (select p room queue).2).filter (fun a => q a) =
      queue.filter fun a => q a := by
  induction queue generalizing room with
  | nil => cases room <;> simp [select]
  | cons a rest ih =>
    cases room with
    | zero => simp [select_zero]
    | succ room =>
      by_cases ha : p a
      · rw [select_cons_of_pos ha, List.cons_append, List.filter_cons, List.filter_cons, ih]
      · have hrest := ih (room + 1)
        rw [List.filter_append] at hrest
        rw [select_cons_of_neg ha, List.filter_append]
        by_cases hqa : q a
        · -- Then no eligible element has `q`, and none stands before `a`.
          have hnone : ∀ b, q b → ¬p b := hq.resolve_left fun hall => ha (hall a hqa)
          have hempty : (select p (room + 1) rest).1.filter (fun b => q b) = [] := by
            rw [List.filter_eq_nil_iff, select_fst]
            intro b hb hqb
            have hpb := (List.mem_filter.1 (List.mem_of_mem_take hb)).2
            exact hnone b (of_decide_eq_true hqb) (of_decide_eq_true hpb)
          rw [hempty, List.nil_append] at hrest
          simp [hempty, hqa, hrest]
        · simp [hqa, ← hrest]

/-- An element is selected, or it does not fall behind. -/
theorem mem_select_or (room : Nat) {queue : List α} {i : Nat} {a : α} (h : queue[i]? = some a) :
    a ∈ (select p room queue).1 ∨ ∃ j ≤ i, (select p room queue).2[j]? = some a := by
  induction queue generalizing room i with
  | nil => simp at h
  | cons b rest ih =>
    cases room with
    | zero =>
      rw [select_zero]
      exact .inr ⟨i, Nat.le_refl _, h⟩
    | succ room =>
      by_cases hb : p b
      · rw [select_cons_of_pos hb]
        cases i with
        | zero =>
          obtain rfl : b = a := by simpa using h
          exact .inl List.mem_cons_self
        | succ i =>
          rcases ih room (by simpa using h) with hmem | ⟨j, hj, hleft⟩
          · exact .inl (List.mem_cons_of_mem b hmem)
          · exact .inr ⟨j, by omega, hleft⟩
      · rw [select_cons_of_neg hb]
        cases i with
        | zero => exact .inr ⟨0, Nat.le_refl _, by simpa using h⟩
        | succ i =>
          rcases ih (room + 1) (by simpa using h) with hmem | ⟨j, hj, hleft⟩
          · exact .inl hmem
          · exact .inr ⟨j + 1, by omega, by simpa using hleft⟩

end

/-! ## Histories -/

section
variable (key : α → κ) [DecidableEq κ] (limit : Nat)

/-- A history of a queue: the queue at first, all that arrives, the batches in their order, and the
queue in the end. -/
inductive Served : List α → List α → List (List α) → List α → Prop
  | done (queue : List α) : Served queue [] [] queue
  | arrive {queue : List α} (new : List α) {later : List α} {batches : List (List α)}
      {last : List α} (h : Served (queue ++ new) later batches last) :
    Served queue (new ++ later) batches last
  | take {front : α} {rest batch left arrivals : List α} {batches : List (List α)} {last : List α}
      (htake : select (fun a => key a = key front) limit (front :: rest) = (batch, left))
      (h : Served left arrivals batches last) :
    Served (front :: rest) arrivals (batch :: batches) last

variable {key limit} {queue arrivals last : List α} {batches : List (List α)}

/-- Every element is in one batch or still waits. -/
theorem Served.perm (h : Served key limit queue arrivals batches last) :
    (batches.flatten ++ last).Perm (queue ++ arrivals) := by
  induction h with
  | done queue => simp
  | arrive new h ih => rwa [List.append_assoc] at ih
  | @take front rest batch left arrivals batches last htake h ih =>
    have hperm := select_perm (fun a => key a = key front) limit (front :: rest)
    rw [htake] at hperm
    rw [List.flatten_cons, List.append_assoc]
    refine (ih.append_left batch).trans ?_
    rw [← List.append_assoc]
    exact hperm.append_right arrivals

/-- **The elements of one key are taken in their order**, before those of the key that still
wait. -/
theorem Served.filter_eq (h : Served key limit queue arrivals batches last) (k : κ) :
    (batches.flatten ++ last).filter (fun a => key a = k) =
      (queue ++ arrivals).filter fun a => key a = k := by
  induction h with
  | done queue => simp
  | arrive new h ih => rwa [List.append_assoc] at ih
  | @take front rest batch left arrivals batches last htake h ih =>
    have hq : (∀ a, key a = k → key a = key front) ∨ ∀ a, key a = k → ¬key a = key front := by
      by_cases hk : key front = k
      · exact .inl fun a ha => ha.trans hk.symm
      · exact .inr fun a ha hfront => hk (hfront.symm.trans ha)
    have hfilter := filter_select hq limit (front :: rest)
    rw [htake] at hfilter
    rw [List.flatten_cons, List.append_assoc, List.filter_append, ih, ← List.filter_append,
      ← List.append_assoc, List.filter_append, hfilter, ← List.filter_append]

/-- **No element starves**: one with `i` elements before it is in one of the next `i + 1` batches,
whatever arrives. -/
theorem Served.within (hlimit : 0 < limit) (h : Served key limit queue arrivals batches last)
    {i : Nat} {a : α} (ha : queue[i]? = some a) (hi : i < batches.length) :
    ∃ j ≤ i, ∃ batch, batches[j]? = some batch ∧ a ∈ batch := by
  induction h generalizing i with
  | done queue => simp at hi
  | arrive new h ih =>
    obtain ⟨hlt, -⟩ := List.getElem?_eq_some_iff.1 ha
    exact ih (by rw [List.getElem?_append_left hlt, ha]) hi
  | @take front rest batch left arrivals batches last htake h ih =>
    obtain ⟨room, rfl⟩ := Nat.exists_eq_succ_of_ne_zero (Nat.ne_of_gt hlimit)
    rw [select_cons_of_pos (p := fun a => key a = key front) rfl] at htake
    obtain ⟨rfl, rfl⟩ := Prod.mk.inj htake
    cases i with
    | zero =>
      obtain rfl : front = a := by simpa using ha
      exact ⟨0, Nat.le_refl _, _, rfl, List.mem_cons_self⟩
    | succ i =>
      have hrest : rest[i]? = some a := by simpa using ha
      rcases mem_select_or (p := fun b => key b = key front) room hrest with hmem | ⟨j, hj, hleft⟩
      · exact ⟨0, Nat.zero_le _, _, rfl, List.mem_cons_of_mem front hmem⟩
      · have hlt : j < batches.length := by
          rw [List.length_cons] at hi
          omega
        obtain ⟨k, hk, batch, hbatch, hmem⟩ := ih hleft hlt
        exact ⟨k + 1, by omega, batch, by simpa using hbatch, hmem⟩

end

end Jevt.Library
