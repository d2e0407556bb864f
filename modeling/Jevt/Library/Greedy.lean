import Mathlib.Data.List.Sort

/-!
# Greedy selection and stable sorting

A greedy selection goes through a list of candidates once and keeps a candidate when the selection
still fits with it appended. `greedy` records every decision, so that the kept and the dropped
candidates can be read off as two complementary sublists. A dropped candidate did not fit when it
was considered (`greedy_drops`), and with a measure that insertions never lower it does not fit at
its place in the finished selection either (`greedy_maximal`).
-/

namespace Jevt.Library

variable {α : Type*}

/-- The decisions of a greedy selection over `candidates`, given what is already selected. -/
def greedy (fits : List α → Bool) : List α → List α → List (α × Bool)
  | _, [] => []
  | selected, a :: rest =>
    if fits (selected ++ [a]) then (a, true) :: greedy fits (selected ++ [a]) rest
    else (a, false) :: greedy fits selected rest

/-- The candidates that were kept. -/
def kept (decisions : List (α × Bool)) : List α :=
  (decisions.filter Prod.snd).map Prod.fst

/-- The candidates that were dropped. -/
def dropped (decisions : List (α × Bool)) : List α :=
  (decisions.filter fun d => !d.2).map Prod.fst

variable {fits : List α → Bool}

@[simp] theorem kept_nil : kept ([] : List (α × Bool)) = [] := rfl

@[simp] theorem kept_cons_true (a : α) (ds : List (α × Bool)) :
    kept ((a, true) :: ds) = a :: kept ds := rfl

@[simp] theorem kept_cons_false (a : α) (ds : List (α × Bool)) :
    kept ((a, false) :: ds) = kept ds := rfl

/-- Every candidate is decided once, in order. -/
theorem map_fst_greedy (selected : List α) (candidates : List α) :
    (greedy fits selected candidates).map Prod.fst = candidates := by
  induction candidates generalizing selected with
  | nil => rfl
  | cons a rest ih =>
    unfold greedy
    split
    · rw [List.map_cons, ih]
    · rw [List.map_cons, ih]

/-- A dropped candidate did not fit after what was kept before it. -/
theorem greedy_drops {candidates : List α} : ∀ {selected : List α} {pre post : List (α × Bool)}
    {a : α}, greedy fits selected candidates = pre ++ (a, false) :: post →
      fits (selected ++ kept pre ++ [a]) = false := by
  induction candidates with
  | nil =>
    intro selected pre post a h
    simp [greedy] at h
  | cons b rest ih =>
    intro selected pre post a h
    unfold greedy at h
    cases pre with
    | nil =>
      split at h
      · simp at h
      · next hfits =>
        obtain ⟨rfl, -⟩ := Prod.mk.inj (List.cons.inj h).1
        simpa using hfits
    | cons d pre =>
      split at h
      · obtain ⟨rfl, hrest⟩ := List.cons.inj h
        simpa using ih hrest
      · obtain ⟨rfl, hrest⟩ := List.cons.inj h
        simpa using ih hrest

/-- If inserting elements never makes a list fit, a dropped candidate cannot be put back at its
place in the finished selection. -/
theorem greedy_maximal (hfits : ∀ (l₁ l₂ : List α) (x : α), fits (l₁ ++ x :: l₂) → fits (l₁ ++ l₂))
    {selected candidates : List α} {pre post : List (α × Bool)} {a : α}
    (h : greedy fits selected candidates = pre ++ (a, false) :: post) :
    fits (selected ++ kept pre ++ a :: kept post) = false := by
  have hdropped := greedy_drops h
  -- taking away what was kept later leads back to the list that was measured
  have hshrink : ∀ later : List α, fits (selected ++ kept pre ++ a :: later) = false := by
    intro later
    induction later with
    | nil => exact hdropped
    | cons x later ih =>
      refine Bool.eq_false_iff.2 fun hfit => ?_
      have hfit' := hfits (selected ++ kept pre ++ [a]) later x (by simpa using hfit)
      rw [List.append_assoc, List.singleton_append, ih] at hfit'
      cases hfit'
  exact hshrink (kept post)

/-- Inserting into a sorted list and filtering. -/
theorem filter_orderedInsert (r : α → α → Prop) [DecidableRel r] [IsTrans α r] (p : α → Bool)
    (a : α) {l : List α} (hl : l.Pairwise r) :
    (l.orderedInsert r a).filter p =
      if p a then (l.filter p).orderedInsert r a else l.filter p := by
  induction l with
  | nil => simp [List.filter_cons]
  | cons b l ih =>
    obtain ⟨hb, hl⟩ := List.pairwise_cons.1 hl
    by_cases hab : r a b
    · rw [List.orderedInsert_cons_of_le r l hab, List.filter_cons]
      split
      · -- What is left of the list starts with an element that `a` may stand before.
        cases hrest : (b :: l).filter p with
        | nil => rfl
        | cons c rest =>
          have hc : c ∈ b :: l := List.mem_of_mem_filter (hrest ▸ List.mem_cons_self)
          have hac : r a c := by
            rcases List.mem_cons.1 hc with rfl | hc
            · exact hab
            · exact IsTrans.trans _ _ _ hab (hb c hc)
          rw [List.orderedInsert_cons_of_le r rest hac]
      · rfl
    · rw [List.orderedInsert_of_not_le r l hab, List.filter_cons, ih hl, List.filter_cons]
      by_cases hpb : p b
      · simp only [hpb, if_true]
        split
        · rw [List.orderedInsert_of_not_le r _ hab]
        · rfl
      · simp only [hpb, Bool.false_eq_true, if_false]

/-- Filtering commutes with insertion sort. -/
theorem filter_insertionSort_comm (r : α → α → Prop) [DecidableRel r] [Std.Total r] [IsTrans α r]
    (p : α → Bool) (l : List α) :
    (l.insertionSort r).filter p = (l.filter p).insertionSort r := by
  induction l with
  | nil => rfl
  | cons a l ih =>
    rw [List.insertionSort_cons, filter_orderedInsert r p a (List.pairwise_insertionSort r l), ih,
      List.filter_cons]
    split <;> rfl

/-- Insertion sort keeps the order of the elements of a class whose members the order does not
tell apart. -/
theorem filter_insertionSort (r : α → α → Prop) [DecidableRel r] [Std.Total r] [IsTrans α r]
    (p : α → Bool) (hclass : ∀ a b, p a → p b → r a b) (l : List α) :
    (l.insertionSort r).filter p = l.filter p := by
  have hpairwise : (l.filter p).Pairwise r :=
    List.pairwise_of_forall_mem_list fun a ha b hb =>
      hclass a b (List.mem_filter.1 ha).2 (List.mem_filter.1 hb).2
  rw [filter_insertionSort_comm, hpairwise.insertionSort_eq]

end Jevt.Library
