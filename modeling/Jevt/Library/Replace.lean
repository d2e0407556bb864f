import Mathlib.Data.List.Infix

/-!
# Replacing every occurrence of a text

`replaceAll` scans a text from left to right and goes on behind each occurrence it has replaced.
When a needle is replaced by an element it does not contain, no occurrence is left
(`not_infix_replaceAll`), not even one that the replacements have made. A part of the text that no
occurrence begins in is kept (`replaceAll_append`).
-/

namespace Jevt.Library

variable {α : Type*} [DecidableEq α] {needle replacement : List α}

/-- The scan, with the number of elements of an occurrence that are still to be skipped. -/
def replaceFrom (needle replacement : List α) : Nat → List α → List α
  | _, [] => []
  | skip + 1, _ :: rest => replaceFrom needle replacement skip rest
  | 0, c :: rest =>
    if needle.isPrefixOf (c :: rest) then
      replacement ++ replaceFrom needle replacement (needle.length - 1) rest
    else c :: replaceFrom needle replacement 0 rest

/-- Every occurrence of a needle replaced, from left to right; an empty needle is not replaced. -/
def replaceAll (needle replacement text : List α) : List α :=
  if needle = [] then text else replaceFrom needle replacement 0 text

/-- What stands at the start of the result, and is not replacement, stands at the start of the
text. -/
theorem prefix_of_prefix_replaceFrom {b : α} {text p : List α} (hb : b ∉ p)
    (h : p <+: replaceFrom needle [b] 0 text) : p <+: text := by
  induction text generalizing p with
  | nil => exact h
  | cons c rest ih =>
    cases p with
    | nil => exact List.nil_prefix
    | cons x p =>
      rw [List.mem_cons, not_or] at hb
      rw [replaceFrom] at h
      split at h
      · exact absurd (List.cons_prefix_cons.1 h).1.symm hb.1
      · obtain ⟨rfl, hrest⟩ := List.cons_prefix_cons.1 h
        exact List.cons_prefix_cons.2 ⟨rfl, ih hb.2 hrest⟩

/-- The scan leaves no occurrence. -/
theorem not_infix_replaceFrom {b : α} (hneedle : needle ≠ []) (hb : b ∉ needle) (skip : Nat)
    (text : List α) : ¬needle <:+: replaceFrom needle [b] skip text := by
  induction text generalizing skip with
  | nil =>
    rw [replaceFrom, List.infix_nil]
    exact hneedle
  | cons c rest ih =>
    cases skip with
    | succ skip => exact ih skip
    | zero =>
      rw [replaceFrom]
      split
      · rw [List.singleton_append, List.infix_cons_iff, not_or]
        refine ⟨fun hfront => ?_, ih _⟩
        cases needle with
        | nil => exact hneedle rfl
        | cons x needle =>
          exact hb (List.mem_cons.2 (.inl (List.cons_prefix_cons.1 hfront).1.symm))
      · next hother =>
        rw [List.infix_cons_iff, not_or]
        refine ⟨fun hfront => hother ?_, ih _⟩
        rw [List.isPrefixOf_iff_prefix]
        refine @prefix_of_prefix_replaceFrom α _ needle _ _ _ hb ?_
        rw [replaceFrom, if_neg hother]
        exact hfront

/-- **No occurrence is left** of a needle that is replaced by an element it does not contain. -/
theorem not_infix_replaceAll {b : α} (hneedle : needle ≠ []) (hb : b ∉ needle) (text : List α) :
    ¬needle <:+: replaceAll needle [b] text := by
  rw [replaceAll, if_neg hneedle]
  exact not_infix_replaceFrom hneedle hb 0 text

/-- A part that no occurrence begins in is kept. -/
theorem replaceAll_append {p text : List α}
    (h : ∀ s, s <:+ p → s ≠ [] → ¬needle <+: s ++ text) :
    replaceAll needle replacement (p ++ text) = p ++ replaceAll needle replacement text := by
  rw [replaceAll, replaceAll]
  split
  · rfl
  · induction p with
    | nil => rfl
    | cons c p ih =>
      have hfirst := h (c :: p) (List.suffix_refl _) (List.cons_ne_nil c p)
      rw [← List.isPrefixOf_iff_prefix, List.cons_append] at hfirst
      rw [List.cons_append, replaceFrom, if_neg hfirst, List.cons_append]
      rw [ih fun s hs => h s (hs.trans (List.suffix_cons c p))]

/-- A part that does not contain the needle and ends with an element the needle does not contain is
kept. -/
theorem replaceAll_append_of_not_infix {b : α} {p text : List α} (hb : b ∉ needle)
    (hp : ¬needle <:+: p ++ [b]) :
    replaceAll needle replacement (p ++ [b] ++ text) =
      p ++ [b] ++ replaceAll needle replacement text := by
  refine replaceAll_append fun s hs hne hfront => ?_
  obtain ⟨s', rfl⟩ : ∃ s', s = s' ++ [b] := by
    obtain ⟨q, hq⟩ := hs
    have hlast := congrArg List.getLast? hq
    rw [List.getLast?_append_of_ne_nil _ hne, List.getLast?_append_of_ne_nil _ (by simp)] at hlast
    exact ⟨s.dropLast, (List.dropLast_append_getLast? b (by simpa using hlast)).symm⟩
  rcases List.prefix_or_prefix_of_prefix hfront (List.prefix_append (s' ++ [b]) text) with h | h
  · exact hp (h.isInfix.trans hs.isInfix)
  · exact hb (h.subset (List.mem_append_right s' (List.mem_singleton_self b)))

/-- Behind a part that does not contain the needle and ends with an element the needle does not
contain, no occurrence is left either. -/
theorem not_infix_append_replaceAll {b : α} {p text : List α} (hneedle : needle ≠ [])
    (hb : b ∉ needle) (hp : ¬needle <:+: p ++ [b]) :
    ¬needle <:+: p ++ [b] ++ replaceAll needle [b] text := by
  rw [← replaceAll_append_of_not_infix hb hp]
  exact not_infix_replaceAll hneedle hb _

end Jevt.Library
