import Mathlib.Data.List.Infix
import Jevt.Library.Keyed

/-!
# Recency lists

The abstract state of a bounded least-recently-used store: items under distinct keys, the most
recent first (`RecencyList`). An item is looked up by its key, dropped, moved to the front, or put
there, and a store that has become too large loses its least recent items.

`trim fits l` drops from the end of `l` until the rest fits. It is the longest prefix that fits
(`prefix_trim`, `fits_trim`, `length_le_trim`), so that what is dropped is the shortest suffix.
-/

namespace Jevt.Library

variable {α β κ : Type*}

/-! ## Trimming -/

/-- Drops elements from the end of a list until what is left fits. -/
def trim (fits : List α → Bool) (l : List α) : List α :=
  if l = [] ∨ fits l then l else trim fits l.dropLast
termination_by l.length
decreasing_by
  next h =>
    have hpos := List.length_pos_iff.2 (not_or.1 h).1
    rw [List.length_dropLast]
    omega

@[simp] theorem trim_nil (fits : List α → Bool) : trim fits [] = [] := by
  rw [trim, if_pos (.inl rfl)]

/-- A list that fits is left as it is. -/
theorem trim_of_fits {fits : List α → Bool} {l : List α} (h : fits l = true) : trim fits l = l := by
  rw [trim, if_pos (.inr h)]

/-- A list that does not fit loses its last element. -/
theorem trim_concat_of_not {fits : List α → Bool} {l : List α} {a : α}
    (h : fits (l ++ [a]) = false) : trim fits (l ++ [a]) = trim fits l := by
  rw [trim, if_neg (by simp [h]), List.dropLast_concat]

/-- What is left is a prefix. -/
theorem prefix_trim (fits : List α → Bool) (l : List α) : trim fits l <+: l := by
  fun_induction trim fits l with
  | case1 => exact List.prefix_refl _
  | case2 l hdrop ih => exact ih.trans (List.dropLast_prefix l)

/-- What is left fits. -/
theorem fits_trim {fits : List α → Bool} (hnil : fits [] = true) (l : List α) :
    fits (trim fits l) = true := by
  fun_induction trim fits l with
  | case1 l hkeep =>
    rcases hkeep with rfl | hfits
    · exact hnil
    · exact hfits
  | case2 l hdrop ih => exact ih

/-- No longer prefix fits. -/
theorem length_le_trim {fits : List α → Bool} {l p : List α} (hp : p <+: l)
    (hfits : fits p = true) : p.length ≤ (trim fits l).length := by
  fun_induction trim fits l with
  | case1 => exact hp.length_le
  | case2 l hdrop ih =>
    rcases List.prefix_concat_iff.1 ((List.dropLast_append_getLast (not_or.1 hdrop).1).symm ▸ hp)
      with heq | hshort
    · rw [List.dropLast_append_getLast] at heq
      exact absurd (heq ▸ hfits) (not_or.1 hdrop).2
    · exact ih hshort

/-- Trimming commutes with a map that the test sees through. -/
theorem trim_map {fits : List β → Bool} (f : α → β) (l : List α) :
    trim fits (l.map f) = (trim (fun l => fits (l.map f)) l).map f := by
  fun_induction trim (fun l => fits (l.map f)) l with
  | case1 l hkeep =>
    rw [trim, if_pos]
    exact hkeep.imp List.map_eq_nil_iff.2 id
  | case2 l hdrop ih =>
    rw [trim, if_neg, ← List.map_dropLast, ih]
    rintro (hnil | hfits)
    · exact hdrop (.inl (List.map_eq_nil_iff.1 hnil))
    · exact hdrop (.inr hfits)

/-! ## Recency lists -/

/-- Items under distinct keys, the most recent first. -/
structure RecencyList (κ β : Type*) where
  items : List (κ × β) := []
  nodup : (items.map Prod.fst).Nodup := by simp

namespace RecencyList

variable [DecidableEq κ]

/-- The item under a key. -/
def find? (l : RecencyList κ β) (key : κ) : Option β :=
  (l.items.find? fun item => item.1 = key).map Prod.snd

/-- The list without the item under a key. -/
def erase (l : RecencyList κ β) (key : κ) : RecencyList κ β where
  items := l.items.filter fun item => item.1 ≠ key
  nodup := l.nodup.sublist (List.filter_sublist.map _)

/-- The list with an item under a key in front. -/
def push (l : RecencyList κ β) (key : κ) (b : β) : RecencyList κ β where
  items := (key, b) :: (l.erase key).items
  nodup := by
    refine List.nodup_cons.2 ⟨fun hmem => ?_, (l.erase key).nodup⟩
    obtain ⟨item, hitem, heq⟩ := List.mem_map.1 hmem
    exact absurd heq (by simpa using (List.mem_filter.1 hitem).2)

/-- The item under a key moves to the front. -/
def touch (l : RecencyList κ β) (key : κ) : RecencyList κ β :=
  match l.find? key with
  | some b => l.push key b
  | none => l

/-- Drops the least recent items until the rest fits. -/
def trim (l : RecencyList κ β) (fits : List (κ × β) → Bool) : RecencyList κ β where
  items := Library.trim fits l.items
  nodup := l.nodup.sublist ((prefix_trim fits l.items).sublist.map _)

@[simp] theorem items_erase (l : RecencyList κ β) (key : κ) :
    (l.erase key).items = l.items.filter fun item => item.1 ≠ key := rfl

@[simp] theorem items_push (l : RecencyList κ β) (key : κ) (b : β) :
    (l.push key b).items = (key, b) :: l.items.filter fun item => item.1 ≠ key := rfl

omit [DecidableEq κ] in
@[simp] theorem items_trim (l : RecencyList κ β) (fits : List (κ × β) → Bool) :
    (l.trim fits).items = Library.trim fits l.items := rfl

/-- An item that is there moves to the front. -/
theorem touch_of_find? {l : RecencyList κ β} {key : κ} {b : β} (h : l.find? key = some b) :
    l.touch key = l.push key b := by
  rw [touch, h]

end RecencyList

end Jevt.Library
