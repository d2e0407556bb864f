import Mathlib.Order.Lattice
import Mathlib.Data.List.Basic

/-!
# The latest and the earliest of the best elements

A list whose elements have scores may have several elements of the highest score. `LatestMax` is
the last of them, which a scan keeps when it replaces its choice by every element that is at least
as good; `EarliestMax` is the first, which a scan keeps when it replaces its choice by better
elements only. Both are cases of an element that parts a list by two relations (`Parts`).

Among positions, a preferred one may be taken if its element is maximal too (`PreferredMaxAt`). The
position that is taken does not change when a strictly increasing function is mapped over the list.
-/

namespace Jevt.Library

variable {α β : Type*} [LinearOrder β] {score : α → β} {l : List α} {a : α}

section
variable {R S T : α → α → Prop} {x : α}

/-- `a` stands in the list between elements that are related to it by `R` and by `S`. -/
def Parts (R S : α → α → Prop) (l : List α) (a : α) : Prop :=
  ∃ pre post, l = pre ++ a :: post ∧ (∀ x ∈ pre, R x a) ∧ ∀ x ∈ post, S x a

/-- The element is one of the list. -/
theorem Parts.mem (h : Parts R S l a) : a ∈ l := by
  obtain ⟨pre, post, rfl, -, -⟩ := h
  simp

/-- What both relations imply, and the element itself meets, holds of all elements. -/
theorem Parts.forall_mem (h : Parts R S l a) (hR : ∀ x, R x a → T x a) (hS : ∀ x, S x a → T x a)
    (hself : T a a) (hx : x ∈ l) : T x a := by
  obtain ⟨pre, post, rfl, hpre, hpost⟩ := h
  rcases List.mem_append.1 hx with hx | hx
  · exact hR x (hpre x hx)
  · rcases List.mem_cons.1 hx with rfl | hx
    · exact hself
    · exact hS x (hpost x hx)

/-- A new last element that all others are related to. -/
theorem parts_concat_self (h : ∀ y ∈ l, R y x) : Parts R S (l ++ [x]) x :=
  ⟨l, [], rfl, h, by simp⟩

/-- A new last element that is related to the old one. -/
theorem Parts.concat (h : Parts R S l a) (hx : S x a) : Parts R S (l ++ [x]) a := by
  obtain ⟨pre, post, rfl, hpre, hpost⟩ := h
  refine ⟨pre, post ++ [x], by simp, hpre, fun y hy => ?_⟩
  rcases List.mem_append.1 hy with hy | hy
  · exact hpost y hy
  · obtain rfl := List.mem_singleton.1 hy
    exact hx

end

/-! ## The latest -/

/-- `a` is the last of the elements with the highest score. -/
def LatestMax (score : α → β) (l : List α) (a : α) : Prop :=
  ∃ pre post, l = pre ++ a :: post ∧ (∀ x ∈ pre, score x ≤ score a) ∧
    ∀ x ∈ post, score x < score a

/-- It stands between elements that are not better and elements that are worse. -/
theorem latestMax_iff_parts : LatestMax score l a ↔
    Parts (fun x a => score x ≤ score a) (fun x a => score x < score a) l a :=
  Iff.rfl

/-- The only element is the last of the best. -/
theorem LatestMax.singleton (score : α → β) (a : α) : LatestMax score [a] a :=
  ⟨[], [], rfl, by simp, by simp⟩

/-- The last of the best is an element. -/
theorem LatestMax.mem (h : LatestMax score l a) : a ∈ l :=
  (latestMax_iff_parts.1 h).mem

/-- No element scores higher than the last of the best. -/
theorem LatestMax.le (h : LatestMax score l a) {x : α} (hx : x ∈ l) : score x ≤ score a :=
  (latestMax_iff_parts.1 h).forall_mem (T := fun x a => score x ≤ score a) (fun _ hle => hle)
    (fun _ hlt => hlt.le) le_rfl hx

/-- A new element that is at least as good is the last of the best. -/
theorem LatestMax.replace (h : LatestMax score l a) {x : α} (hx : score a ≤ score x) :
    LatestMax score (l ++ [x]) x :=
  latestMax_iff_parts.2 (parts_concat_self fun _ hy => (h.le hy).trans hx)

/-- A new element that is worse changes nothing. -/
theorem LatestMax.keep (h : LatestMax score l a) {x : α} (hx : score x < score a) :
    LatestMax score (l ++ [x]) a :=
  latestMax_iff_parts.2 ((latestMax_iff_parts.1 h).concat hx)

/-! ## The earliest -/

/-- `a` is the first of the elements with the highest score. -/
def EarliestMax (score : α → β) (l : List α) (a : α) : Prop :=
  ∃ pre post, l = pre ++ a :: post ∧ (∀ x ∈ pre, score x < score a) ∧
    ∀ x ∈ post, score x ≤ score a

/-- It stands between elements that are worse and elements that are not better. -/
theorem earliestMax_iff_parts : EarliestMax score l a ↔
    Parts (fun x a => score x < score a) (fun x a => score x ≤ score a) l a :=
  Iff.rfl

/-- The only element is the first of the best. -/
theorem EarliestMax.singleton (score : α → β) (a : α) : EarliestMax score [a] a :=
  ⟨[], [], rfl, by simp, by simp⟩

/-- The first of the best is an element. -/
theorem EarliestMax.mem (h : EarliestMax score l a) : a ∈ l :=
  (earliestMax_iff_parts.1 h).mem

/-- No element scores higher than the first of the best. -/
theorem EarliestMax.le (h : EarliestMax score l a) {x : α} (hx : x ∈ l) : score x ≤ score a :=
  (earliestMax_iff_parts.1 h).forall_mem (T := fun x a => score x ≤ score a) (fun _ hlt => hlt.le)
    (fun _ hle => hle) le_rfl hx

/-- A new element that is better is the first of the best. -/
theorem EarliestMax.replace (h : EarliestMax score l a) {x : α} (hx : score a < score x) :
    EarliestMax score (l ++ [x]) x :=
  earliestMax_iff_parts.2 (parts_concat_self fun _ hy => (h.le hy).trans_lt hx)

/-- A new element that is not better changes nothing. -/
theorem EarliestMax.keep (h : EarliestMax score l a) {x : α} (hx : score x ≤ score a) :
    EarliestMax score (l ++ [x]) a :=
  earliestMax_iff_parts.2 ((earliestMax_iff_parts.1 h).concat hx)

/-- A list has one first of the best. -/
theorem EarliestMax.unique (h : EarliestMax score l a) {b : α} (h' : EarliestMax score l b) :
    a = b := by
  obtain ⟨pre, post, rfl, hpre, hpost⟩ := h
  obtain ⟨pre', post', hsplit, hpre', hpost'⟩ := h'
  -- Whichever comes first is at least as good as the other one, which is better than it.
  rcases List.append_eq_append_iff.1 hsplit with ⟨mid, rfl, hmid⟩ | ⟨mid, rfl, hmid⟩
  · cases mid with
    | nil => exact (List.cons.inj hmid).1
    | cons x mid =>
      obtain ⟨rfl, rfl⟩ := List.cons.inj hmid
      exact absurd (hpre' a (by simp)) (not_lt.2 (hpost b (by simp)))
  · cases mid with
    | nil => exact (List.cons.inj hmid).1.symm
    | cons x mid =>
      obtain ⟨rfl, rfl⟩ := List.cons.inj hmid
      exact absurd (hpre b (by simp)) (not_lt.2 (hpost' a (by simp)))

/-! ## Positions -/

section Positions

variable {l : List β} {preferred : Option Nat} {i j : Nat}

/-- The element at a position is not exceeded by any. -/
def MaxAt (l : List β) (i : Nat) : Prop :=
  ∃ b, l[i]? = some b ∧ ∀ x ∈ l, x ≤ b

/-- The first position with a maximal element. -/
def FirstMaxAt (l : List β) (i : Nat) : Prop :=
  MaxAt l i ∧ ∀ j < i, ¬MaxAt l j

/-- The preferred position if its element is maximal, or the first with a maximal element. -/
def PreferredMaxAt (preferred : Option Nat) (l : List β) (i : Nat) : Prop :=
  (preferred = some i ∧ MaxAt l i) ∨ ((∀ p ∈ preferred, ¬MaxAt l p) ∧ FirstMaxAt l i)

/-- A maximal element has a position. -/
theorem MaxAt.lt_length (h : MaxAt l i) : i < l.length := by
  obtain ⟨b, hb, -⟩ := h
  exact (List.getElem?_eq_some_iff.1 hb).1

/-- There is one first position. -/
theorem FirstMaxAt.unique (h : FirstMaxAt l i) (h' : FirstMaxAt l j) : i = j := by
  rcases Nat.lt_trichotomy i j with hlt | heq | hgt
  · exact absurd h.1 (h'.2 i hlt)
  · exact heq
  · exact absurd h'.1 (h.2 j hgt)

/-- One position is taken. -/
theorem PreferredMaxAt.unique (h : PreferredMaxAt preferred l i)
    (h' : PreferredMaxAt preferred l j) : i = j := by
  rcases h with ⟨hi, hmax⟩ | ⟨hnone, hfirst⟩
  · rcases h' with ⟨hj, -⟩ | ⟨hnone, -⟩
    · exact Option.some.inj (hi.symm.trans hj)
    · exact absurd hmax (hnone i hi)
  · rcases h' with ⟨hj, hmax⟩ | ⟨-, hfirst'⟩
    · exact absurd hmax (hnone j hj)
    · exact hfirst.unique hfirst'

section Mapped

variable {γ : Type*} [LinearOrder γ] {f : β → γ}

/-- A strictly increasing function keeps and reflects maximal elements. -/
theorem maxAt_map (hf : StrictMono f) : MaxAt (l.map f) i ↔ MaxAt l i := by
  constructor
  · rintro ⟨c, hc, hmax⟩
    rw [List.getElem?_map] at hc
    obtain ⟨b, hb, rfl⟩ := Option.map_eq_some_iff.1 hc
    exact ⟨b, hb, fun x hx => hf.le_iff_le.1 (hmax (f x) (List.mem_map_of_mem hx))⟩
  · rintro ⟨b, hb, hmax⟩
    refine ⟨f b, by rw [List.getElem?_map, hb, Option.map_some], ?_⟩
    intro c hc
    obtain ⟨x, hx, rfl⟩ := List.mem_map.1 hc
    exact hf.monotone (hmax x hx)

/-- **Mapping a strictly increasing function does not change the position that is taken.** -/
theorem preferredMaxAt_map (hf : StrictMono f) :
    PreferredMaxAt preferred (l.map f) i ↔ PreferredMaxAt preferred l i := by
  simp only [PreferredMaxAt, FirstMaxAt, maxAt_map hf]

end Mapped

end Positions

end Jevt.Library
