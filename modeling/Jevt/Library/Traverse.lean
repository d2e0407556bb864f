import Mathlib.Data.List.Forall2

/-!
# Mapping a partial function over a list

`l.mapM f` in `Option` succeeds exactly when `f` does on every element (`mapM_eq_some_iff`), with
the results in the order of the elements. In `Except` it is the same (`mapM_eq_ok_iff`).
-/

namespace Jevt.Library

variable {α β γ : Type*} {f : α → Option β} {l : List α} {m : List β}

/-- Mapping succeeds with the results of the elements. -/
theorem mapM_eq_some_iff :
    l.mapM f = some m ↔ List.Forall₂ (fun a b => f a = some b) l m := by
  induction l generalizing m with
  | nil => simp [eq_comm]
  | cons a l ih =>
    rw [List.mapM_cons, List.forall₂_cons_left_iff]
    simp only [Option.bind_eq_bind, Option.bind_eq_some_iff, Option.pure_def, Option.some.injEq, ih]
    constructor
    · rintro ⟨b, hb, m, hm, rfl⟩
      exact ⟨b, m, hb, hm, rfl⟩
    · rintro ⟨b, m, hb, hm, rfl⟩
      exact ⟨b, hb, m, hm, rfl⟩

/-- There are as many results as elements. -/
theorem length_eq_of_mapM (h : l.mapM f = some m) : m.length = l.length :=
  (mapM_eq_some_iff.1 h).length_eq.symm

/-- Lists that are related element by element are related at each position. -/
theorem getElem?_of_forall₂ {R : α → β → Prop} (h : List.Forall₂ R l m) {i : Nat} {a : α}
    (ha : l[i]? = some a) : ∃ b, m[i]? = some b ∧ R a b := by
  induction h generalizing i with
  | nil => simp at ha
  | cons hab hrest ih =>
    cases i with
    | zero =>
      obtain rfl := Option.some.inj ha
      exact ⟨_, rfl, hab⟩
    | succ i => exact ih ha

/-- The result of the element at a position is at that position. -/
theorem getElem?_of_mapM (h : l.mapM f = some m) {i : Nat} {a : α} (ha : l[i]? = some a) :
    ∃ b, m[i]? = some b ∧ f a = some b :=
  getElem?_of_forall₂ (mapM_eq_some_iff.1 h) ha

/-- What is read off the results alike is read off the elements. -/
theorem map_eq_of_mapM (h : l.mapM f = some m) {g : α → γ} {k : β → γ}
    (hfk : ∀ a b, f a = some b → k b = g a) : m.map k = l.map g := by
  have hpairs := mapM_eq_some_iff.1 h
  clear h
  induction hpairs with
  | nil => rfl
  | cons hab _ ih => rw [List.map_cons, List.map_cons, hfk _ _ hab, ih]

/-- Relations that agree on the elements of a list relate it to the same lists. -/
theorem forall₂_congr_left {R S : α → β → Prop} (h : ∀ a ∈ l, ∀ b, R a b ↔ S a b) :
    List.Forall₂ R l m ↔ List.Forall₂ S l m := by
  induction l generalizing m with
  | nil => rw [List.forall₂_nil_left_iff, List.forall₂_nil_left_iff]
  | cons a l ih =>
    obtain ⟨ha, hl⟩ := List.forall_mem_cons.1 h
    simp only [List.forall₂_cons_left_iff, ha, ih hl]

/-! ## Functions that fail with an error -/

section
variable {ε : Type*} {g : α → Except ε β}

/-- Mapping succeeds with the results of the elements. -/
theorem mapM_eq_ok_iff : l.mapM g = .ok m ↔ List.Forall₂ (fun a b => g a = .ok b) l m := by
  induction l generalizing m with
  | nil =>
    rw [List.mapM_nil, List.forall₂_nil_left_iff]
    exact ⟨fun h => (Except.ok.inj h).symm, fun h => h ▸ rfl⟩
  | cons a l ih =>
    rw [List.mapM_cons, List.forall₂_cons_left_iff]
    constructor
    · intro h
      cases hb : g a with
      | error failure =>
        rw [hb] at h
        cases h
      | ok b =>
        cases hm : l.mapM g with
        | error failure =>
          rw [hb, hm] at h
          cases h
        | ok rest =>
          rw [hb, hm] at h
          exact ⟨b, rest, rfl, ih.1 hm, (Except.ok.inj h).symm⟩
    · rintro ⟨b, rest, hb, hrest, rfl⟩
      rw [hb, ih.2 hrest]
      rfl

/-- Mapping succeeds with the values of a function that succeeds on every element. -/
theorem mapM_eq_ok_map {f : α → β} (h : ∀ a ∈ l, g a = .ok (f a)) : l.mapM g = .ok (l.map f) := by
  rw [mapM_eq_ok_iff, List.forall₂_map_right_iff, List.forall₂_same]
  exact h

/-- Mapping a function that succeeds under a condition succeeds when every element meets it. -/
theorem mapM_eq_ok_iff_map {p : α → Prop} {f : α → β}
    (h : ∀ a ∈ l, ∀ b, g a = .ok b ↔ p a ∧ b = f a) :
    l.mapM g = .ok m ↔ (∀ a ∈ l, p a) ∧ m = l.map f := by
  rw [mapM_eq_ok_iff]
  constructor
  · intro hall
    induction hall with
    | nil => exact ⟨fun _ ha => absurd ha List.not_mem_nil, rfl⟩
    | @cons a b l m hab _ ih =>
      obtain ⟨ha, hl⟩ := List.forall_mem_cons.1 h
      obtain ⟨hp, rfl⟩ := (ha b).1 hab
      obtain ⟨hrest, rfl⟩ := ih hl
      exact ⟨List.forall_mem_cons.2 ⟨hp, hrest⟩, rfl⟩
  · rintro ⟨hp, rfl⟩
    rw [List.forall₂_map_right_iff, List.forall₂_same]
    exact fun a ha => (h a ha (f a)).2 ⟨hp a ha, rfl⟩

/-- The element at a position has its result at that position. -/
theorem getElem?_of_mapM_eq_ok (h : l.mapM g = .ok m) {i : Nat} {b : β} (hb : m[i]? = some b) :
    ∃ a, l[i]? = some a ∧ g a = .ok b :=
  getElem?_of_forall₂ (mapM_eq_ok_iff.1 h).flip hb

end

end Jevt.Library
