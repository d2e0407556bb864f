import Mathlib.Data.List.Nodup
import Mathlib.Data.Finset.Basic

/-!
# Lists whose elements have distinct keys

A vector searched by a key is a table as long as its keys are distinct. Positions and keys then
say the same: changing the element at a position is changing the element with its key
(`modify_eq_map`), and erasing a position is filtering a key out (`mem_eraseIdx_iff`). The set of
keys an erasing loop leaves is the difference (`mem_foldl_erase`). A table that is filled while it
is read gives what would be computed without it (`recalled_eq`).
-/

namespace Jevt.Library

variable {α κ : Type*} {k : α → κ} {l : List α}

/-- An element is determined by its key. -/
theorem eq_of_key_eq (h : (l.map k).Nodup) {a b : α} (ha : a ∈ l) (hb : b ∈ l)
    (hab : k a = k b) : a = b :=
  List.inj_on_of_nodup_map h ha hb hab

/-- Searching for the key of an element finds the element. -/
theorem find?_eq_of_key [DecidableEq κ] (h : (l.map k).Nodup) {a : α} (ha : a ∈ l) :
    l.find? (fun x => k x = k a) = some a := by
  cases hfind : l.find? fun x => k x = k a with
  | none => exact absurd (decide_eq_true rfl) (List.find?_eq_none.1 hfind a ha)
  | some b =>
    have hb : k b = k a := by simpa using List.find?_some hfind
    rw [eq_of_key_eq h (List.mem_of_find?_eq_some hfind) ha hb]

/-- The elements in front of an element have other keys. -/
theorem key_ne_of_append {pre post : List α} {a b : α} (h : ((pre ++ a :: post).map k).Nodup)
    (hb : b ∈ pre) : k b ≠ k a := by
  rw [List.map_append, List.map_cons] at h
  exact (List.nodup_append.1 h).2.2 (k b) (List.mem_map_of_mem hb) (k a) (.head _)

/-- Searching for a key does not depend on the order. -/
theorem find?_perm [DecidableEq κ] {l' : List α} (h : (l.map k).Nodup) (hperm : l.Perm l') {c : κ} :
    l'.find? (fun x => k x = c) = l.find? fun x => k x = c := by
  have h' := (hperm.map k).nodup_iff.1 h
  cases hfind : l.find? fun x => k x = c with
  | none =>
    refine List.find?_eq_none.2 fun x hx => ?_
    exact List.find?_eq_none.1 hfind x (hperm.mem_iff.2 hx)
  | some a =>
    have hkey : k a = c := by simpa using List.find?_some hfind
    rw [← hkey]
    exact find?_eq_of_key h' (hperm.mem_iff.1 (List.mem_of_find?_eq_some hfind))

/-- A table made of elements has what belongs to the first element with a key. -/
theorem lookup_map_key [BEq κ] [LawfulBEq κ] [DecidableEq κ] {β : Type*} (l : List α) (f : α → β)
    (c : κ) :
    (l.map fun a => (k a, f a)).lookup c = (l.find? fun a => k a = c).map f := by
  induction l with
  | nil => rfl
  | cons a l ih =>
    rw [List.map_cons, List.lookup_cons, List.find?_cons, ih]
    by_cases ha : k a = c
    · rw [beq_iff_eq.2 ha.symm, decide_eq_true ha]
      rfl
    · rw [beq_eq_false_iff_ne.2 (Ne.symm ha), decide_eq_false ha]

/-- A table made of the keys that have a value has the value of each of them. -/
theorem lookup_filterMap_key [BEq κ] [LawfulBEq κ] [DecidableEq κ] {β : Type*} (keys : List κ)
    (f : κ → Option β) (c : κ) :
    (keys.filterMap fun key => (f key).map (key, ·)).lookup c = if c ∈ keys then f c else none := by
  induction keys with
  | nil => rfl
  | cons key keys ih =>
    rw [List.filterMap_cons]
    cases hkey : f key with
    | none =>
      rw [Option.map_none]
      refine ih.trans ?_
      by_cases hc : c = key
      · subst hc
        rw [hkey, ite_self, ite_self]
      · simp only [List.mem_cons, hc, false_or]
    | some value =>
      rw [Option.map_some]
      by_cases hc : c = key
      · subst hc
        rw [if_pos (.head _), hkey, List.lookup_cons_self]
      · rw [List.lookup_cons, beq_eq_false_iff_ne.2 hc]
        refine ih.trans ?_
        simp only [List.mem_cons, hc, false_or]

/-- The value of a key, computed where a table does not have it, and the table with it. -/
def recalled [BEq κ] {ν : Type*} (f : κ → ν) (table : List (κ × ν)) (c : κ) : ν × List (κ × ν) :=
  match table.lookup c with
  | some value => (value, table)
  | none => (f c, (c, f c) :: table)

/-- A value that is taken from a table of computed values is the computed one. -/
theorem recalled_eq [BEq κ] [LawfulBEq κ] {ν : Type*} {f : κ → ν} {table : List (κ × ν)} {c : κ}
    (h : ∀ entry ∈ table, entry.2 = f entry.1) :
    (recalled f table c).1 = f c ∧ ∀ entry ∈ (recalled f table c).2, entry.2 = f entry.1 := by
  unfold recalled
  split
  · next value hfound =>
    obtain ⟨pre, post, rfl, -⟩ := List.lookup_eq_some_iff.1 hfound
    exact ⟨h (c, value) (List.mem_append_right _ (.head _)), h⟩
  · exact ⟨rfl, List.forall_mem_cons.2 ⟨rfl, h⟩⟩

/-- Changing the element at a position is changing the element with its key. -/
theorem modify_eq_map [DecidableEq κ] (h : (l.map k).Nodup) {i : Nat} {a : α}
    (ha : l[i]? = some a) (f : α → α) :
    l.modify i f = l.map fun x => if k x = k a then f x else x := by
  induction l generalizing i with
  | nil => simp at ha
  | cons b l ih =>
      obtain ⟨hb, hl⟩ := List.nodup_cons.1 (List.map_cons (f := k) ▸ h)
      cases i with
      | zero =>
          obtain rfl : b = a := by simpa using ha
          have hrest : ∀ x ∈ l, ¬ k x = k b := fun x hx hk =>
            hb (hk ▸ List.mem_map_of_mem hx)
          rw [List.modify_zero_cons, List.map_cons, if_pos rfl]
          congr 1
          conv_lhs => rw [← List.map_id l]
          exact List.map_congr_left fun x hx => by simp [hrest x hx]
      | succ i =>
          have hmem : a ∈ l := List.mem_of_getElem? (by simpa using ha)
          have hba : ¬ k b = k a := fun hk => hb (hk ▸ List.mem_map_of_mem hmem)
          rw [List.modify_succ_cons, List.map_cons, if_neg hba, ih hl (by simpa using ha)]

/-- Erasing a position is filtering its key out. -/
theorem mem_eraseIdx_iff (h : (l.map k).Nodup) {i : Nat} {a : α} (ha : l[i]? = some a) {x : α} :
    x ∈ l.eraseIdx i ↔ x ∈ l ∧ k x ≠ k a := by
  induction l generalizing i with
  | nil => simp at ha
  | cons b l ih =>
      obtain ⟨hb, hl⟩ := List.nodup_cons.1 (List.map_cons (f := k) ▸ h)
      cases i with
      | zero =>
          obtain rfl : b = a := by simpa using ha
          rw [List.eraseIdx_cons_zero, List.mem_cons]
          constructor
          · intro hx
            exact ⟨.inr hx, fun hk => hb (hk ▸ List.mem_map_of_mem hx)⟩
          · rintro ⟨rfl | hx, hne⟩
            · exact absurd rfl hne
            · exact hx
      | succ i =>
          have ha' : l[i]? = some a := by simpa using ha
          have hba : k b ≠ k a := fun hk => hb (hk ▸ List.mem_map_of_mem (List.mem_of_getElem? ha'))
          rw [List.eraseIdx_cons_succ, List.mem_cons, List.mem_cons, ih hl ha']
          constructor
          · rintro (rfl | ⟨hx, hne⟩)
            · exact ⟨.inl rfl, hba⟩
            · exact ⟨.inr hx, hne⟩
          · rintro ⟨rfl | hx, hne⟩
            · exact .inl rfl
            · exact .inr ⟨hx, hne⟩

/-- An element and those with other keys are the whole list. -/
theorem perm_cons_filter [DecidableEq κ] (h : (l.map k).Nodup) {a : α} (ha : a ∈ l) :
    l.Perm (a :: l.filter fun x => k x ≠ k a) := by
  induction l with
  | nil => cases ha
  | cons b l ih =>
      obtain ⟨hb, hl⟩ := List.nodup_cons.1 (List.map_cons (f := k) ▸ h)
      rcases List.mem_cons.1 ha with rfl | ha
      · have hself : l.filter (fun x => k x ≠ k a) = l :=
          List.filter_eq_self.2 fun x hx =>
            decide_eq_true fun hk => hb (hk ▸ List.mem_map_of_mem hx)
        rw [List.filter_cons_of_neg (by simp), hself]
      · have hba : k b ≠ k a := fun hk => hb (hk ▸ List.mem_map_of_mem ha)
        rw [List.filter_cons_of_pos (by simpa using hba)]
        exact ((ih hl ha).cons b).trans (.swap a b _)

/-- Only an element itself has its key. -/
theorem filter_key_eq [DecidableEq κ] (h : (l.map k).Nodup) {a : α} (ha : a ∈ l) :
    l.filter (fun x => k x = k a) = [a] := by
  have hperm := (perm_cons_filter h ha).filter fun x => k x = k a
  have hnone : (l.filter fun x => k x ≠ k a).filter (fun x => k x = k a) = [] :=
    List.filter_eq_nil_iff.2 fun x hx => by simpa using (List.mem_filter.1 hx).2
  rw [List.filter_cons_of_pos (by simp), hnone] at hperm
  exact List.perm_singleton.1 hperm

/-- What is filtered of the parts of all elements is filtered of the part of one element, if the
parts of the others have nothing of it. -/
theorem filter_flatMap_key [DecidableEq κ] {β : Type*} (h : (l.map k).Nodup) {a : α} (ha : a ∈ l)
    {f : α → List β} {p : β → Bool} (hother : ∀ x ∈ l, k x ≠ k a → (f x).filter p = []) :
    (l.flatMap f).filter p = (f a).filter p := by
  have hskip : ∀ m : List α, (∀ x ∈ m, k x ≠ k a → (f x).filter p = []) →
      m.flatMap (fun x => (f x).filter p) =
        (m.filter fun x => k x = k a).flatMap fun x => (f x).filter p := by
    intro m
    induction m with
    | nil => exact fun _ => rfl
    | cons x m ih =>
      intro hm
      obtain ⟨hx, hm⟩ := List.forall_mem_cons.1 hm
      by_cases hkey : k x = k a
      · rw [List.filter_cons_of_pos (by simpa using hkey), List.flatMap_cons, List.flatMap_cons,
          ih hm]
      · rw [List.filter_cons_of_neg (by simpa using hkey), List.flatMap_cons, hx hkey,
          List.nil_append, ih hm]
  rw [List.filter_flatMap, hskip l hother, filter_key_eq h ha, List.flatMap_singleton]

/-- Dropping the key of the last element drops that element only. -/
theorem filter_ne_concat [DecidableEq κ] {a : α} (h : ((l ++ [a]).map k).Nodup) :
    (l ++ [a]).filter (fun x => k x ≠ k a) = l := by
  rw [List.map_append, List.nodup_append] at h
  have hself : l.filter (fun x => k x ≠ k a) = l :=
    List.filter_eq_self.2 fun x hx =>
      decide_eq_true (h.2.2 _ (List.mem_map_of_mem hx) _ (by simp))
  rw [List.filter_append, hself, List.filter_cons_of_neg (by simp), List.filter_nil,
    List.append_nil]

/-- The loop that erases the key of each element of a list from a set. -/
theorem mem_foldl_erase [DecidableEq κ] (s : Finset κ) (x : κ) :
    x ∈ l.foldl (fun s a => s.erase (k a)) s ↔ x ∈ s ∧ ∀ a ∈ l, k a ≠ x := by
  induction l generalizing s with
  | nil => simp
  | cons a l ih =>
      rw [List.foldl_cons, ih, Finset.mem_erase, List.forall_mem_cons]
      constructor
      · rintro ⟨⟨hne, hx⟩, hl⟩
        exact ⟨hx, fun h => hne h.symm, hl⟩
      · rintro ⟨hx, hne, hl⟩
        exact ⟨⟨fun h => hne h.symm, hx⟩, hl⟩

end Jevt.Library
