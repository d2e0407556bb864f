import Mathlib.Data.List.Basic
import Mathlib.Data.Fintype.Card
import Mathlib.Data.Set.Finite.Basic

/-!
# Topological orders

A list is a topological order of a predecessor function when every element comes after all its
predecessors. Such a list is what an induction over a directed acyclic graph needs
(`Topological.induction`), no cycle passes through it (`Topological.not_transGen`), and on a finite
acyclic graph a set that contains every element whose predecessors it contains is everything
(`mem_of_closed_of_acyclic`).
-/

namespace Jevt.Library

variable {α : Type*} {preds : α → List α} {order : List α}

/-- Every element of the list comes after its predecessors. -/
def Topological (preds : α → List α) (order : List α) : Prop :=
  ∀ before a after, order = before ++ a :: after → ∀ p ∈ preds a, p ∈ before

/-- The empty order. -/
theorem Topological.nil : Topological preds [] := by
  intro before a after h
  simp at h

/-- One more element, when its predecessors are there. -/
theorem Topological.snoc (h : Topological preds order) {a : α} (ha : ∀ p ∈ preds a, p ∈ order) :
    Topological preds (order ++ [a]) := by
  intro before b after hsplit
  rcases List.eq_nil_or_concat after with rfl | ⟨after, c, rfl⟩
  · obtain ⟨rfl, hb⟩ := List.append_inj' hsplit rfl
    obtain rfl := List.singleton_inj.1 hb
    exact ha
  · rw [List.concat_eq_append, ← List.cons_append, ← List.append_assoc] at hsplit
    exact h _ _ _ (List.append_inj' hsplit rfl).1

/-- More elements, when the predecessors of each are there already. -/
theorem Topological.append (h : Topological preds order) {more : List α}
    (hmore : ∀ a ∈ more, ∀ p ∈ preds a, p ∈ order) : Topological preds (order ++ more) := by
  induction more using List.reverseRecOn with
  | nil => rwa [List.append_nil]
  | append_singleton more a ih =>
    rw [← List.append_assoc]
    refine (ih fun b hb => hmore b (List.mem_append_left _ hb)).snoc fun p hp => ?_
    exact List.mem_append_left _ (hmore a (by simp) p hp)

/-- A prefix of a topological order is one. -/
theorem Topological.of_append {more : List α} (h : Topological preds (order ++ more)) :
    Topological preds order := by
  intro before a after hsplit
  exact h before a (after ++ more) (by rw [hsplit, List.append_assoc, List.cons_append])

/-- The predecessors of an element of the order are in the order. -/
theorem Topological.mem (h : Topological preds order) {a p : α} (ha : a ∈ order)
    (hp : p ∈ preds a) : p ∈ order := by
  obtain ⟨before, after, rfl⟩ := List.append_of_mem ha
  exact List.mem_append_left _ (h before a after rfl p hp)

/-- Induction along a topological order for a property of elements and depths, where an element
needs one level more than its predecessors: the length of the order is deep enough. -/
theorem Topological.induction_depth (h : Topological preds order) {P : Nat → α → Prop}
    (hstep : ∀ a ∈ order, ∀ depth, (∀ p ∈ preds a, P depth p) → P (depth + 1) a) :
    ∀ a ∈ order, ∀ depth ≥ order.length, P depth a := by
  induction order using List.reverseRecOn with
  | nil => exact nofun
  | append_singleton order a ih =>
    have hbefore := ih h.of_append fun b hb => hstep b (List.mem_append_left _ hb)
    intro b hb depth hdepth
    rw [List.length_append, List.length_singleton] at hdepth
    rcases List.mem_append.1 hb with hb | hb
    · exact hbefore b hb depth (by omega)
    · obtain rfl := List.mem_singleton.1 hb
      obtain ⟨depth, rfl⟩ := Nat.exists_eq_add_of_le' (show 1 ≤ depth by omega)
      exact hstep b (by simp) depth fun p hp => hbefore p (h order b [] rfl p hp) depth (by omega)

/-- **Induction along a topological order.** -/
theorem Topological.induction (h : Topological preds order) {P : α → Prop}
    (hstep : ∀ a ∈ order, (∀ p ∈ preds a, P p) → P a) : ∀ a ∈ order, P a :=
  fun a ha => h.induction_depth (fun b hb _ => hstep b hb) a ha order.length le_rfl

/-- No cycle passes through an element of a topological order. -/
theorem Topological.not_transGen (h : Topological preds order) :
    ∀ a ∈ order, ¬Relation.TransGen (fun p a => p ∈ preds a) a a := by
  refine h.induction fun a _ ih hcycle => ?_
  obtain ⟨p, hap, hpa⟩ := (Relation.TransGen.tail'_iff).1 hcycle
  refine ih p hpa ?_
  exact Relation.TransGen.head' hpa hap

/-- In a finite acyclic graph a set that contains every element whose predecessors it contains is
everything. -/
theorem mem_of_closed_of_acyclic {nodes : List α} (hpreds : ∀ a ∈ nodes, ∀ p ∈ preds a, p ∈ nodes)
    (hacyclic : ∀ a ∈ nodes, ¬Relation.TransGen (fun p a => p ∈ preds a) a a) {P : α → Prop}
    (hclosed : ∀ a ∈ nodes, (∀ p ∈ preds a, P p) → P a) : ∀ a ∈ nodes, P a := by
  have hfinite : Finite {a // a ∈ nodes} := List.finite_toSet nodes
  let r : {a // a ∈ nodes} → {a // a ∈ nodes} → Prop := fun p a =>
    Relation.TransGen (fun p a => p ∈ preds a) p.1 a.1
  have htrans : IsTrans _ r := ⟨fun _ _ _ => Relation.TransGen.trans⟩
  have hirrefl : Std.Irrefl r := ⟨fun a => hacyclic a.1 a.2⟩
  have hwf : WellFounded r := Finite.wellFounded_of_trans_of_irrefl r
  intro a ha
  refine hwf.induction (C := fun a => P a.1) ⟨a, ha⟩ fun b ih => ?_
  exact hclosed b.1 b.2 fun p hp => ih ⟨p, hpreds b.1 b.2 p hp⟩ (.single hp)

end Jevt.Library
