import Mathlib.Data.List.Basic

/-!
# Fields joined with a separator

A composite key is often built by joining its fields with a byte that no field may contain. The
join is then injective: the fields can be read back by cutting at the separator. A text can also be
cut where its elements leave a class (`span_append`).
-/

namespace Jevt.Library

variable {α : Type*} {sep : α}

/-- Two texts that are cut at their first separator agree on both pieces. -/
theorem append_sep_inj :
    ∀ {x y r s : List α}, sep ∉ x → sep ∉ y → x ++ sep :: r = y ++ sep :: s → x = y ∧ r = s
  | [], [], _, _, _, _, h => ⟨rfl, (List.cons.inj h).2⟩
  | [], b :: _, _, _, _, hy, h => absurd (List.cons.inj h).1 (by
      rintro rfl; exact hy List.mem_cons_self)
  | a :: _, [], _, _, hx, _, h => absurd (List.cons.inj h).1 (by
      rintro rfl; exact hx List.mem_cons_self)
  | a :: x, b :: y, _, _, hx, hy, h => by
      obtain ⟨rfl, htail⟩ := List.cons.inj h
      obtain ⟨rfl, hrest⟩ := append_sep_inj (List.not_mem_of_not_mem_cons hx)
        (List.not_mem_of_not_mem_cons hy) htail
      exact ⟨rfl, hrest⟩

/-- Joining with a separator that no field contains is injective on lists of one length. -/
theorem intercalate_inj : ∀ {xs ys : List (List α)}, (∀ x ∈ xs, sep ∉ x) → (∀ y ∈ ys, sep ∉ y) →
    xs.length = ys.length → [sep].intercalate xs = [sep].intercalate ys → xs = ys
  | [], [], _, _, _, _ => rfl
  | [x], [y], _, _, _, h => by simpa [List.intercalate] using h
  | x :: x' :: xs, y :: y' :: ys, hx, hy, hlen, h => by
      have cons₂ : ∀ (z z' : List α) (zs : List (List α)),
          [sep].intercalate (z :: z' :: zs) = z ++ sep :: [sep].intercalate (z' :: zs) := by
        intro z z' zs
        simp [List.intercalate]
      rw [cons₂, cons₂] at h
      obtain ⟨rfl, hrest⟩ := append_sep_inj (hx x List.mem_cons_self) (hy y List.mem_cons_self) h
      rw [intercalate_inj (fun z hz => hx z (List.mem_cons_of_mem _ hz))
        (fun z hz => hy z (List.mem_cons_of_mem _ hz)) (by simpa using hlen) hrest]
  | [_], _ :: _ :: _, _, _, hlen, _ | _ :: _ :: _, [_], _, _, hlen, _
  | [], _ :: _, _, _, hlen, _ | _ :: _, [], _, _, hlen, _ => by simp at hlen

/-- A byte of a join is the separator or in one of the fields. -/
theorem mem_intercalate {xs : List (List α)} {a : α} (h : a ∈ [sep].intercalate xs) :
    a = sep ∨ ∃ x ∈ xs, a ∈ x := by
  induction xs with
  | nil => cases h
  | cons x xs ih =>
    cases xs with
    | nil =>
      rw [List.intercalate_singleton] at h
      exact .inr ⟨x, .head _, h⟩
    | cons y ys =>
      rw [List.intercalate_cons_cons, List.mem_append, List.mem_append, List.mem_singleton] at h
      rcases h with (h | h) | h
      · exact .inr ⟨x, .head _, h⟩
      · exact .inl h
      · rcases ih h with h | ⟨z, hz, ha⟩
        · exact .inl h
        · exact .inr ⟨z, .tail _ hz, ha⟩

/-- A text is cut where its elements leave a class. -/
theorem span_append {p : α → Bool} {text rest : List α} (htext : ∀ b ∈ text, p b = true)
    (hrest : ∀ b ∈ rest.head?, p b = false) :
    (text ++ rest).takeWhile p = text ∧ (text ++ rest).dropWhile p = rest := by
  have hstop : rest.takeWhile p = [] ∧ rest.dropWhile p = rest := by
    cases rest with
    | nil => exact ⟨rfl, rfl⟩
    | cons b rest =>
      have hb : ¬p b = true := by
        rw [hrest b rfl]
        exact Bool.false_ne_true
      exact ⟨List.takeWhile_cons_of_neg hb, List.dropWhile_cons_of_neg hb⟩
  rw [List.takeWhile_append_of_pos htext, List.dropWhile_append_of_pos htext, hstop.1, hstop.2,
    List.append_nil]
  exact ⟨rfl, rfl⟩

end Jevt.Library
