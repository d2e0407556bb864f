import Mathlib.Data.UInt

/-!
# UTF-8

The well-formed sequences of UTF-8 (`Utf8`), one constructor for each number of bytes of a code
point. Bytes below `0x80` stand for themselves and occur nowhere else, so that a text can be cut
before and behind each of them (`utf8_append_cons_iff`).
-/

namespace Jevt.Library

/-- A continuation byte. -/
def IsTail (b : UInt8) : Prop :=
  0x80 ≤ b ∧ b ≤ 0xbf

/-- The first two bytes of a code point of three bytes. -/
def IsLead₃ (a b : UInt8) : Prop :=
  a = 0xe0 ∧ 0xa0 ≤ b ∧ b ≤ 0xbf ∨ 0xe1 ≤ a ∧ a ≤ 0xec ∧ IsTail b ∨
    a = 0xed ∧ 0x80 ≤ b ∧ b ≤ 0x9f ∨ 0xee ≤ a ∧ a ≤ 0xef ∧ IsTail b

/-- The first two bytes of a code point of four bytes. -/
def IsLead₄ (a b : UInt8) : Prop :=
  a = 0xf0 ∧ 0x90 ≤ b ∧ b ≤ 0xbf ∨ 0xf1 ≤ a ∧ a ≤ 0xf3 ∧ IsTail b ∨
    a = 0xf4 ∧ 0x80 ≤ b ∧ b ≤ 0x8f

/-- Well-formed UTF-8. -/
inductive Utf8 : List UInt8 → Prop
  | nil : Utf8 []
  | one {a : UInt8} {s : List UInt8} (ha : a < 0x80) (hs : Utf8 s) : Utf8 (a :: s)
  | two {a b : UInt8} {s : List UInt8} (ha : 0xc2 ≤ a ∧ a ≤ 0xdf) (hb : IsTail b) (hs : Utf8 s) :
    Utf8 (a :: b :: s)
  | three {a b c : UInt8} {s : List UInt8} (hab : IsLead₃ a b) (hc : IsTail c) (hs : Utf8 s) :
    Utf8 (a :: b :: c :: s)
  | four {a b c d : UInt8} {s : List UInt8} (hab : IsLead₄ a b) (hc : IsTail c) (hd : IsTail d)
      (hs : Utf8 s) : Utf8 (a :: b :: c :: d :: s)

/-- Text of bytes below `0x80` is well formed. -/
theorem utf8_of_lt {s : List UInt8} (h : ∀ b ∈ s, b < 0x80) : Utf8 s := by
  induction s with
  | nil => exact .nil
  | cons b s ih =>
    obtain ⟨hb, hs⟩ := List.forall_mem_cons.1 h
    exact .one hb (ih hs)

/-- Text that is checked to have bytes below `0x80` only is well formed. -/
theorem utf8_of_all {s : List UInt8} (h : (s.all fun b => decide (b < 0x80)) = true) : Utf8 s :=
  utf8_of_lt fun b hb => of_decide_eq_true (List.all_eq_true.1 h b hb)

/-! ## Code points -/

section
variable {a b c d : UInt8} {s t : List UInt8}

/-- The first byte of three is none of two, and the second is a continuation byte. -/
theorem IsLead₃.bounds (h : IsLead₃ a b) : 0xe0 ≤ a ∧ a ≤ 0xef ∧ IsTail b := by
  simp only [IsLead₃, IsTail, UInt8.le_iff_toNat_le, ← UInt8.toNat_inj] at h ⊢
  simp at h ⊢
  omega

/-- The first byte of four is none of three, and the second is a continuation byte. -/
theorem IsLead₄.bounds (h : IsLead₄ a b) : 0xf0 ≤ a ∧ a ≤ 0xf4 ∧ IsTail b := by
  simp only [IsLead₄, IsTail, UInt8.le_iff_toNat_le, ← UInt8.toNat_inj] at h ⊢
  simp at h ⊢
  omega

/-- A byte below `0x80` can be taken off. -/
theorem utf8_one_iff (ha : a < 0x80) : Utf8 (a :: s) ↔ Utf8 s := by
  refine ⟨fun h => ?_, .one ha⟩
  cases h with
  | one _ hs => exact hs
  | two ha' => grind
  | three hab =>
    have := hab.bounds
    grind
  | four hab =>
    have := hab.bounds
    grind

/-- A code point of two bytes can be taken off. -/
theorem utf8_two_iff (ha : 0xc2 ≤ a ∧ a ≤ 0xdf) (hb : IsTail b) :
    Utf8 (a :: b :: s) ↔ Utf8 s := by
  refine ⟨fun h => ?_, .two ha hb⟩
  cases h with
  | one ha' => grind
  | two _ _ hs => exact hs
  | three hab =>
    have := hab.bounds
    grind
  | four hab =>
    have := hab.bounds
    grind

/-- A code point of three bytes can be taken off. -/
theorem utf8_three_iff (hab : IsLead₃ a b) (hc : IsTail c) :
    Utf8 (a :: b :: c :: s) ↔ Utf8 s := by
  have hbounds := hab.bounds
  refine ⟨fun h => ?_, .three hab hc⟩
  cases h with
  | one ha => grind
  | two ha => grind
  | three _ _ hs => exact hs
  | four hab' =>
    have := hab'.bounds
    grind

/-- A code point of four bytes can be taken off. -/
theorem utf8_four_iff (hab : IsLead₄ a b) (hc : IsTail c) (hd : IsTail d) :
    Utf8 (a :: b :: c :: d :: s) ↔ Utf8 s := by
  have hbounds := hab.bounds
  refine ⟨fun h => ?_, .four hab hc hd⟩
  cases h with
  | one ha => grind
  | two ha => grind
  | three hab' =>
    have := hab'.bounds
    grind
  | four _ _ _ hs => exact hs

/-- A text starts with a byte that is no continuation byte. -/
theorem Utf8.not_isTail (h : Utf8 (a :: s)) : ¬ IsTail a := by
  rintro ⟨hlow, hhigh⟩
  cases h with
  | one ha => grind
  | two ha => grind
  | three hab =>
    have := hab.bounds
    grind
  | four hab =>
    have := hab.bounds
    grind

/-! ## Cutting and joining -/

/-- Two texts in a row. -/
theorem Utf8.append (hs : Utf8 s) (ht : Utf8 t) : Utf8 (s ++ t) := by
  induction hs with
  | nil => exact ht
  | one ha _ ih => exact .one ha ih
  | two ha hb _ ih => exact .two ha hb ih
  | three hab hc _ ih => exact .three hab hc ih
  | four hab hc hd _ ih => exact .four hab hc hd ih

/-- A text can be taken off from the front. -/
theorem Utf8.append_iff (hs : Utf8 s) : Utf8 (s ++ t) ↔ Utf8 t := by
  induction hs with
  | nil => exact Iff.rfl
  | one ha _ ih => exact (utf8_one_iff ha).trans ih
  | two ha hb _ ih => exact (utf8_two_iff ha hb).trans ih
  | three hab hc _ ih => exact (utf8_three_iff hab hc).trans ih
  | four hab hc hd _ ih => exact (utf8_four_iff hab hc hd).trans ih

/-- **A text is cut by its bytes below `0x80`.** -/
theorem utf8_append_cons_iff (hb : b < 0x80) : Utf8 (s ++ b :: t) ↔ Utf8 s ∧ Utf8 t := by
  refine ⟨fun h => ?_, fun ⟨hs, ht⟩ => hs.append (.one hb ht)⟩
  have htail : ¬ IsTail b := fun htail => absurd (UInt8.lt_of_le_of_lt htail.1 hb) (by decide)
  -- the cut is not inside the first code point, whatever its length
  generalize hx : s ++ b :: t = x at h
  induction h generalizing s with
  | nil => simp at hx
  | @one a x ha hx' ih =>
    rcases s with _ | ⟨y, s⟩
    · obtain ⟨-, rfl⟩ := List.cons.inj hx
      exact ⟨.nil, hx'⟩
    · obtain ⟨rfl, hrest⟩ := List.cons.inj hx
      exact ⟨.one ha (ih hrest).1, (ih hrest).2⟩
  | @two a c x ha hc _ ih =>
    rcases s with _ | ⟨y, _ | ⟨z, s⟩⟩
    · obtain ⟨rfl, -⟩ := List.cons.inj hx
      grind
    · simp only [List.cons_append, List.nil_append, List.cons.injEq] at hx
      exact absurd (hx.2.1 ▸ hc) htail
    · simp only [List.cons_append, List.cons.injEq] at hx
      obtain ⟨rfl, rfl, hrest⟩ := hx
      exact ⟨.two ha hc (ih hrest).1, (ih hrest).2⟩
  | @three a c d x hac hd _ ih =>
    obtain ⟨hlow, -, hc⟩ := hac.bounds
    rcases s with _ | ⟨y, _ | ⟨z, _ | ⟨w, s⟩⟩⟩
    · obtain ⟨rfl, -⟩ := List.cons.inj hx
      grind
    · simp only [List.cons_append, List.nil_append, List.cons.injEq] at hx
      exact absurd (hx.2.1 ▸ hc) htail
    · simp only [List.cons_append, List.nil_append, List.cons.injEq] at hx
      exact absurd (hx.2.2.1 ▸ hd) htail
    · simp only [List.cons_append, List.cons.injEq] at hx
      obtain ⟨rfl, rfl, rfl, hrest⟩ := hx
      exact ⟨.three hac hd (ih hrest).1, (ih hrest).2⟩
  | @four a c d e x hac hd he _ ih =>
    obtain ⟨hlow, -, hc⟩ := hac.bounds
    rcases s with _ | ⟨y, _ | ⟨z, _ | ⟨w, _ | ⟨v, s⟩⟩⟩⟩
    · obtain ⟨rfl, -⟩ := List.cons.inj hx
      grind
    · simp only [List.cons_append, List.nil_append, List.cons.injEq] at hx
      exact absurd (hx.2.1 ▸ hc) htail
    · simp only [List.cons_append, List.nil_append, List.cons.injEq] at hx
      exact absurd (hx.2.2.1 ▸ hd) htail
    · simp only [List.cons_append, List.nil_append, List.cons.injEq] at hx
      exact absurd (hx.2.2.2.1 ▸ he) htail
    · simp only [List.cons_append, List.cons.injEq] at hx
      obtain ⟨rfl, rfl, rfl, rfl, hrest⟩ := hx
      exact ⟨.four hac hd he (ih hrest).1, (ih hrest).2⟩

/-- **A prefix of a text is a text when what follows it does not continue a code point.** -/
theorem utf8_take_iff (h : Utf8 s) (k : Nat) :
    Utf8 (s.take k) ↔ ∀ b, s[k]? = some b → ¬ IsTail b := by
  refine ⟨fun htake b hb hcont => ?_, fun hnext => ?_⟩
  · -- the rest of the text would start with a continuation byte
    have hlt := (List.getElem?_eq_some_iff.1 hb).1
    have hdrop : s.drop k = b :: s.drop (k + 1) := by
      rw [List.drop_eq_getElem_cons hlt, (List.getElem?_eq_some_iff.1 hb).2]
    have hrest : Utf8 (s.drop k) := by
      rw [← htake.append_iff, List.take_append_drop]
      exact h
    rw [hdrop] at hrest
    exact hrest.not_isTail hcont
  · induction h generalizing k with
    | nil => simpa using Utf8.nil
    | one ha _ ih =>
      cases k with
      | zero => exact .nil
      | succ k => exact .one ha (ih k hnext)
    | two ha hb _ ih =>
      match k with
      | 0 => exact .nil
      | 1 => exact absurd hb (hnext _ rfl)
      | k + 2 => exact .two ha hb (ih k hnext)
    | three hab hc _ ih =>
      match k with
      | 0 => exact .nil
      | 1 => exact absurd hab.bounds.2.2 (hnext _ rfl)
      | 2 => exact absurd hc (hnext _ rfl)
      | k + 3 => exact .three hab hc (ih k hnext)
    | four hab hc hd _ ih =>
      match k with
      | 0 => exact .nil
      | 1 => exact absurd hab.bounds.2.2 (hnext _ rfl)
      | 2 => exact absurd hc (hnext _ rfl)
      | 3 => exact absurd hd (hnext _ rfl)
      | k + 4 => exact .four hab hc hd (ih k hnext)

/-- Writing the bytes below `0x80` in other ways that stay below `0x80` keeps a text what it is,
well formed or not. -/
theorem utf8_flatMap_iff {f : UInt8 → List UInt8}
    (hlow : ∀ b < 0x80, f b ≠ [] ∧ ∀ c ∈ f b, c < 0x80) (hhigh : ∀ b, 0x80 ≤ b → f b = [b]) :
    Utf8 (s.flatMap f) ↔ Utf8 s := by
  -- the text is taken apart from its end: `t` is what has been passed, and has no low byte
  suffices hpassed : ∀ t : List UInt8, (∀ b ∈ t, 0x80 ≤ b) →
      (Utf8 (t ++ s.flatMap f) ↔ Utf8 (t ++ s)) by
    simpa using hpassed [] (by simp)
  induction s with
  | nil => simp
  | cons b s ih =>
    intro t ht
    rcases UInt8.lt_or_le b 0x80 with hb | hb
    · obtain ⟨hne, hsmall⟩ := hlow b hb
      obtain ⟨c, rest, hf⟩ := List.exists_cons_of_ne_nil hne
      rw [hf] at hsmall
      obtain ⟨hc, hrest⟩ := List.forall_mem_cons.1 hsmall
      have hs := ih [] (by simp)
      rw [List.nil_append, List.nil_append] at hs
      rw [List.flatMap_cons, hf, List.cons_append, utf8_append_cons_iff hc,
        (utf8_of_lt hrest).append_iff, hs, ← utf8_append_cons_iff hb]
    · have hs := ih (t ++ [b]) (by simpa [or_imp, forall_and] using ⟨ht, hb⟩)
      rw [List.flatMap_cons, hhigh b hb]
      simpa using hs

end

end Jevt.Library
