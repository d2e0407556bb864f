import Jevt.Library.Joined

/-!
# Decimal numerals and length-prefixed texts

A number is written in decimal digits, and a text is framed by its length and a colon. The numeral
determines the number (`decimal_injective`). A frame ends where its length says, so that frames
written one after the other determine the list of their texts (`framed_injective`), whatever bytes
the texts are made of.
-/

namespace Jevt.Library

/-- The decimal digits of a number. -/
def decimal (n : Nat) : List UInt8 :=
  (Nat.toDigits 10 n).map fun c => UInt8.ofNat c.toNat

/-- A text after its length and a colon. -/
def frame (text : List UInt8) : List UInt8 :=
  decimal text.length ++ 0x3a :: text

/-- Texts in their frames, one after the other. -/
def framed (texts : List (List UInt8)) : List UInt8 :=
  texts.flatMap frame

/-- The characters of a numeral are digits. -/
theorem digit_of_mem {n : Nat} {c : Char} (h : c ∈ Nat.toDigits 10 n) :
    0x30 ≤ c.toNat ∧ c.toNat ≤ 0x39 := by
  have hdigit := Nat.isDigit_of_mem_toDigits (by decide) (by decide) h
  simp only [Char.isDigit, Bool.and_eq_true, decide_eq_true_eq] at hdigit
  exact ⟨hdigit.1, hdigit.2⟩

/-- The bytes of a numeral are its characters. -/
theorem map_decimal (n : Nat) :
    ((decimal n).map fun b => Char.ofNat b.toNat) = Nat.toDigits 10 n := by
  rw [decimal, List.map_map]
  conv_rhs => rw [← List.map_id (Nat.toDigits 10 n)]
  refine List.map_congr_left fun c hc => ?_
  obtain ⟨-, hhigh⟩ := digit_of_mem hc
  have hsmall : c.toNat % 2 ^ 8 = c.toNat := Nat.mod_eq_of_lt (by omega)
  rw [id_eq, Function.comp_apply, UInt8.toNat_ofNat', hsmall, Char.ofNat_toNat]

/-- A number is determined by its numeral. -/
theorem decimal_injective : Function.Injective decimal := by
  intro m n h
  have hdigits : Nat.toDigits 10 m = Nat.toDigits 10 n := by
    rw [← map_decimal, ← map_decimal, h]
  have hvalue := congrArg (fun digits => Nat.ofDigitChars 10 digits 0) hdigits
  simpa using hvalue

/-- A numeral has no other byte than the ten digits. -/
theorem isDigit_of_mem_decimal {n : Nat} {b : UInt8} (h : b ∈ decimal n) :
    0x30 ≤ b ∧ b ≤ 0x39 := by
  obtain ⟨c, hc, rfl⟩ := List.mem_map.1 h
  obtain ⟨hlow, hhigh⟩ := digit_of_mem hc
  have hsmall : c.toNat % 2 ^ 8 = c.toNat := Nat.mod_eq_of_lt (by omega)
  rw [UInt8.le_iff_toNat_le, UInt8.le_iff_toNat_le, UInt8.toNat_ofNat', hsmall]
  exact ⟨hlow, hhigh⟩

/-- A numeral does not contain the colon. -/
theorem colon_not_mem_decimal (n : Nat) : (0x3a : UInt8) ∉ decimal n := fun h =>
  absurd (isDigit_of_mem_decimal h).2 (by decide)

/-- A frame ends where its length says. -/
theorem frame_append_inj {s t x y : List UInt8} (h : frame s ++ x = frame t ++ y) :
    s = t ∧ x = y := by
  rw [frame, frame, List.append_assoc, List.append_assoc, List.cons_append, List.cons_append] at h
  obtain ⟨hlength, hrest⟩ :=
    append_sep_inj (colon_not_mem_decimal _) (colon_not_mem_decimal _) h
  exact List.append_inj hrest (decimal_injective hlength)

/-- Frames one after the other determine their texts. -/
theorem framed_injective : Function.Injective framed
  | [], [], _ => rfl
  | [], text :: texts, h | text :: texts, [], h => by
      have hlength := congrArg List.length h
      simp [framed, frame] at hlength
  | s :: ss, t :: ts, h => by
      rw [framed, framed, List.flatMap_cons, List.flatMap_cons] at h
      obtain ⟨rfl, hrest⟩ := frame_append_inj h
      rw [framed_injective hrest]

end Jevt.Library
