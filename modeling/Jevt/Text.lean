import Mathlib.Algebra.Group.Nat.Defs
import Mathlib.Data.List.Basic
import Mathlib.Data.Finset.Basic

/-!
# Byte strings, exceptions and `size_t`

The C++ types the headers share. A `std::string` or `std::string_view` is a list of bytes
(`Bytes`): the library compares, joins and measures them bytewise and never decodes them. An
exception of the standard library is the class that is thrown with its message
(`StdException`). `std::size_t` values are natural numbers, and the one operation that can wrap
around, subtraction, is `sizeSub`.
-/

namespace Jevt

/-- A byte string: `std::string`, `std::string_view`. -/
abbrev Bytes := List UInt8

/-- The bytes of an ASCII string literal. -/
def lit (s : String) : Bytes :=
  s.toList.map fun c => UInt8.ofNat c.toNat

/-- A string literal, character by character. -/
theorem lit_ofList (cs : List Char) :
    lit (String.ofList cs) = cs.map fun c => UInt8.ofNat c.toNat := by
  rw [lit, String.toList_ofList]

/-- The exceptions the modelled functions throw, each with its `what()`. -/
inductive StdException where
  | invalidArgument (what : Bytes)
  | logicError (what : Bytes)
  | lengthError (what : Bytes)
  | outOfRange (what : Bytes)
  deriving DecidableEq, Repr

/-- `what()` of an exception. -/
def StdException.what : StdException → Bytes
  | invalidArgument what | logicError what | lengthError what | outOfRange what => what

/-- A sequence of two steps succeeds when both do. -/
theorem bind_eq_ok_iff {ε α β : Type} {x : Except ε α} {f : α → Except ε β} {b : β} :
    (x >>= f) = .ok b ↔ ∃ a, x = .ok a ∧ f a = .ok b := by
  cases x with
  | error failure => exact ⟨nofun, nofun⟩
  | ok a => exact ⟨fun h => ⟨a, rfl, h⟩, fun ⟨_, ha, h⟩ => Except.ok.inj ha ▸ h⟩

/-- The number of values of `std::size_t`. -/
def sizeModulus : Nat := 2 ^ 64

/-- `a - b` on `std::size_t`: it wraps around when `b` exceeds `a`. -/
def sizeSub (a b : Nat) : Nat :=
  if b ≤ a then a - b else sizeModulus + a - b

/-- A subtraction that does not wrap is the one of `Nat`. -/
theorem sizeSub_of_le {a b : Nat} (h : b ≤ a) : sizeSub a b = a - b := by
  simp [sizeSub, h]

end Jevt
