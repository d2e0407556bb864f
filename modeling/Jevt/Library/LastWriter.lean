import Mathlib.Order.Lattice
import Mathlib.Data.List.Basic

/-!
# Last-writer-wins registers

A register holds at most one value with the time it was written. A write that is older than the
value held is dropped, any other write replaces it. When the times of the writes are distinct, the
register ends up holding the youngest write, in whatever order the writes arrive
(`foldl_write_eq`).
-/

namespace Jevt.Library

variable {τ ν : Type*} [LinearOrder τ]

/-- Write `w` to a register. -/
def write (current : Option (τ × ν)) (w : τ × ν) : Option (τ × ν) :=
  match current with
  | none => some w
  | some c => if w.1 < c.1 then some c else some w

/-- A write that is not older than the value held replaces it. -/
theorem write_of_le {current : Option (τ × ν)} {w : τ × ν}
    (h : ∀ c, current = some c → c.1 ≤ w.1) : write current w = some w := by
  cases current with
  | none => rfl
  | some c => exact if_neg (not_lt.2 (h c rfl))

/-- An older write is dropped. -/
theorem write_of_lt {c w : τ × ν} (h : w.1 < c.1) : write (some c) w = some c :=
  if_pos h

/-- The value held survives writes that are older or repeat it. -/
theorem foldl_write_of_youngest {w : τ × ν} :
    ∀ {ws : List (τ × ν)}, (∀ v ∈ ws, v ≠ w → v.1 < w.1) → ws.foldl write (some w) = some w
  | [], _ => rfl
  | v :: ws, h => by
      have hv : write (some w) v = some w := by
        by_cases hvw : v = w
        · subst hvw
          exact write_of_le fun c hc => (Option.some.inj hc ▸ le_refl _)
        · exact write_of_lt (h v List.mem_cons_self hvw)
      rw [List.foldl_cons, hv]
      exact foldl_write_of_youngest fun x hx => h x (List.mem_cons_of_mem _ hx)

/-- **The youngest write wins.** The order of the writes does not matter. -/
theorem foldl_write_eq {w : τ × ν} :
    ∀ {ws : List (τ × ν)} {current : Option (τ × ν)}, w ∈ ws → (∀ v ∈ ws, v ≠ w → v.1 < w.1) →
      (∀ c, current = some c → c.1 ≤ w.1) → ws.foldl write current = some w
  | v :: ws, current, hw, hmax, hc => by
      rw [List.foldl_cons]
      by_cases hvw : v = w
      · subst hvw
        rw [write_of_le hc]
        exact foldl_write_of_youngest fun x hx => hmax x (List.mem_cons_of_mem _ hx)
      · have hlt : v.1 < w.1 := hmax v List.mem_cons_self hvw
        have hrest : w ∈ ws := (List.mem_cons.1 hw).resolve_left fun heq => hvw heq.symm
        refine foldl_write_eq hrest (fun x hx => hmax x (List.mem_cons_of_mem _ hx))
          fun c' hc' => ?_
        cases current with
        | none => exact (Option.some.inj hc' ▸ hlt.le)
        | some c =>
          unfold write at hc'
          dsimp only at hc'
          split at hc'
          · exact Option.some.inj hc' ▸ hc c rfl
          · exact Option.some.inj hc' ▸ hlt.le

end Jevt.Library
