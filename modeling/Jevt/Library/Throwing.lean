import Mathlib.Data.List.Basic

/-!
# Statements that may throw

A statement leaves a state, and an exception if it ends with one (`Ending`). What comes after an
exception is skipped up to a handler, which goes on with the state of the statement that threw. A
statement meets a postcondition for its normal end and one for its exceptions (`Ending.Meets`),
with a rule for each way to put statements together; a statement that meets no exception ends
normally.
-/

namespace Jevt.Library

variable {ε σ α : Type*}

/-- How a statement ends. -/
structure Ending (ε σ : Type*) where
  state : σ
  thrown : Option ε := none

namespace Ending

/-- One statement after another. -/
def andThen (o : Ending ε σ) (next : σ → Ending ε σ) : Ending ε σ :=
  match o.thrown with
  | none => next o.state
  | some _ => o

/-- A statement with a handler of its exceptions. -/
def catching (o : Ending ε σ) (handler : ε → σ → Ending ε σ) : Ending ε σ :=
  match o.thrown with
  | none => o
  | some e => handler e o.state

/-- A statement for each element of a list. -/
def forEach (body : α → σ → Ending ε σ) : List α → σ → Ending ε σ
  | [], s => ⟨s, none⟩
  | a :: rest, s => (body a s).andThen (forEach body rest)

/-- What follows is done when nothing has been thrown. -/
@[simp]
theorem andThen_mk_none (s : σ) (next : σ → Ending ε σ) :
    (Ending.mk s none).andThen next = next s := rfl

/-- It is not done behind an exception. -/
@[simp]
theorem andThen_mk_some (s : σ) (e : ε) (next : σ → Ending ε σ) :
    (Ending.mk s (some e)).andThen next = ⟨s, some e⟩ := rfl

/-- A normal end meets `Q`, and an exception meets `T`. -/
def Meets (o : Ending ε σ) (Q : σ → Prop) (T : ε → σ → Prop) : Prop :=
  match o.thrown with
  | none => Q o.state
  | some e => T e o.state

variable {o : Ending ε σ} {Q R : σ → Prop} {T U : ε → σ → Prop}

/-- A statement that has no exception to meet ends normally. -/
theorem meets_iff : o.Meets Q (fun _ _ => False) ↔ o.thrown = none ∧ Q o.state := by
  unfold Meets
  cases o.thrown <;> simp

/-- Postconditions may be weakened. -/
theorem Meets.imp (h : o.Meets Q T) (hQ : ∀ s, Q s → R s) (hT : ∀ e s, T e s → U e s) :
    o.Meets R U := by
  unfold Meets at h ⊢
  split
  · next hthrown =>
    rw [hthrown] at h
    exact hQ _ h
  · next hthrown =>
    rw [hthrown] at h
    exact hT _ _ h

/-- The rule of sequences. -/
theorem Meets.andThen (h : o.Meets Q T) {next : σ → Ending ε σ}
    (hnext : ∀ s, Q s → (next s).Meets R T) : (o.andThen next).Meets R T := by
  unfold Ending.andThen
  unfold Meets at h
  split
  · next hthrown =>
    rw [hthrown] at h
    exact hnext _ h
  · next e hthrown =>
    rw [hthrown] at h
    simpa only [Meets, hthrown] using h

/-- The rule of handlers. -/
theorem Meets.catching (h : o.Meets Q T) {handler : ε → σ → Ending ε σ}
    (hhandler : ∀ e s, T e s → (handler e s).Meets Q U) : (o.catching handler).Meets Q U := by
  unfold Ending.catching
  unfold Meets at h
  split
  · next hthrown =>
    rw [hthrown] at h
    simpa only [Meets, hthrown] using h
  · next e hthrown =>
    rw [hthrown] at h
    exact hhandler _ _ h

/-- The rule of loops: `I done` is the invariant after the elements `done`. -/
theorem meets_forEach {body : α → σ → Ending ε σ} {I : List α → σ → Prop} {l : List α}
    (hbody : ∀ done a rest s, l = done ++ a :: rest → I done s →
      (body a s).Meets (I (done ++ [a])) T) {s : σ} (hs : I [] s) :
    (forEach body l s).Meets (I l) T := by
  have hloop : ∀ rest done s, l = done ++ rest → I done s →
      (forEach body rest s).Meets (I l) T := by
    intro rest
    induction rest with
    | nil =>
      intro done s hsplit hdone
      rw [List.append_nil] at hsplit
      exact hsplit ▸ hdone
    | cons a rest ih =>
      intro done s hsplit hdone
      exact (hbody done a rest s hsplit hdone).andThen fun s' hs' =>
        ih (done ++ [a]) s' (by simpa using hsplit) hs'
  exact hloop l [] s rfl hs

end Ending

end Jevt.Library
