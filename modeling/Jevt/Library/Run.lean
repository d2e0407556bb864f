import Mathlib.Data.List.Basic

/-!
# Runs of a labelled machine

A machine is a partial step function `step : σ → α → Option σ` on states `σ`: the label `α`
carries every choice of the environment, so the step itself is a function, and `none` says that
the label is not enabled. `Run step s ls t` is the run of the labels `ls` from `s` to `t`.

The rules of the module are the ones every safety argument uses: a run splits at an append
(`Run.append_iff`), an invariant of one step is an invariant of a run (`Run.invariant`), and a
preorder every step respects relates the two ends of a run (`Run.mono`).

A machine whose step is total has one run for each list of labels, the fold of its step. There the
module has a condition on the steps themselves: `Along step C s ls` says that each of them meets
`C`, in the state it is taken in.
-/

namespace Jevt.Library

variable {σ α : Type*} {step : σ → α → Option σ}

/-- The labels `ls`, taken one after the other from `s`, are all enabled and lead to `t`. -/
def Run (step : σ → α → Option σ) (s : σ) (ls : List α) (t : σ) : Prop :=
  ls.foldlM step s = some t

/-- The empty run. -/
@[simp] theorem Run.nil_iff {s t : σ} : Run step s [] t ↔ s = t := by
  simp [Run]

/-- A run from `s` starts with a step from `s`. -/
theorem Run.cons_iff {s t : σ} {l : α} {ls : List α} :
    Run step s (l :: ls) t ↔ ∃ m, step s l = some m ∧ Run step m ls t := by
  simp [Run, List.foldlM_cons, Option.bind_eq_some_iff]

/-- A run of an append is a run to a middle state and one from there. -/
theorem Run.append_iff {s t : σ} {ls ms : List α} :
    Run step s (ls ++ ms) t ↔ ∃ m, Run step s ls m ∧ Run step m ms t := by
  simp [Run, List.foldlM_append, Option.bind_eq_some_iff]

/-- A run whose last label is `l` ends with a step. -/
theorem Run.snoc_iff {s t : σ} {l : α} {ls : List α} :
    Run step s (ls ++ [l]) t ↔ ∃ m, Run step s ls m ∧ step m l = some t := by
  simp [Run.append_iff, Run.cons_iff]

/-- Runs compose. -/
theorem Run.trans {s m t : σ} {ls ms : List α} (h₁ : Run step s ls m) (h₂ : Run step m ms t) :
    Run step s (ls ++ ms) t :=
  Run.append_iff.2 ⟨m, h₁, h₂⟩

/-- **Induction over a run.** What holds at the start and is preserved by every enabled step
with a label of the run holds at the end. -/
theorem Run.invariant {I : σ → Prop} {P : α → Prop}
    (hstep : ∀ s l t, I s → P l → step s l = some t → I t) :
    ∀ {ls : List α} {s t : σ}, (∀ l ∈ ls, P l) → I s → Run step s ls t → I t
  | [], _, _, _, hs, h => by rw [Run.nil_iff] at h; exact h ▸ hs
  | l :: ls, _, _, hP, hs, h => by
      obtain ⟨m, hm, hrest⟩ := Run.cons_iff.1 h
      exact Run.invariant hstep (fun k hk => hP k (List.mem_cons_of_mem _ hk))
        (hstep _ l m hs (hP l List.mem_cons_self) hm) hrest

/-- **Progress.** Where the invariant enables every label and every step preserves it, every list of
labels has a run, and the invariant holds at its end. -/
theorem Run.exists_of_invariant {I : σ → Prop}
    (hstep : ∀ s l, I s → ∃ t, step s l = some t ∧ I t) :
    ∀ {s : σ} (ls : List α), I s → ∃ t, Run step s ls t ∧ I t
  | s, [], hs => ⟨s, by simp, hs⟩
  | s, l :: ls, hs => by
      obtain ⟨m, hm, hI⟩ := hstep s l hs
      obtain ⟨t, hrun, ht⟩ := Run.exists_of_invariant hstep ls hI
      exact ⟨t, Run.cons_iff.2 ⟨m, hm, hrun⟩, ht⟩

/-- A preorder that every step respects, from a state with the invariant `I`, relates the ends
of a run. -/
theorem Run.mono {I : σ → Prop} {R : σ → σ → Prop} (hrefl : ∀ s, R s s)
    (htrans : ∀ {s m t}, R s m → R m t → R s t)
    (hstep : ∀ s l t, I s → step s l = some t → I t ∧ R s t) :
    ∀ {ls : List α} {s t : σ}, I s → Run step s ls t → R s t
  | [], _, _, _, h => by rw [Run.nil_iff] at h; exact h ▸ hrefl _
  | l :: _, _, _, hs, h => by
      obtain ⟨m, hm, hrest⟩ := Run.cons_iff.1 h
      obtain ⟨hI, hR⟩ := hstep _ l m hs hm
      exact htrans hR (Run.mono hrefl htrans hstep hI hrest)

/-- The states a run from `s` can reach. -/
def Reachable (step : σ → α → Option σ) (s t : σ) : Prop :=
  ∃ ls, Run step s ls t

/-- The start is reachable. -/
theorem Reachable.refl (s : σ) : Reachable step s s :=
  ⟨[], by simp⟩

/-- A step from a reachable state reaches a reachable state. -/
theorem Reachable.tail {s m t : σ} {l : α} (h : Reachable step s m) (hl : step m l = some t) :
    Reachable step s t := by
  obtain ⟨ls, hls⟩ := h
  exact ⟨ls ++ [l], Run.snoc_iff.2 ⟨m, hls, hl⟩⟩

/-- An invariant of every step holds of every reachable state. -/
theorem Reachable.invariant {I : σ → Prop} {s t : σ} (hs : I s)
    (hstep : ∀ s l t, I s → step s l = some t → I t) (h : Reachable step s t) : I t := by
  obtain ⟨ls, hls⟩ := h
  exact Run.invariant (P := fun _ => True) (fun s l t hI _ => hstep s l t hI)
    (fun _ _ => trivial) hs hls

/-! ## Runs of a total machine -/

section
variable {step : σ → α → σ} {C D : σ → α → Prop}

/-- Every step of the run of the labels `ls` from `s` meets `C`. -/
def Along (step : σ → α → σ) (C : σ → α → Prop) : σ → List α → Prop
  | _, [] => True
  | s, l :: ls => C s l ∧ Along step C (step s l) ls

/-- Every run meets the condition that is always true. -/
theorem along_of_forall (h : ∀ s l, C s l) (s : σ) (ls : List α) : Along step C s ls := by
  induction ls generalizing s with
  | nil => trivial
  | cons l ls ih => exact ⟨h s l, ih (step s l)⟩

/-- The steps of an append are those of its parts. -/
theorem along_append {s : σ} {ls ms : List α} :
    Along step C s (ls ++ ms) ↔ Along step C s ls ∧ Along step C (ls.foldl step s) ms := by
  induction ls generalizing s with
  | nil => simp [Along]
  | cons l ls ih => simp only [List.cons_append, Along, List.foldl_cons, ih, and_assoc]

/-- The steps of a run and one more. -/
theorem along_concat {s : σ} {ls : List α} {l : α} :
    Along step C s (ls ++ [l]) ↔ Along step C s ls ∧ C (ls.foldl step s) l := by
  simp [along_append, Along]

/-- What the steps of a run preserve holds at its end. -/
theorem Along.invariant {I : σ → Prop} (hstep : ∀ s l, I s → C s l → I (step s l)) :
    ∀ {ls : List α} {s : σ}, I s → Along step C s ls → I (ls.foldl step s)
  | [], _, hs, _ => hs
  | l :: _, s, hs, h => Along.invariant (s := step s l) hstep (hstep s l hs h.1) h.2

/-- A preorder that every step of a run respects, from the states with the invariant `I`, relates
its two ends. -/
theorem Along.mono {I : σ → Prop} {R : σ → σ → Prop} (hrefl : ∀ s, R s s)
    (htrans : ∀ {s m t}, R s m → R m t → R s t)
    (hstep : ∀ s l, I s → C s l → I (step s l) ∧ R s (step s l)) :
    ∀ {ls : List α} {s : σ}, I s → Along step C s ls → R s (ls.foldl step s)
  | [], _, _, _ => hrefl _
  | l :: _, s, hs, h => by
      obtain ⟨hI, hR⟩ := hstep s l hs h.1
      exact htrans hR (Along.mono hrefl htrans hstep hI h.2)

end

end Jevt.Library
