import Jevt.Library.Run
import Jevt.Skills.Arbitration

/-!
# Skill executions

`skill_execution` of `include/jevt/skill.hpp`: one attempt of a skill after another, whose outcome
is a label only when evidence about the attempt itself has been accepted. A call takes the whole
state to the whole state, next to what it returns or throws.

An accepted label is backed by evidence in every state a sequence of calls can reach (`Labelled`),
and the evidence an attempt accepts gets no older (`frame_le_of_accepted`).
-/

namespace Jevt.Skills

open Library

/-- `execution_status`. -/
inductive ExecutionStatus where
  | ready
  | running
  | verifying
  | succeeded
  | failed
  | blocked
  | interrupted
  deriving DecidableEq, Repr

/-- `outcome_evidence`. -/
structure OutcomeEvidence where
  attemptId : Bytes
  observedAt : Snapshot
  effectObserved : Truth := .unknown
  evidenceId : Bytes
  reason : Bytes := []
  deriving DecidableEq

/-- The members of a `skill_execution`. -/
structure SkillExecution where
  status : ExecutionStatus := .ready
  attemptId : Bytes := []
  started : Snapshot := { runId := [] }
  reason : Bytes := []
  evidence : Option OutcomeEvidence := none
  deriving DecidableEq

namespace SkillExecution

/-- The loop of `start` over the initiation conditions, and what follows it. -/
def initiate (s : SkillExecution) : List Condition → SkillExecution × Bool
  | [] => ({ s with status := .running }, true)
  | c :: rest =>
    if c.value ≠ .trueValue then
      ({ s with
          status := .blocked
          reason := c.id ++
            if c.value = .unknown then lit ": unknown initiation"
            else lit ": prohibited initiation" },
        false)
    else initiate s rest

/-- `start`. -/
def start (s : SkillExecution) (attemptId : Bytes) (at_ : Snapshot) (initiation : List Condition) :
    SkillExecution × Except StdException Bool :=
  if s.status = .running ∨ s.status = .verifying then
    (s, .error (.logicError (lit "cannot overwrite an active skill attempt")))
  else if attemptId = [] ∨ at_.runId = [] then
    (s, .error (.invalidArgument (lit "attempt and run IDs required")))
  else
    let (s', started) := initiate
      { s with attemptId, started := at_, evidence := none, reason := [] } initiation
    (s', .ok started)

/-- `begin_verification`. -/
def beginVerification (s : SkillExecution) : SkillExecution × Except StdException Unit :=
  if s.status ≠ .running then
    (s, .error (.logicError (lit "only a running attempt can finish execution")))
  else ({ s with status := .verifying }, .ok ())

/-- Whether `verify` turns evidence down. -/
def turnsDown (s : SkillExecution) (observed : OutcomeEvidence) : Bool :=
  s.status ≠ .verifying || observed.attemptId ≠ s.attemptId ||
    observed.observedAt.runId ≠ s.started.runId ||
    decide (observed.observedAt.frame ≤ s.started.frame) || observed.evidenceId = [] ||
    s.evidence.any fun evidence => decide (observed.observedAt.frame < evidence.observedAt.frame)

/-- `verify`. -/
def verify (s : SkillExecution) (observed : OutcomeEvidence) : SkillExecution × Bool :=
  if s.turnsDown observed then (s, false)
  else
    ({ s with
        reason := observed.reason
        evidence := some observed
        status := match observed.effectObserved with
          | .trueValue => .succeeded
          | .falseValue => .failed
          | .unknown => s.status }, true)

/-- `interrupt`. -/
def interrupt (s : SkillExecution) (reason : Bytes) : SkillExecution × Except StdException Unit :=
  if s.status ≠ .running ∧ s.status ≠ .verifying then
    (s, .error (.logicError (lit "only an active attempt can be interrupted")))
  else ({ s with status := .interrupted, reason }, .ok ())

end SkillExecution

/-- A call of a member function, with its arguments. -/
inductive ExecutionCall where
  | start (attemptId : Bytes) (at_ : Snapshot) (initiation : List Condition)
  | beginVerification
  | verify (observed : OutcomeEvidence)
  | interrupt (reason : Bytes)
  deriving DecidableEq

namespace SkillExecution

/-- The state a call leaves behind. -/
def apply (s : SkillExecution) : ExecutionCall → SkillExecution
  | .start attemptId at_ initiation => (s.start attemptId at_ initiation).1
  | .beginVerification => s.beginVerification.1
  | .verify observed => (s.verify observed).1
  | .interrupt reason => (s.interrupt reason).1

/-- Whether a call throws, or is a `verify` that returns false. -/
def refuses (s : SkillExecution) : ExecutionCall → Bool
  | .start attemptId at_ initiation => !(s.start attemptId at_ initiation).2.isOk
  | .beginVerification => !s.beginVerification.2.isOk
  | .verify observed => !(s.verify observed).2
  | .interrupt reason => !(s.interrupt reason).2.isOk

/-- A call that begins an attempt, blocked or not. -/
def Begins (s : SkillExecution) (call : ExecutionCall) : Prop :=
  (∃ attemptId at_ initiation, call = .start attemptId at_ initiation) ∧ s.refuses call = false

/-! ## What one call does -/

variable {s : SkillExecution}

/-- What a call that is not refused does. -/
inductive Acts (s : SkillExecution) : ExecutionCall → SkillExecution → Prop where
  | start {attemptId : Bytes} {at_ : Snapshot} {initiation : List Condition}
      {s' : SkillExecution} (hrunning : s.status ≠ .running) (hverifying : s.status ≠ .verifying)
      (hattempt : s'.attemptId = attemptId) (hstarted : s'.started = at_)
      (hevidence : s'.evidence = none) (hstatus : s'.status = .running ∨ s'.status = .blocked) :
      Acts s (.start attemptId at_ initiation) s'
  | beginVerification (hrunning : s.status = .running) :
      Acts s .beginVerification { s with status := .verifying }
  | verify {observed : OutcomeEvidence} (haccepted : s.turnsDown observed = false) :
      Acts s (.verify observed)
        { s with
          reason := observed.reason
          evidence := some observed
          status := match observed.effectObserved with
            | .trueValue => .succeeded
            | .falseValue => .failed
            | .unknown => s.status }
  | interrupt {reason : Bytes} (hactive : s.status = .running ∨ s.status = .verifying) :
      Acts s (.interrupt reason) { s with status := .interrupted, reason }

/-- The loop over the conditions sets the status and, for a blocked attempt, the reason. -/
theorem initiate_spec (s : SkillExecution) (initiation : List Condition) :
    (s.initiate initiation).1.attemptId = s.attemptId ∧
    (s.initiate initiation).1.started = s.started ∧
    (s.initiate initiation).1.evidence = s.evidence ∧
    ((s.initiate initiation).1.status = .running ∨
      (s.initiate initiation).1.status = .blocked) := by
  induction initiation with
  | nil => exact ⟨rfl, rfl, rfl, .inl rfl⟩
  | cons c rest ih =>
    unfold initiate
    split
    · exact ⟨rfl, rfl, rfl, .inr rfl⟩
    · exact ih

/-- **One call.** It is refused and changes nothing, or it acts. -/
theorem apply_cases (s : SkillExecution) (call : ExecutionCall) :
    (s.refuses call = true ∧ s.apply call = s) ∨
      (s.refuses call = false ∧ Acts s call (s.apply call)) := by
  cases call with
  | start attemptId at_ initiation =>
    dsimp only [refuses, apply]
    fun_cases start s attemptId at_ initiation with
    | case1 hactive => exact .inl ⟨rfl, rfl⟩
    | case2 hactive hmissing => exact .inl ⟨rfl, rfl⟩
    | case3 hactive hmissing s' started heq =>
      obtain ⟨hrunning, hverifying⟩ := not_or.1 hactive
      obtain ⟨hattempt, hstarted, hevidence, hstatus⟩ := initiate_spec
        { s with attemptId, started := at_, evidence := none, reason := [] } initiation
      rw [heq] at hattempt hstarted hevidence hstatus
      exact .inr ⟨rfl, .start hrunning hverifying hattempt hstarted hevidence hstatus⟩
  | beginVerification =>
    dsimp only [refuses, apply]
    fun_cases beginVerification s with
    | case1 hstatus => exact .inl ⟨rfl, rfl⟩
    | case2 hstatus => exact .inr ⟨rfl, .beginVerification (not_not.1 hstatus)⟩
  | verify observed =>
    dsimp only [refuses, apply]
    fun_cases verify s observed with
    | case1 hdown => exact .inl ⟨rfl, rfl⟩
    | case2 haccepted => exact .inr ⟨rfl, .verify (Bool.eq_false_of_not_eq_true haccepted)⟩
  | interrupt reason =>
    dsimp only [refuses, apply]
    fun_cases interrupt s reason with
    | case1 hstatus => exact .inl ⟨rfl, rfl⟩
    | case2 hstatus =>
      refine .inr ⟨rfl, .interrupt ?_⟩
      by_contra hneither
      exact hstatus (not_or.1 hneither)

/-- A call that is not refused acts. -/
theorem acts_of_not_refuses {call : ExecutionCall} (h : s.refuses call = false) :
    Acts s call (s.apply call) := by
  rcases apply_cases s call with ⟨hrefused, -⟩ | ⟨-, hacts⟩
  · rw [h] at hrefused
    cases hrefused
  · exact hacts

/-- Evidence that is not turned down. -/
theorem turnsDown_eq_false {observed : OutcomeEvidence} :
    s.turnsDown observed = false ↔
      s.status = .verifying ∧ observed.attemptId = s.attemptId ∧
      observed.observedAt.runId = s.started.runId ∧
      s.started.frame < observed.observedAt.frame ∧ observed.evidenceId ≠ [] ∧
      ∀ evidence ∈ s.evidence, evidence.observedAt.frame ≤ observed.observedAt.frame := by
  simp [turnsDown, and_assoc, Option.any_eq_false]

/-! ## Labels -/

/-- Evidence about the current attempt, from after its start. -/
structure Fresh (s : SkillExecution) (evidence : OutcomeEvidence) : Prop where
  attempt : evidence.attemptId = s.attemptId
  run : evidence.observedAt.runId = s.started.runId
  later : s.started.frame < evidence.observedAt.frame
  identified : evidence.evidenceId ≠ []

/-- What the status says about the stored evidence. -/
structure Labelled (s : SkillExecution) : Prop where
  succeeded : s.status = .succeeded →
    ∃ evidence ∈ s.evidence, evidence.effectObserved = .trueValue ∧ s.Fresh evidence
  failed : s.status = .failed →
    ∃ evidence ∈ s.evidence, evidence.effectObserved = .falseValue ∧ s.Fresh evidence
  absent : s.status = .ready ∨ s.status = .running ∨ s.status = .blocked → s.evidence = none
  verifying : s.status = .verifying → ∀ evidence ∈ s.evidence, evidence.effectObserved = .unknown

/-- A call keeps labels backed. -/
theorem Labelled.apply (h : s.Labelled) (call : ExecutionCall) : (s.apply call).Labelled := by
  rcases apply_cases s call with ⟨-, hsame⟩ | ⟨-, hacts⟩
  · exact hsame.symm ▸ h
  · generalize s.apply call = s' at hacts
    cases hacts with
    | start hrunning hverifying hattempt hstarted hevidence hstatus =>
      constructor
      · rcases hstatus with hstatus | hstatus <;> simp [hstatus]
      · rcases hstatus with hstatus | hstatus <;> simp [hstatus]
      · exact fun _ => hevidence
      · rcases hstatus with hstatus | hstatus <;> simp [hstatus]
    | beginVerification hrunning =>
      have hnone := h.absent (.inr (.inl hrunning))
      exact ⟨nofun, nofun, fun _ => hnone, fun _ => by simp [hnone]⟩
    | @verify observed haccepted =>
      obtain ⟨hstatus, hattempt, hrun, hlater, hidentified, -⟩ := turnsDown_eq_false.1 haccepted
      have hfresh : Fresh s observed := ⟨hattempt, hrun, hlater, hidentified⟩
      -- The status follows the observed effect.
      cases heffect : observed.effectObserved with
      | unknown =>
        exact ⟨by simp [hstatus], by simp [hstatus], by simp [hstatus],
          fun _ evidence hmem => (Option.some.inj hmem) ▸ heffect⟩
      | falseValue =>
        exact ⟨nofun, fun _ => ⟨observed, rfl, heffect, hattempt, hrun, hlater, hidentified⟩,
          nofun, nofun⟩
      | trueValue =>
        exact ⟨fun _ => ⟨observed, rfl, heffect, hattempt, hrun, hlater, hidentified⟩, nofun,
          nofun, nofun⟩
    | interrupt hactive => exact ⟨nofun, nofun, nofun, nofun⟩

/-- In every state that calls reach, labels are backed. -/
theorem labelled_of_run (calls : List ExecutionCall) :
    (calls.foldl apply ({} : SkillExecution)).Labelled := by
  induction calls using List.reverseRecOn with
  | nil => exact ⟨nofun, nofun, fun _ => rfl, nofun⟩
  | append_singleton calls call ih =>
    rw [List.foldl_append]
    exact ih.apply call

/-! ## The attempt -/

/-- The last call of a run that began an attempt gave it this identifier and this start. -/
def LastBegun (s₀ : SkillExecution) (calls : List ExecutionCall) (attemptId : Bytes)
    (at_ : Snapshot) : Prop :=
  ∃ before initiation after, calls = before ++ .start attemptId at_ initiation :: after ∧
    (before.foldl apply s₀).Begins (.start attemptId at_ initiation) ∧
    Along apply (fun s call => ¬s.Begins call)
      ((before.foldl apply s₀).apply (.start attemptId at_ initiation)) after

/-- A call that begins no attempt leaves the attempt alone, and does nothing before the first. -/
theorem apply_of_not_begins {call : ExecutionCall} (h : ¬s.Begins call) :
    (s.apply call).attemptId = s.attemptId ∧ (s.apply call).started = s.started ∧
      (s.status = .ready → s.apply call = s) := by
  rcases apply_cases s call with ⟨-, hsame⟩ | ⟨haccepted, hacts⟩
  · exact ⟨congrArg _ hsame, congrArg _ hsame, fun _ => hsame⟩
  · generalize s.apply call = s' at hacts
    cases hacts with
    | start => exact absurd ⟨⟨_, _, _, rfl⟩, haccepted⟩ h
    | beginVerification hrunning => exact ⟨rfl, rfl, by simp [hrunning]⟩
    | verify hverifies =>
      exact ⟨rfl, rfl, by simp [(turnsDown_eq_false.1 hverifies).1]⟩
    | interrupt hactive =>
      refine ⟨rfl, rfl, fun hready => ?_⟩
      rw [hready] at hactive
      exact hactive.elim nofun nofun

/-- A call that begins no attempt does not change which one began last. -/
theorem LastBegun.snoc {s₀ : SkillExecution} {calls : List ExecutionCall} {attemptId : Bytes}
    {at_ : Snapshot} (h : LastBegun s₀ calls attemptId at_) {call : ExecutionCall}
    (hnot : ¬(calls.foldl apply s₀).Begins call) :
    LastBegun s₀ (calls ++ [call]) attemptId at_ := by
  obtain ⟨before, initiation, after, rfl, hbegins, hafter⟩ := h
  rw [List.foldl_append, List.foldl_cons] at hnot
  exact ⟨before, initiation, after ++ [call], by simp, hbegins, along_concat.2 ⟨hafter, hnot⟩⟩

/-- The attempt is the one that began last. -/
theorem lastBegun_of_run (calls : List ExecutionCall) :
    (calls.foldl apply ({} : SkillExecution)).status = .ready ∨
      LastBegun {} calls (calls.foldl apply ({} : SkillExecution)).attemptId
        (calls.foldl apply ({} : SkillExecution)).started := by
  induction calls using List.reverseRecOn with
  | nil => exact .inl rfl
  | append_singleton calls call ih =>
    rw [List.foldl_append, List.foldl_cons, List.foldl_nil]
    by_cases hbegins : (calls.foldl apply ({} : SkillExecution)).Begins call
    · obtain ⟨⟨attemptId, at_, initiation, rfl⟩, haccepted⟩ := hbegins
      have hacts := acts_of_not_refuses haccepted
      generalize (calls.foldl apply {}).apply (.start attemptId at_ initiation) = s' at hacts
      cases hacts with
      | start hrunning hverifying hattempt hstarted hevidence hstatus =>
        rw [hattempt, hstarted]
        exact .inr ⟨calls, initiation, [], rfl, ⟨⟨_, _, _, rfl⟩, haccepted⟩, trivial⟩
    · obtain ⟨hattempt, hstarted, hready⟩ := apply_of_not_begins hbegins
      rcases ih with ih | ih
      · rw [hready ih]
        exact .inl ih
      · rw [hattempt, hstarted]
        exact .inr (ih.snoc hbegins)

/-- The stored evidence, if there is any, is at least as late as a frame. -/
def Reached (frame : UInt64) (s : SkillExecution) : Prop :=
  ∃ evidence ∈ s.evidence, frame ≤ evidence.observedAt.frame

/-- Within an attempt stored evidence gets no older. -/
theorem Reached.apply {frame : UInt64} (h : Reached frame s) {call : ExecutionCall}
    (hnot : ¬s.Begins call) : Reached frame (s.apply call) := by
  obtain ⟨evidence, hmem, hle⟩ := h
  rcases apply_cases s call with ⟨-, hsame⟩ | ⟨haccepted, hacts⟩
  · exact hsame.symm ▸ ⟨evidence, hmem, hle⟩
  · generalize s.apply call = s' at hacts
    cases hacts with
    | start => exact absurd ⟨⟨_, _, _, rfl⟩, haccepted⟩ hnot
    | beginVerification => exact ⟨evidence, hmem, hle⟩
    | @verify observed hverifies =>
      obtain ⟨-, -, -, -, -, hlater⟩ := turnsDown_eq_false.1 hverifies
      exact ⟨observed, rfl, UInt64.le_trans hle (hlater evidence hmem)⟩
    | interrupt => exact ⟨evidence, hmem, hle⟩

/-- **Evidence in order.** Of two pieces of evidence that one attempt accepts the later one is from
no earlier frame. -/
theorem frame_le_of_accepted {observed observed' : OutcomeEvidence} {between : List ExecutionCall}
    (haccepted : s.refuses (.verify observed) = false)
    (hbetween : Along apply (fun s call => ¬s.Begins call) (s.apply (.verify observed)) between)
    (haccepted' : (between.foldl apply (s.apply (.verify observed))).refuses (.verify observed') =
      false) : observed.observedAt.frame ≤ observed'.observedAt.frame := by
  have hfirst : Reached observed.observedAt.frame (s.apply (.verify observed)) := by
    have hacts := acts_of_not_refuses haccepted
    generalize s.apply (.verify observed) = s' at hacts
    cases hacts with
    | verify => exact ⟨observed, rfl, UInt64.le_refl _⟩
  have hlast : Reached observed.observedAt.frame
      (between.foldl apply (s.apply (.verify observed))) :=
    Along.invariant (fun _ _ hreached hnot => hreached.apply hnot) hfirst hbetween
  obtain ⟨evidence, hmem, hle⟩ := hlast
  have hacts := acts_of_not_refuses haccepted'
  generalize (between.foldl apply (s.apply (.verify observed))).apply (.verify observed') = s'
    at hacts
  cases hacts with
  | verify hverifies =>
    obtain ⟨-, -, -, -, -, hlater⟩ := turnsDown_eq_false.1 hverifies
    exact UInt64.le_trans hle (hlater evidence hmem)

/-- The statuses an attempt ends with. -/
def Ended (s : SkillExecution) : Prop :=
  s.status = .succeeded ∨ s.status = .failed ∨ s.status = .blocked ∨ s.status = .interrupted

/-- An ended attempt is left by a start only. -/
theorem Ended.apply (h : s.Ended) {call : ExecutionCall} (hnot : ¬s.Begins call) :
    s.apply call = s := by
  rcases apply_cases s call with ⟨-, hsame⟩ | ⟨haccepted, hacts⟩
  · exact hsame
  · rw [Ended] at h
    generalize s.apply call = s' at hacts
    cases hacts with
    | start => exact absurd ⟨⟨_, _, _, rfl⟩, haccepted⟩ hnot
    | beginVerification hrunning => simp [hrunning] at h
    | verify hverifies => simp [(turnsDown_eq_false.1 hverifies).1] at h
    | interrupt hactive => rcases hactive with hactive | hactive <;> simp [hactive] at h

/-- **Labels come from fresh evidence of the current attempt.** Whatever calls are made: in the
state they reach the label is backed by stored evidence about the attempt that began last, the
evidence that an attempt accepts gets no older, an attempt that has ended is left by a start only,
and a call that throws, or a `verify` that returns false, changes nothing. -/
theorem labels_from_fresh_evidence (calls : List ExecutionCall) :
    (calls.foldl apply ({} : SkillExecution)).Labelled ∧
    ((calls.foldl apply ({} : SkillExecution)).status = .ready ∨
      LastBegun {} calls (calls.foldl apply ({} : SkillExecution)).attemptId
        (calls.foldl apply ({} : SkillExecution)).started) ∧
    (∀ before observed between observed' after,
      calls = before ++ .verify observed :: between ++ .verify observed' :: after →
      (before.foldl apply ({} : SkillExecution)).refuses (.verify observed) = false →
      Along apply (fun s call => ¬s.Begins call)
        ((before ++ [.verify observed]).foldl apply ({} : SkillExecution)) between →
      ((before ++ .verify observed :: between).foldl apply ({} : SkillExecution)).refuses
        (.verify observed') = false →
      observed.observedAt.frame ≤ observed'.observedAt.frame) ∧
    ((calls.foldl apply ({} : SkillExecution)).Ended →
      ∀ call, (∀ attemptId at_ initiation, call ≠ .start attemptId at_ initiation) →
        (calls.foldl apply ({} : SkillExecution)).apply call = calls.foldl apply {}) ∧
    ∀ call, (calls.foldl apply ({} : SkillExecution)).refuses call = true →
      (calls.foldl apply ({} : SkillExecution)).apply call = calls.foldl apply {} := by
  refine ⟨labelled_of_run calls, lastBegun_of_run calls, ?_, fun hended call hcall => ?_,
    fun call hrefuses => ?_⟩
  · intro before observed between observed' after _ haccepted hbetween haccepted'
    rw [List.foldl_append] at hbetween haccepted'
    exact frame_le_of_accepted haccepted hbetween haccepted'
  · refine hended.apply fun hbegins => ?_
    obtain ⟨⟨attemptId, at_, initiation, rfl⟩, -⟩ := hbegins
    exact hcall attemptId at_ initiation rfl
  · rcases apply_cases (calls.foldl apply ({} : SkillExecution)) call with ⟨-, hsame⟩ | ⟨hnot, -⟩
    · exact hsame
    · rw [hrefuses] at hnot
      cases hnot

end SkillExecution

end Jevt.Skills
