import Mathlib.Data.Prod.Lex
import Mathlib.Data.List.Induction
import Mathlib.Data.List.Nodup
import Jevt.Library.Extremal
import Jevt.Skills.Arbitration

/-!
# Admission and ranking

What `arbitrate` decides, without the pass: a proposal is admitted by its own data and the current
snapshot alone (`Admitted`), and among the admitted proposals the first of the best is chosen, where
regular proposals come before emergencies, then higher priorities, then higher utilities (`rank`).
The pass keeps exactly that choice for the proposals it has visited (`Keeps`).
-/

namespace Jevt.Skills

open Library

variable {α : Type} {current : Snapshot} {proposals : List (Proposal α)} {p : Proposal α}

/-! ## Admission -/

/-- Skill or source are missing, or the utility is not finite. -/
def Malformed (p : Proposal α) : Prop :=
  p.skillId = [] ∨ p.source = [] ∨ p.utility.isFinite = false

/-- The proposal was made for another run, context or candidate set, in a future frame, or too many
frames ago. -/
def Outdated (current : Snapshot) (p : Proposal α) : Prop :=
  p.provenance.runId ≠ current.runId ∨
    p.provenance.contextVersion ≠ current.contextVersion ∨
    p.provenance.candidatesVersion ≠ current.candidatesVersion ∨
    current.frame.toNat < p.provenance.frame.toNat ∨
    p.provenance.frame.toNat + p.maxAgeFrames.toNat < current.frame.toNat

/-- A condition has a value. -/
def HasCondition (p : Proposal α) (value : Truth) : Prop :=
  ∃ c ∈ p.conditions, c.value = value

/-- A proposal is admitted. -/
def Admitted (current : Snapshot) (p : Proposal α) : Prop :=
  ¬Malformed p ∧ ¬Outdated current p ∧ ∀ c ∈ p.conditions, c.value = .trueValue

instance (p : Proposal α) : Decidable (Malformed p) :=
  inferInstanceAs (Decidable (_ ∨ _ ∨ _))

instance (current : Snapshot) (p : Proposal α) : Decidable (Outdated current p) :=
  inferInstanceAs (Decidable (_ ∨ _ ∨ _ ∨ _ ∨ _))

instance (p : Proposal α) (value : Truth) : Decidable (HasCondition p value) :=
  inferInstanceAs (Decidable (∃ c ∈ p.conditions, _))

instance (current : Snapshot) (p : Proposal α) : Decidable (Admitted current p) :=
  inferInstanceAs (Decidable (_ ∧ _ ∧ _))

/-- What a status says of a proposal. A selected proposal is an admitted one. -/
def Classifies (current : Snapshot) (p : Proposal α) : ProposalStatus → Prop
  | .invalid => Malformed p
  | .stale => ¬Malformed p ∧ Outdated current p
  | .prohibited => ¬Malformed p ∧ ¬Outdated current p ∧ HasCondition p .falseValue
  | .unknown => ¬Malformed p ∧ ¬Outdated current p ∧ ¬HasCondition p .falseValue ∧
      HasCondition p .unknown
  | .admissible => Admitted current p
  | .selected => Admitted current p

/-- The loop over the conditions finds a false one first, and an unknown one otherwise. -/
theorem checkConditions_status (entry : ProposalTrace) (conditions : List Condition)
    (hentry : entry.status = .admissible ∨ entry.status = .unknown) :
    (checkConditions entry conditions).status =
      if ∃ c ∈ conditions, c.value = .falseValue then .prohibited
      else if entry.status = .unknown ∨ ∃ c ∈ conditions, c.value = .unknown then .unknown
      else .admissible := by
  induction conditions generalizing entry with
  | nil =>
    rcases hentry with h | h <;> simp [checkConditions, h]
  | cons c rest ih =>
    rw [checkConditions]
    cases hvalue : c.value with
    | falseValue => simp [hvalue]
    | trueValue =>
      rw [if_neg (by simp), if_neg (by simp), ih entry hentry]
      simp [hvalue]
    | unknown =>
      rcases hentry with h | h
      · rw [if_neg (by simp), if_pos ⟨rfl, h⟩, ih _ (.inr rfl)]
        simp [hvalue]
      · rw [if_neg (by simp), if_neg (by simp [h]), ih entry (.inr h)]
        simp [hvalue, h]

/-- The guarded subtraction of frames does not wrap around. -/
theorem outdated_iff (current : Snapshot) (p : Proposal α) :
    Outdated current p ↔ p.provenance.runId ≠ current.runId ∨
      p.provenance.contextVersion ≠ current.contextVersion ∨
      p.provenance.candidatesVersion ≠ current.candidatesVersion ∨
      p.provenance.frame > current.frame ∨
      current.frame - p.provenance.frame > p.maxAgeFrames := by
  have hframes : (p.provenance.frame > current.frame ∨
      current.frame - p.provenance.frame > p.maxAgeFrames) ↔
        (current.frame.toNat < p.provenance.frame.toNat ∨
          p.provenance.frame.toNat + p.maxAgeFrames.toNat < current.frame.toNat) := by
    rw [gt_iff_lt, gt_iff_lt, UInt64.lt_iff_toNat_lt, UInt64.lt_iff_toNat_lt]
    rcases Nat.lt_or_ge current.frame.toNat p.provenance.frame.toNat with hfuture | hpast
    · exact ⟨fun _ => .inl hfuture, fun _ => .inl hfuture⟩
    · rw [UInt64.toNat_sub_of_le _ _ (UInt64.le_iff_toNat_le.2 hpast)]
      omega
  rw [Outdated, hframes]

/-- The status of a proposal that is not selected. -/
def statusOf (current : Snapshot) (p : Proposal α) : ProposalStatus :=
  if Malformed p then .invalid
  else if Outdated current p then .stale
  else if HasCondition p .falseValue then .prohibited
  else if HasCondition p .unknown then .unknown
  else .admissible

/-- A visit writes the status of the proposal. -/
theorem admission_status (current : Snapshot) (p : Proposal α) :
    (admission current p).status = statusOf current p := by
  unfold admission statusOf
  dsimp only
  simp only [← outdated_iff current p]
  change (if Malformed p then _ else _ : ProposalTrace).status = _
  split_ifs with hmalformed houtdated hfalse hunknown
  · rfl
  · rfl
  all_goals rw [checkConditions_status _ _ (.inl rfl)]
  · exact if_pos hfalse
  · exact (if_neg hfalse).trans (if_pos (.inr hunknown))
  · refine (if_neg hfalse).trans (if_neg ?_)
    rintro (hstatus | hcondition)
    · cases hstatus
    · exact hunknown hcondition

/-- A visit copies the data of the proposal. -/
theorem admission_data (current : Snapshot) (p : Proposal α) :
    (admission current p).id = p.id ∧ (admission current p).skillId = p.skillId ∧
      (admission current p).source = p.source ∧
      (admission current p).conditions = p.conditions := by
  have hconditions : ∀ (conditions : List Condition) (entry : ProposalTrace),
      (checkConditions entry conditions).id = entry.id ∧
        (checkConditions entry conditions).skillId = entry.skillId ∧
        (checkConditions entry conditions).source = entry.source ∧
        (checkConditions entry conditions).conditions = entry.conditions := by
    intro conditions
    induction conditions with
    | nil => exact fun _ => ⟨rfl, rfl, rfl, rfl⟩
    | cons c rest ih =>
      intro entry
      rw [checkConditions]
      split_ifs
      · exact ⟨rfl, rfl, rfl, rfl⟩
      · exact ih _
      · exact ih _
  unfold admission
  dsimp only
  split_ifs
  · exact ⟨rfl, rfl, rfl, rfl⟩
  · exact ⟨rfl, rfl, rfl, rfl⟩
  · exact hconditions _ _

/-- The status of a proposal is the one that classifies it. -/
theorem statusOf_eq_iff (current : Snapshot) (p : Proposal α) {status : ProposalStatus}
    (hstatus : status ≠ .selected) : statusOf current p = status ↔ Classifies current p status := by
  have htrue : (∀ c ∈ p.conditions, c.value = .trueValue) ↔
      ¬HasCondition p .falseValue ∧ ¬HasCondition p .unknown := by
    simp only [HasCondition, not_exists, not_and, ← forall_and]
    refine forall_congr' fun c => ?_
    cases c.value <;> simp
  unfold statusOf
  split_ifs <;> cases status <;> simp_all [Classifies, Admitted]

/-- A proposal is not selected by itself. -/
theorem statusOf_ne_selected (current : Snapshot) (p : Proposal α) :
    statusOf current p ≠ .selected := by
  unfold statusOf
  split_ifs <;> decide

/-- A proposal is admitted when its status says so. -/
theorem statusOf_eq_admissible (current : Snapshot) (p : Proposal α) :
    statusOf current p = .admissible ↔ Admitted current p :=
  statusOf_eq_iff current p (by decide)

/-- The order of the conditions does not matter. -/
theorem statusOf_perm (current : Snapshot) (p : Proposal α) {conditions : List Condition}
    (hperm : conditions.Perm p.conditions) :
    statusOf current { p with conditions } = statusOf current p := by
  have hcondition : ∀ value, HasCondition { p with conditions } value ↔ HasCondition p value :=
    fun value => exists_congr fun c => and_congr_left fun _ => hperm.mem_iff
  unfold statusOf
  simp only [hcondition]
  rfl

/-! ## Ranking -/

/-- The value of a finite number. -/
def value : Floating → ℚ
  | .finite q => q
  | _ => 0

/-- The rank of a proposal: regular proposals first, then the priority, then the utility. -/
def rank (p : Proposal α) : Bool ×ₗ Int ×ₗ ℚ :=
  toLex (!p.emergency, toLex (p.priority, value p.utility))

/-- An admitted proposal takes the place of another one when it ranks higher. -/
theorem displaces_iff {best : Proposal α} (hbest : Admitted current best)
    (hp : Admitted current p) : displaces best p = true ↔ rank best < rank p := by
  have hfinite : ∀ {q : Proposal α}, Admitted current q →
      q.utility = .finite (value q.utility) := by
    intro q hq
    cases hutility : q.utility with
    | finite v => rfl
    | _ => exact absurd (.inr (.inr (by rw [hutility]; rfl))) hq.1
  have hutility : best.utility.lt p.utility = decide (value best.utility < value p.utility) := by
    rw [hfinite hbest, hfinite hp]
    rfl
  have hpriority : (p.priority == best.priority) = decide (best.priority = p.priority) := by
    rw [beq_eq_decide, decide_eq_decide, eq_comm]
  rw [displaces, rank, rank, Prod.Lex.toLex_lt_toLex, Prod.Lex.toLex_lt_toLex, hutility, hpriority]
  cases best.emergency <;> cases p.emergency <;> simp

/-! ## The pass -/

/-- The admitted proposals. -/
def admitted (current : Snapshot) (proposals : List (Proposal α)) : List (Proposal α) :=
  proposals.filter fun p => Admitted current p

/-- What the variables of the loop say of the proposals it has visited: there is an entry for each,
and the position is that of the first of the best admitted ones, if there is one. -/
structure Keeps (current : Snapshot) (visited : List (Proposal α)) (pass : Pass) : Prop where
  trace : pass.trace = visited.map (admission current)
  unselected : pass.selected = none → admitted current visited = []
  best : ∀ s, pass.selected = some s →
    ∃ winner, visited[s]? = some winner ∧ EarliestMax rank (admitted current visited) winner

/-- The admitted proposals after one more. -/
theorem admitted_concat (current : Snapshot) (visited : List (Proposal α)) (p : Proposal α) :
    admitted current (visited ++ [p]) =
      admitted current visited ++ if Admitted current p then [p] else [] := by
  rw [admitted, List.filter_append, List.filter_singleton, admitted]
  split <;> simp_all

/-- The position of the first of the best. -/
theorem Keeps.of_best {visited : List (Proposal α)} {trace : List ProposalTrace} {s : Nat}
    {winner : Proposal α} (htrace : trace = visited.map (admission current))
    (hwinner : visited[s]? = some winner)
    (hbest : EarliestMax rank (admitted current visited) winner) :
    Keeps current visited ⟨trace, some s⟩ := by
  refine ⟨htrace, nofun, fun s' hs' => ?_⟩
  obtain rfl : s = s' := Option.some.inj hs'
  exact ⟨winner, hwinner, hbest⟩

/-- One turn of the loop. -/
theorem Keeps.visit {visited rest : List (Proposal α)} {pass : Pass}
    (h : Keeps current visited pass) (hproposals : proposals = visited ++ p :: rest) :
    Keeps current (visited ++ [p]) (pass.visit current proposals (p, visited.length)) := by
  have htrace : pass.trace ++ [admission current p] =
      (visited ++ [p]).map (admission current) := by
    rw [h.trace, List.map_append, List.map_singleton]
  have hlast : (visited ++ [p])[visited.length]? = some p := List.getElem?_concat_length
  have hbefore : ∀ {s : Nat} {winner : Proposal α}, visited[s]? = some winner →
      (visited ++ [p])[s]? = some winner ∧ proposals[s]? = some winner := by
    intro s winner hs
    have hlt := (List.getElem?_eq_some_iff.1 hs).1
    rw [hproposals, List.getElem?_append_left hlt, List.getElem?_append_left hlt]
    exact ⟨hs, hs⟩
  unfold Pass.visit
  dsimp only
  rw [admission_status]
  by_cases hadmitted : Admitted current p
  · have hconcat : admitted current (visited ++ [p]) = admitted current visited ++ [p] := by
      rw [admitted_concat, if_pos hadmitted]
    rw [if_neg (not_not.2 ((statusOf_eq_admissible current p).2 hadmitted))]
    cases hselected : pass.selected with
    | none =>
      refine .of_best htrace hlast ?_
      rw [hconcat, h.unselected hselected]
      exact .singleton rank p
    | some s =>
      obtain ⟨winner, hs, hbest⟩ := h.best s hselected
      have hwinner : Admitted current winner := of_decide_eq_true (List.mem_filter.1 hbest.mem).2
      dsimp only
      rw [(hbefore hs).2, Option.any_some]
      split
      · next hdisplaces =>
        refine .of_best htrace hlast ?_
        rw [hconcat]
        exact hbest.replace ((displaces_iff hwinner hadmitted).1 hdisplaces)
      · next hstays =>
        refine .of_best htrace (hbefore hs).1 ?_
        rw [hconcat]
        exact hbest.keep (not_lt.1 ((displaces_iff hwinner hadmitted).not.1 hstays))
  · have hconcat : admitted current (visited ++ [p]) = admitted current visited := by
      rw [admitted_concat, if_neg hadmitted, List.append_nil]
    rw [if_pos ((statusOf_eq_admissible current p).not.2 hadmitted)]
    refine ⟨htrace, fun hnone => hconcat ▸ h.unselected hnone, fun s hs => ?_⟩
    obtain ⟨winner, hwinner, hbest⟩ := h.best s hs
    exact ⟨winner, (hbefore hwinner).1, hconcat ▸ hbest⟩

/-- The loop from a position on. -/
theorem Keeps.foldl {visited : List (Proposal α)} {pass : Pass} (h : Keeps current visited pass)
    (rest : List (Proposal α)) (hproposals : proposals = visited ++ rest) :
    Keeps current proposals
      ((rest.zipIdx visited.length).foldl (Pass.visit current proposals) pass) := by
  induction rest generalizing visited pass with
  | nil =>
    rw [List.append_nil] at hproposals
    exact hproposals ▸ h
  | cons p rest ih =>
    have hnext := h.visit hproposals
    rw [List.zipIdx_cons, List.foldl_cons]
    have hlength : (visited ++ [p]).length = visited.length + 1 := List.length_append
    rw [← hlength]
    exact ih hnext (by rw [hproposals, List.append_assoc, List.singleton_append])

/-- **The pass.** It keeps the first of the best admitted proposals. -/
theorem scan_keeps (current : Snapshot) (proposals : List (Proposal α)) :
    Keeps current proposals (scan current proposals) := by
  have hempty : Keeps current ([] : List (Proposal α)) {} := ⟨rfl, fun _ => rfl, nofun⟩
  exact hempty.foldl proposals rfl

/-! ## The decision -/

/-- Identifiers that `arbitrate` accepts. -/
structure ValidIds (proposals : List (Proposal α)) : Prop where
  nonempty : ∀ p ∈ proposals, p.id ≠ []
  unique : (proposals.map Proposal.id).Nodup

/-- What the trace reports of a proposal: its data, and the status that classifies it. -/
structure Reports (current : Snapshot) (p : Proposal α) (entry : ProposalTrace) : Prop where
  id_eq : entry.id = p.id
  skillId_eq : entry.skillId = p.skillId
  source_eq : entry.source = p.source
  conditions_eq : entry.conditions = p.conditions
  refused : ∀ status, status ≠ .admissible → status ≠ .selected →
    (entry.status = status ↔ Classifies current p status)
  admitted : entry.status = .admissible ∨ entry.status = .selected ↔ Admitted current p

/-- A decision for a winner: its action, and its entry as the only selected one. -/
structure Chooses (current : Snapshot) (proposals : List (Proposal α)) (winner : Proposal α)
    (decision : Decision α) : Prop where
  best : EarliestMax rank (admitted current proposals) winner
  action : decision.action = some winner.action
  selectedId : decision.selectedId = winner.id
  emergency : decision.emergency = winner.emergency
  selected : ∃ position, proposals[position]? = some winner ∧
    ∀ (j : Nat) (entry : ProposalTrace), decision.trace[j]? = some entry →
      (entry.status = .selected ↔ j = position)

/-- A decision that is right for the proposals. -/
structure Arbitrates (current : Snapshot) (proposals : List (Proposal α)) (decision : Decision α) :
    Prop where
  provenance : decision.provenance = current
  trace : List.Forall₂ (Reports current) proposals decision.trace
  acts : decision.action.isSome = true ↔ ∃ p ∈ proposals, Admitted current p
  chooses : decision.action.isSome = true → ∃ winner, Chooses current proposals winner decision
  abstains : decision.action = none → ∀ entry ∈ decision.trace, entry.status ≠ .selected
  regular : decision.emergency = true →
    ∀ p ∈ proposals, Admitted current p → p.emergency = true

/-- The identifiers are checked one by one. -/
theorem uniqueIds_iff (ids : List Bytes) (proposals : List (Proposal α)) :
    uniqueIds ids proposals = true ↔
      ValidIds proposals ∧ ∀ p ∈ proposals, p.id ∉ ids := by
  induction proposals generalizing ids with
  | nil => simp [uniqueIds, ValidIds.mk]
  | cons p rest ih =>
    rw [uniqueIds]
    split
    · next hrefused =>
      refine iff_of_false (by decide) fun ⟨hvalid, hfresh⟩ => ?_
      rcases hrefused with hempty | hmem
      · exact hvalid.nonempty p List.mem_cons_self hempty
      · exact hfresh p List.mem_cons_self (List.contains_iff_mem.1 hmem)
    · next haccepted =>
      rw [not_or, List.contains_iff_mem] at haccepted
      rw [ih]
      constructor
      · rintro ⟨hvalid, hfresh⟩
        refine ⟨⟨?_, ?_⟩, ?_⟩
        · exact List.forall_mem_cons.2 ⟨haccepted.1, hvalid.nonempty⟩
        · refine List.nodup_cons.2 ⟨fun hmem => ?_, hvalid.unique⟩
          obtain ⟨q, hq, heq⟩ := List.mem_map.1 hmem
          exact hfresh q hq (heq ▸ List.mem_cons_self)
        · exact List.forall_mem_cons.2
            ⟨haccepted.2, fun q hq hmem => hfresh q hq (List.mem_cons_of_mem _ hmem)⟩
      · rintro ⟨hvalid, hfresh⟩
        obtain ⟨hnew, hunique⟩ := List.nodup_cons.1 hvalid.unique
        refine ⟨⟨fun q hq => hvalid.nonempty q (List.mem_cons_of_mem _ hq), hunique⟩,
          fun q hq hmem => ?_⟩
        rcases List.mem_cons.1 hmem with heq | hmem
        · exact hnew (List.mem_map.2 ⟨q, hq, heq⟩)
        · exact hfresh q (List.mem_cons_of_mem _ hq) hmem

/-- An entry with the data of a proposal and its status, or selected if it is admitted, reports
the proposal. -/
theorem reports_of_status {entry : ProposalTrace}
    (hdata : entry.id = p.id ∧ entry.skillId = p.skillId ∧ entry.source = p.source ∧
      entry.conditions = p.conditions)
    (hstatus : entry.status = statusOf current p ∨
      entry.status = .selected ∧ Admitted current p) : Reports current p entry := by
  obtain ⟨hid, hskill, hsource, hconditions⟩ := hdata
  have hnever := statusOf_ne_selected current p
  refine ⟨hid, hskill, hsource, hconditions, fun status hadmissible hselected => ?_, ?_⟩
  · rw [← statusOf_eq_iff current p hselected]
    rcases hstatus with hstatus | ⟨hstatus, hadmitted⟩
    · rw [hstatus]
    · rw [hstatus, (statusOf_eq_admissible current p).2 hadmitted]
      exact iff_of_false hselected.symm hadmissible.symm
  · rcases hstatus with hstatus | ⟨hstatus, hadmitted⟩
    · rw [hstatus, or_iff_left hnever, statusOf_eq_admissible]
    · exact iff_of_true (.inr hstatus) hadmitted

/-- The entries of the pass report the proposals. -/
theorem reports_admission (current : Snapshot) (p : Proposal α) :
    Reports current p (admission current p) :=
  reports_of_status (admission_data current p) (.inl (admission_status current p))

/-- No visit selects. -/
theorem admission_ne_selected (current : Snapshot) (p : Proposal α) :
    (admission current p).status ≠ .selected :=
  admission_status current p ▸ statusOf_ne_selected current p

/-- When the first of the best is an emergency, all are. -/
theorem emergency_of_best {winner : Proposal α}
    (h : EarliestMax rank (admitted current proposals) winner)
    (hemergency : winner.emergency = true) (hp : p ∈ admitted current proposals) :
    p.emergency = true := by
  have hle := h.le hp
  rw [rank, rank, Prod.Lex.toLex_le_toLex, hemergency] at hle
  cases hregular : p.emergency with
  | true => rfl
  | false =>
    rw [hregular] at hle
    rcases hle with hlt | ⟨heq, -⟩
    · exact absurd hlt (show ¬(!false) < (!true) by decide)
    · cases heq

/-- What the loop keeps without a position is a right decision. -/
theorem Keeps.arbitrates_none {pass : Pass} (h : Keeps current proposals pass)
    (hselected : pass.selected = none) :
    Arbitrates current proposals (conclude current proposals pass) := by
  have hnone : ∀ p ∈ proposals, ¬Admitted current p := fun p hp hadmitted => by
    have hmem : p ∈ admitted current proposals :=
      List.mem_filter.2 ⟨hp, decide_eq_true hadmitted⟩
    rw [h.unselected hselected] at hmem
    cases hmem
  rw [conclude, hselected]
  refine ⟨rfl, ?_, ⟨nofun, fun ⟨p, hp, hadmitted⟩ => absurd hadmitted (hnone p hp)⟩, nofun,
    fun _ entry hentry => ?_, nofun⟩
  · rw [h.trace, List.forall₂_map_right_iff, List.forall₂_same]
    exact fun p _ => reports_admission current p
  · obtain ⟨p, -, rfl⟩ := List.mem_map.1 (h.trace ▸ hentry)
    exact admission_ne_selected current p

/-- The entries after one of them is marked. -/
theorem Keeps.getElem?_marked {pass : Pass} (h : Keeps current proposals pass) (s : Nat)
    (winner : Proposal α) (j : Nat) :
    (pass.trace.modify s (markSelected winner))[j]? = proposals[j]?.map fun p =>
      if s = j then markSelected winner (admission current p) else admission current p := by
  rw [List.getElem?_modify, h.trace, List.getElem?_map]
  cases proposals[j]? <;> rfl

/-- The marked entry is the selected one. -/
theorem Keeps.selected_iff {pass : Pass} (h : Keeps current proposals pass) {s : Nat}
    {winner : Proposal α} {j : Nat} {entry : ProposalTrace}
    (hj : (pass.trace.modify s (markSelected winner))[j]? = some entry) :
    entry.status = .selected ↔ j = s := by
  rw [h.getElem?_marked] at hj
  obtain ⟨p, -, rfl⟩ := Option.map_eq_some_iff.1 hj
  rcases eq_or_ne s j with rfl | hne
  · rw [if_pos rfl]
    exact iff_of_true rfl rfl
  · rw [if_neg hne]
    exact iff_of_false (admission_ne_selected current p) hne.symm

/-- What the loop keeps is a right decision. -/
theorem Keeps.arbitrates {pass : Pass} (h : Keeps current proposals pass) :
    Arbitrates current proposals (conclude current proposals pass) := by
  cases hselected : pass.selected with
  | none => exact h.arbitrates_none hselected
  | some s =>
    obtain ⟨winner, hwinner, hbest⟩ := h.best s hselected
    obtain ⟨hmem, hadmitted⟩ := List.mem_filter.1 hbest.mem
    have hadmitted : Admitted current winner := of_decide_eq_true hadmitted
    have hconclude : conclude current proposals pass =
        { provenance := current
          action := some winner.action
          selectedId := winner.id
          emergency := winner.emergency
          trace := pass.trace.modify s (markSelected winner) } := by
      rw [conclude, hselected]
      dsimp only
      rw [hwinner]
    rw [hconclude]
    refine ⟨rfl, ?_, ⟨fun _ => ⟨winner, hmem, hadmitted⟩, fun _ => rfl⟩,
      fun _ => ⟨winner, hbest, rfl, rfl, rfl, s, hwinner, fun _ _ => h.selected_iff⟩, nofun,
      fun hemergency p hp hp' =>
        emergency_of_best hbest hemergency (List.mem_filter.2 ⟨hp, decide_eq_true hp'⟩)⟩
    refine List.forall₂_iff_get.2 ⟨?_, fun j hj hj' => ?_⟩
    · rw [List.length_modify, h.trace, List.length_map]
    · have hget := h.getElem?_marked s winner j
      rw [List.getElem?_eq_getElem hj', List.getElem?_eq_getElem hj, Option.map_some] at hget
      rw [List.get_eq_getElem, List.get_eq_getElem, Option.some.inj hget]
      split
      · next heq =>
        subst heq
        obtain rfl : proposals[s] = winner :=
          Option.some.inj ((List.getElem?_eq_getElem hj).symm.trans hwinner)
        exact reports_of_status (admission_data current _) (.inr ⟨rfl, hadmitted⟩)
      · exact reports_admission current _

/-- Right decisions for the same admitted proposals have the same action. -/
theorem Arbitrates.action_eq {proposals' : List (Proposal α)} {decision decision' : Decision α}
    (h : Arbitrates current proposals decision) (h' : Arbitrates current proposals' decision')
    (hsame : admitted current proposals = admitted current proposals') :
    decision.action = decision'.action := by
  have hacts : ∀ {l : List (Proposal α)} {d : Decision α}, Arbitrates current l d →
      d.action = none → admitted current l = [] := by
    intro l d hd hnone
    refine List.filter_eq_nil_iff.2 fun p hp hadmitted => ?_
    have hsome := hd.acts.2 ⟨p, hp, of_decide_eq_true hadmitted⟩
    rw [hnone] at hsome
    cases hsome
  have hbest : ∀ {l : List (Proposal α)} {d : Decision α} {a : α}, Arbitrates current l d →
      d.action = some a → ∃ winner, EarliestMax rank (admitted current l) winner ∧
        d.action = some winner.action := by
    intro l d a hd ha
    obtain ⟨winner, hwinner⟩ := hd.chooses (ha ▸ rfl)
    exact ⟨winner, hwinner.best, hwinner.action⟩
  cases haction : decision.action with
  | none =>
    cases haction' : decision'.action with
    | none => rfl
    | some a =>
      obtain ⟨winner, hwinner, -⟩ := hbest h' haction'
      have hmem := hwinner.mem
      rw [← hsame, hacts h haction] at hmem
      cases hmem
  | some a =>
    obtain ⟨winner, hwinner, heq⟩ := hbest h haction
    cases haction' : decision'.action with
    | none =>
      have hmem := hwinner.mem
      rw [hsame, hacts h' haction'] at hmem
      cases hmem
    | some a' =>
      obtain ⟨winner', hwinner', heq'⟩ := hbest h' haction'
      rw [← haction, ← haction', heq, heq', hwinner.unique (hsame ▸ hwinner')]

/-- **Admission precedes ranking.** For a snapshot with a run and proposals with unique identifiers,
`arbitrate` decides right; the order of conditions does not matter for a status; and other lists
with the same admitted proposals lead to the same action. -/
theorem arbitrate_spec (hrun : current.runId ≠ []) (hids : ValidIds proposals) :
    ∃ decision, arbitrate current proposals = .ok decision ∧
      Arbitrates current proposals decision ∧
      (∀ p ∈ proposals, ∀ conditions : List Condition, conditions.Perm p.conditions →
        (admission current { p with conditions }).status = (admission current p).status) ∧
      ∀ proposals' : List (Proposal α), ValidIds proposals' →
        admitted current proposals' = admitted current proposals →
        ∃ decision', arbitrate current proposals' = .ok decision' ∧
          decision'.action = decision.action := by
  have hok : ∀ {l : List (Proposal α)}, ValidIds l →
      arbitrate current l = .ok (conclude current l (scan current l)) := by
    intro l hl
    have hunique : uniqueIds [] l = true := (uniqueIds_iff [] l).2 ⟨hl, fun _ _ => nofun⟩
    rw [arbitrate, if_neg hrun, if_neg (by simp [hunique])]
  have hright : ∀ l : List (Proposal α),
      Arbitrates current l (conclude current l (scan current l)) :=
    fun l => (scan_keeps current l).arbitrates
  refine ⟨_, hok hids, hright proposals, fun p _ conditions hperm => ?_,
    fun proposals' hids' hsame =>
      ⟨_, hok hids', (hright proposals').action_eq (hright proposals) hsame⟩⟩
  rw [admission_status, admission_status, statusOf_perm current p hperm]

/-- A snapshot, and proposals for it: one that a known obstacle prohibits, an emergency, and two
regular ones that differ in their utility only. -/
def runSnapshot : Snapshot := ⟨lit "run-1", 100, 2, 3⟩

/-- The proposals. -/
def runProposals : List (Proposal Nat) :=
  [⟨lit "blocked", lit "reach", lit "planner", 0, runSnapshot, 0, 100, .zero, false,
      [⟨lit "support", .unknown, []⟩, ⟨lit "path", .falseValue, lit "wall"⟩]⟩,
    ⟨lit "brake", lit "stop", lit "guard", 1, runSnapshot, 0, 1000, .zero, true, []⟩,
    ⟨lit "walk", lit "reach", lit "planner", 2, { runSnapshot with frame := 98 }, 2, 5,
      .finite 1, false, [⟨lit "path", .trueValue, []⟩]⟩,
    ⟨lit "run", lit "reach", lit "planner", 3, runSnapshot, 0, 5, .finite 2, false, []⟩]

/-- The one with the higher utility is chosen, with or without the prohibited one. -/
theorem arbitrate_spec_run :
    ∃ decision, arbitrate runSnapshot runProposals = .ok decision ∧
      Arbitrates runSnapshot runProposals decision ∧ decision.action = some 3 ∧
      ∃ decision', arbitrate runSnapshot runProposals.tail = .ok decision' ∧
        decision'.action = some 3 := by
  have hrun : runSnapshot.runId ≠ [] := by decide
  have hids : ValidIds runProposals := ⟨by decide, by decide⟩
  obtain ⟨decision, hok, hright, -, hother⟩ := arbitrate_spec hrun hids
  have haction : decision.action = some 3 := by
    obtain rfl := Except.ok.inj hok
    decide
  obtain ⟨decision', hok', heq⟩ := hother runProposals.tail ⟨by decide, by decide⟩ (by rfl)
  exact ⟨decision, hok, hright, haction, decision', hok', heq.trans haction⟩

end Jevt.Skills
