import Mathlib.Logic.Relation
import Jevt.Decision.Evaluation
import Jevt.Library.Keyed

/-!
# Fresh results

A success in a trace can be acted on: it was computed from the evaluated snapshot, in time, and
from successes only (`Fresh`, `evaluate_fresh`). The status of a node is rewritten at four places:
before its callbacks for the deadline and for its dependencies, and after them for the deadline and
for a foreign snapshot. What each of them leaves of a success is said once, for the result of one
node (`succeeded_spec`, `stale_of_expired`); the clock then carries a node found expired over to
all later ones, and the edges carry a success back to everything it required.
-/

namespace Jevt.DecisionGraph

open Library Relation

variable {nodes : List GraphNode} {g : DecisionGraph} {snapshot : GraphSnapshot}
  {deadline : Option Int} {clock : Nat → Int}

/-! ## What a success and an expiry mean for one node -/

/-- A loop over the dependencies that finds nothing has met successes only. -/
theorem succeeded_of_blockedBy_eq_none {records : List GraphNodeTrace}
    (h : blockedBy records = none) : ∀ r ∈ records, r.status = .succeeded := by
  induction records with
  | nil => exact nofun
  | cons r rest ih =>
    unfold blockedBy at h
    split_ifs at h with hr
    rw [List.forall_mem_cons]
    exact ⟨hr, ih h⟩

/-- What blocks a node is not a success. -/
theorem status_of_blocked {node : GraphNode} {records : List GraphNodeTrace} {expired : Bool}
    {result : GraphNodeResult} (h : blocked node records expired = some result) :
    result.status ≠ .succeeded := by
  have hloop : ∀ {rs : List GraphNodeTrace}, blockedBy rs = some result →
      result.status ≠ .succeeded := by
    intro rs
    induction rs with
    | nil => exact nofun
    | cons r rest ih =>
      unfold blockedBy
      split_ifs
      · exact ih
      · rintro ⟨⟩
        exact nofun
      · rintro ⟨⟩
        exact nofun
  unfold blocked at h
  split_ifs at h with hexpired hrequire
  · cases h
    exact nofun
  · exact hloop h

/-- A callback that succeeds is the evaluator. -/
theorem evaluate_mem_of_succeeded {node : GraphNode} {context : GraphContext}
    (h : (callNode node context).1.status = .succeeded) :
    Callback.evaluate ∈ (callNode node context).2 := by
  unfold callNode at h ⊢
  cases hcondition : node.condition with
  | none => exact List.mem_singleton_self _
  | some condition =>
    rw [hcondition] at h
    cases hresult : condition context with
    | returned holds =>
      cases holds with
      | true => simp [hresult]
      | false =>
        simp only [hresult] at h
        cases h
    | threw what =>
      simp only [hresult] at h
      cases h
    | threwOther =>
      simp only [hresult] at h
      cases h

/-- The identifier of the snapshot is filled in without a change of the status. -/
theorem status_fillSnapshot (result : GraphNodeResult) :
    (fillSnapshot snapshot result).status = result.status := by
  unfold fillSnapshot
  split <;> rfl

/-- A result that is left a success by the check for a foreign snapshot was one, and carries the
identifier of this one or none. -/
theorem checkSnapshot_succeeded {result : GraphNodeResult}
    (h : (checkSnapshot snapshot result).status = .succeeded) :
    checkSnapshot snapshot result = result ∧
      (result.snapshotId = [] ∨ result.snapshotId = snapshot.id) := by
  unfold checkSnapshot at h ⊢
  split_ifs at h ⊢ with hother
  refine ⟨rfl, or_iff_not_imp_left.2 fun hne => ?_⟩
  by_contra hforeign
  exact hother ⟨h, hne, hforeign⟩

/-- A result that is left a success by the check of the deadline was one, and in time. -/
theorem checkReturn_succeeded {result : GraphNodeResult} {expired : Bool}
    (h : (checkReturn expired result).status = .succeeded) :
    checkReturn expired result = result ∧ expired = false := by
  unfold checkReturn at h ⊢
  split_ifs at h ⊢ with hlate
  refine ⟨rfl, ?_⟩
  by_contra hexpired
  exact hlate ⟨h, by simpa using hexpired⟩

/-- **A node succeeds only** on this snapshot, without being blocked, through a success of its
callbacks that was not late. -/
theorem succeeded_spec {node : GraphNode} {records : List GraphNodeTrace}
    {startExpired returnExpired : Bool}
    (h : (nodeResult snapshot node records startExpired returnExpired).status = .succeeded) :
    (nodeResult snapshot node records startExpired returnExpired).snapshotId = snapshot.id ∧
      blocked node records startExpired = none ∧ returnExpired = false ∧
      (callNode node ⟨snapshot, records⟩).1.status = .succeeded := by
  unfold nodeResult at h ⊢
  cases hblocked : blocked node records startExpired with
  | some result =>
    simp only [hblocked, status_fillSnapshot] at h
    exact absurd h (status_of_blocked hblocked)
  | none =>
    simp only [hblocked, status_fillSnapshot] at h
    obtain ⟨hsame, hid⟩ := checkSnapshot_succeeded h
    rw [hsame] at h
    obtain ⟨hreturn, hexpired⟩ := checkReturn_succeeded h
    rw [hreturn] at h
    refine ⟨?_, rfl, hexpired, h⟩
    dsimp only
    rw [hsame, fillSnapshot]
    split_ifs with hempty
    · rfl
    · exact hid.resolve_left hempty

/-- **A node found expired is stale**, at its start or when its callbacks have succeeded. -/
theorem stale_of_expired {node : GraphNode} {records : List GraphNodeTrace}
    {startExpired returnExpired : Bool}
    (h : startExpired = true ∨ blocked node records startExpired = none ∧
      (callNode node ⟨snapshot, records⟩).1.status = .succeeded ∧ returnExpired = true) :
    (nodeResult snapshot node records startExpired returnExpired).status = .stale := by
  unfold nodeResult
  rcases h with rfl | ⟨hblocked, hsucceeded, rfl⟩
  · exact status_fillSnapshot _
  · rw [hblocked]
    have hlate : (checkReturn true (callNode node ⟨snapshot, records⟩).1).status = .stale := by
      rw [checkReturn, if_pos ⟨hsucceeded, rfl⟩]
    dsimp only
    rw [status_fillSnapshot, checkSnapshot, if_neg fun hother => ?_]
    · exact hlate
    · rw [hlate] at hother
      exact absurd hother.1 nofun

/-! ## The trace -/

/-- The readings of a clock that does not run backwards. -/
def Nondecreasing (clock : Nat → Int) : Prop :=
  ∀ i j, i ≤ j → clock i ≤ clock j

/-- The node `a` requires the node `p` to have succeeded. -/
def Requires (nodes : List GraphNode) (p a : Bytes) : Prop :=
  ∃ node ∈ nodes, node.id = a ∧ node.requireSuccessfulDependencies = true ∧ p ∈ node.dependencies

/-- A visit that found the deadline expired, when it compared the clock with it before or after the
callbacks. -/
def Visit.Expired (deadline : Option Int) (v : Visit) : Prop :=
  isExpired deadline v.settled.startReading = true ∨
    isExpired deadline v.settled.returnReading = true

/-- What the successes of a trace are worth: each is about the evaluated snapshot, its evaluator was
called and returned before the deadline, and everything it required, directly or through others,
succeeded on the same snapshot. With a deadline every visit compares the clock with it first; a
node that starts too late is not called, and from the first node that is found expired on every
node is stale. -/
structure Fresh (nodes : List GraphNode) (snapshot : GraphSnapshot) (deadline : Option Int)
    (trace : GraphTrace) (visits : List Visit) : Prop where
  records : trace.nodes = visits.map Visit.record
  snapshotId : ∀ r ∈ trace.nodes, r.status = .succeeded → r.snapshotId = snapshot.id
  returned : ∀ v ∈ visits, v.record.status = .succeeded → Callback.evaluate ∈ v.settled.invoked ∧
    ∀ limit, deadline = some limit → ∃ now, v.settled.returnReading = some now ∧ now < limit
  ancestors : ∀ r ∈ trace.nodes, r.status = .succeeded → ∀ p, TransGen (Requires nodes) p r.id →
    ∃ r' ∈ trace.nodes, r'.id = p ∧ r'.status = .succeeded ∧ r'.snapshotId = snapshot.id
  started : ∀ v ∈ visits, v.settled.startReading.isSome = deadline.isSome
  untouched : ∀ v ∈ visits, isExpired deadline v.settled.startReading = true →
    v.settled.invoked = []
  stale : ∀ before v after, visits = before ++ v :: after → v.Expired deadline →
    ∀ w ∈ v :: after, w.record.status = .stale

section Visits

variable {visit : Nat → Visit} {acc : Evaluation}

/-- The result of a visited node. -/
theorem Visit.Follows.status {node : GraphNode} {records : List GraphNodeTrace} {v : Visit}
    (h : v.Follows snapshot deadline clock node records) :
    v.record.toGraphNodeResult = nodeResult snapshot node records
      (isExpired deadline v.settled.startReading) (isExpired deadline v.settled.returnReading) :=
  h.result.trans h.settled.result

/-- A success called its evaluator and was read to be in time. -/
theorem Visit.Follows.returned {node : GraphNode} {records : List GraphNodeTrace} {v : Visit}
    (h : v.Follows snapshot deadline clock node records)
    (hsucceeded : v.record.status = .succeeded) : Callback.evaluate ∈ v.settled.invoked ∧
      ∀ limit, deadline = some limit →
        ∃ now, v.settled.returnReading = some now ∧ now < limit := by
  rw [h.status] at hsucceeded
  obtain ⟨-, hblocked, htime, hcall⟩ := succeeded_spec hsucceeded
  refine ⟨?_, ?_⟩
  · rw [h.settled.invoked, hblocked]
    exact evaluate_mem_of_succeeded hcall
  · rintro limit rfl
    obtain ⟨now, hnow⟩ := Option.isSome_iff_exists.1 (h.settled.returned.2 ⟨rfl, hblocked, hcall⟩)
    refine ⟨now, hnow, ?_⟩
    rw [hnow] at htime
    simpa [isExpired] using htime

/-- A visit that found the deadline expired left a stale record. -/
theorem Visit.Follows.stale {node : GraphNode} {records : List GraphNodeTrace} {v : Visit}
    (h : v.Follows snapshot deadline clock node records) (hexpired : v.Expired deadline) :
    v.record.status = .stale := by
  rw [h.status]
  refine stale_of_expired (hexpired.imp_right fun hreturn => ?_)
  have hreading : v.settled.returnReading.isSome = true := by
    cases hreading : v.settled.returnReading with
    | none =>
      rw [hreading] at hreturn
      cases deadline <;> cases hreturn
    | some now => rfl
  obtain ⟨-, hblocked, hcall⟩ := h.settled.returned.1 hreading
  exact ⟨hblocked, hcall, hreturn⟩

/-- Once a visit has found the deadline expired, a later visit finds so at its start. -/
theorem Visit.Follows.expired_later {node node' : GraphNode}
    {records records' : List GraphNodeTrace} {v w : Visit} (hclock : Nondecreasing clock)
    (hv : v.Follows snapshot deadline clock node records)
    (hw : w.Follows snapshot deadline clock node' records') (hlater : v.settled.reads ≤ w.reads)
    (hexpired : v.Expired deadline) : isExpired deadline w.settled.startReading = true := by
  cases deadline with
  | none => exact hexpired.elim nofun nofun
  | some limit =>
    -- both readings of `v` come before the first reading of `w`
    have hread : ∃ k, k < v.settled.reads ∧ limit ≤ clock k := by
      rcases hexpired with hstart | hreturn
      · cases hreading : v.settled.startReading with
        | none =>
          rw [hreading] at hstart
          cases hstart
        | some now =>
          obtain ⟨rfl, hlt⟩ := hv.settled.startReading now hreading
          rw [hreading] at hstart
          exact ⟨_, hlt, of_decide_eq_true hstart⟩
      · cases hreading : v.settled.returnReading with
        | none =>
          rw [hreading] at hreturn
          cases hreturn
        | some now =>
          obtain ⟨k, -, hlt, rfl⟩ := hv.settled.returnReading now hreading
          rw [hreading] at hreturn
          exact ⟨k, hlt, of_decide_eq_true hreturn⟩
    obtain ⟨k, hk, hlimit⟩ := hread
    obtain ⟨now, hnow⟩ := Option.isSome_iff_exists.1 hw.settled.started
    obtain ⟨rfl, -⟩ := hw.settled.startReading now hnow
    rw [hnow]
    exact decide_eq_true (hlimit.trans (hclock _ _ (hk.le.trans hlater)))

/-- A success has only successes among the nodes it requires. -/
theorem Visited.succeeded_of_requires (h : Visited g snapshot deadline clock visit g.order acc)
    (hordered : Ordered nodes g) (hnodup : (nodes.map GraphNode.id).Nodup) {p a : Bytes}
    (hrequires : Requires nodes p a)
    (ha : ∃ i ∈ g.order, (visit i).record.id = a ∧ (visit i).record.status = .succeeded) :
    ∃ i ∈ g.order, (visit i).record.id = p ∧ (visit i).record.status = .succeeded := by
  obtain ⟨node, hnode, rfl, hrequire, hp⟩ := hrequires
  obtain ⟨i, hi, hid, hsucceeded⟩ := ha
  obtain rfl : node = nodes[i]! :=
    eq_of_key_eq hnodup hnode (hordered.mem hi) (hid.symm.trans (h.record_id hordered hi))
  rw [(h.follows i hi).status, hordered.ofNodes] at hsucceeded
  obtain ⟨-, hblocked, -⟩ := succeeded_spec hsucceeded
  unfold blocked at hblocked
  rw [if_pos hrequire] at hblocked
  split_ifs at hblocked with hexpired
  rw [← hordered.ofNodes, ← (h.follows i hi).declared, h.record_dependencies hordered hi] at hp
  obtain ⟨j, hj, rfl⟩ := List.mem_map.1 hp
  exact ⟨j, hordered.topological.mem hi hj, rfl,
    succeeded_of_blockedBy_eq_none hblocked _ (List.mem_map_of_mem hj)⟩

end Visits

/-- **Successes are fresh**, whatever the callbacks do and however the time passes. -/
theorem evaluate_fresh (hg : create nodes = .ok g) (snapshot : GraphSnapshot)
    (deadline : Option Int) (hclock : Nondecreasing clock) :
    (snapshot.id ≠ [] → ∃ trace, g.evaluate snapshot deadline clock = .ok trace) ∧
    ∀ trace, g.evaluate snapshot deadline clock = .ok trace →
      Fresh nodes snapshot deadline trace (g.run snapshot deadline clock).visits := by
  obtain ⟨hwf, hordered⟩ := ordered_of_create hg
  obtain ⟨visit, h⟩ := run_visited hordered snapshot deadline clock
  refine ⟨fun hsnapshot => ⟨_, if_neg hsnapshot⟩, fun trace htrace => ?_⟩
  have hnodes : trace.nodes = g.order.map fun i => (visit i).record := by
    unfold evaluate at htrace
    split_ifs at htrace
    obtain rfl := Except.ok.inj htrace
    exact h.nodes
  have hvisits : ∀ v ∈ (g.run snapshot deadline clock).visits,
      ∃ i ∈ g.order, visit i = v := fun v hv => List.mem_map.1 (h.visits ▸ hv)
  have hsnapshotId : ∀ i ∈ g.order, (visit i).record.status = .succeeded →
      (visit i).record.snapshotId = snapshot.id := fun i hi hsucceeded => by
    rw [(h.follows i hi).status] at hsucceeded ⊢
    exact (succeeded_spec hsucceeded).1
  refine ⟨?_, fun r hr hsucceeded => ?_, fun v hv hsucceeded => ?_, fun r hr hsucceeded p hp => ?_,
    fun v hv => ?_, fun v hv hexpired => ?_, fun before v after hsplit hexpired w hw => ?_⟩
  · rw [hnodes, h.visits, List.map_map]
    rfl
  · obtain ⟨i, hi, rfl⟩ := List.mem_map.1 (hnodes ▸ hr)
    exact hsnapshotId i hi hsucceeded
  · obtain ⟨i, hi, rfl⟩ := hvisits v hv
    exact (h.follows i hi).returned hsucceeded
  · obtain ⟨i, hi, rfl⟩ := List.mem_map.1 (hnodes ▸ hr)
    have hall : ∃ j ∈ g.order, (visit j).record.id = p ∧ (visit j).record.status = .succeeded := by
      induction hp using TransGen.head_induction_on with
      | single hrequires =>
        exact h.succeeded_of_requires hordered hwf.nodup hrequires ⟨i, hi, rfl, hsucceeded⟩
      | head hrequires _ ih => exact h.succeeded_of_requires hordered hwf.nodup hrequires ih
    obtain ⟨j, hj, hid, hstatus⟩ := hall
    exact ⟨_, hnodes ▸ List.mem_map_of_mem hj, hid, hstatus, hsnapshotId j hj hstatus⟩
  · obtain ⟨i, hi, rfl⟩ := hvisits v hv
    exact (h.follows i hi).settled.started
  · obtain ⟨i, hi, rfl⟩ := hvisits v hv
    rw [(h.follows i hi).settled.invoked, hexpired]
    rfl
  · have hpairwise := run_chronological g snapshot deadline clock
    rw [hsplit] at hpairwise
    have hmem : ∀ w ∈ v :: after, w ∈ (g.run snapshot deadline clock).visits := fun w hw => by
      rw [hsplit]
      exact List.mem_append_right _ hw
    obtain ⟨i, hi, rfl⟩ := hvisits v (hmem v List.mem_cons_self)
    rcases List.mem_cons.1 hw with rfl | hafter
    · exact (h.follows i hi).stale hexpired
    · obtain ⟨j, hj, rfl⟩ := hvisits w (hmem w hw)
      have hlater := List.rel_of_pairwise_cons (List.pairwise_append.1 hpairwise).2.1 hafter
      exact (h.follows j hj).stale
        (.inl ((h.follows i hi).expired_later hclock (h.follows j hj) hlater hexpired))

/-- A node and another one that requires it. -/
def twoChecks : List GraphNode :=
  [{ id := lit "first", evaluate := some fun _ => .returned (.success {} (lit "ticket")) },
   { id := lit "second"
     dependencies := [lit "first"]
     evaluate := some fun _ => .returned (.success {}) }]

/-- The first of the two nodes returns in time, and the second starts too late. -/
theorem evaluate_fresh_late : ∃ trace,
    evaluate ⟨twoChecks, [[], [0]], [0, 1]⟩ ⟨lit "ticket", {}⟩ (some 10) (fun k => 3 * k) =
      .ok trace ∧
    Fresh twoChecks ⟨lit "ticket", {}⟩ (some 10) trace
      (run ⟨twoChecks, [[], [0]], [0, 1]⟩ ⟨lit "ticket", {}⟩ (some 10) fun k => 3 * k).visits ∧
    trace.nodes.map (fun r => r.status) = [.succeeded, .stale] := by
  have hg : create twoChecks = .ok ⟨twoChecks, [[], [0]], [0, 1]⟩ := rfl
  have hclock : Nondecreasing fun k => 3 * (k : Int) := fun i j hij => by
    show 3 * (i : Int) ≤ 3 * j
    omega
  obtain ⟨hexists, hfresh⟩ := evaluate_fresh hg ⟨lit "ticket", {}⟩ (some 10) hclock
  obtain ⟨trace, htrace⟩ := hexists (by decide)
  refine ⟨trace, htrace, hfresh trace htrace, ?_⟩
  obtain rfl := Except.ok.inj htrace
  rfl

end Jevt.DecisionGraph
