import Mathlib.Data.List.Perm.Basic
import Jevt.Decision.Evaluation
import Jevt.Library.Keyed

/-!
# The meaning of a decision graph

Without a deadline a graph means what its nodes mean, and a node means what it answers to the
records of its dependencies (`GraphNode.meaning`): it is blocked by the first dependency it
requires that has not succeeded, or else it answers through its condition and its evaluator.
`denote` unfolds that definition down to the nodes without dependencies, and an evaluation computes
it, in whatever order the nodes are visited (`evaluate_eq_denote`).

A record also holds the time its node took, and a callback can see it in the records it is given.
The times are therefore an argument of `denote`, and two evaluations are compared under the
condition that their times agree or that the callbacks do not look at them.
-/

namespace Jevt

open Library

/-! ## The recursive definition -/

/-- How a callback ends, as a result: an exception is an error. -/
def Outcome.result : Outcome GraphNodeResult → GraphNodeResult
  | .returned result => result
  | .threw what => .failure what
  | .threwOther => .failure (lit "non-standard exception in graph callback")

/-- What the callbacks of a node answer to their context: the evaluator answers, unless there is a
condition that does not hold or throws. A missing evaluator throws. -/
def GraphNode.answer (node : GraphNode) (context : GraphContext) : GraphNodeResult :=
  let evaluated :=
    (node.evaluate.elim (.threw (lit "bad_function_call")) fun evaluate => evaluate context).result
  match node.condition.elim (.returned true) fun condition => condition context with
  | .returned holds => if holds then evaluated else .skip (lit "condition is false")
  | .threw what => (Outcome.threw what).result
  | .threwOther => Outcome.threwOther.result

/-- What a node means, given the records of its dependencies: blocked by the first one without
success that it requires, or else its answer, which is stale when it comes from another snapshot. -/
def GraphNode.meaning (node : GraphNode) (snapshot : GraphSnapshot)
    (records : List GraphNodeTrace) : GraphNodeResult :=
  let current (result : GraphNodeResult) : GraphNodeResult :=
    { result with
      snapshotId := if result.snapshotId = [] then snapshot.id else result.snapshotId }
  match records.find? fun r => node.requireSuccessfulDependencies ∧ r.status ≠ .succeeded with
  | some r => current <|
    if r.status = .stale then .stale (lit "stale dependency: " ++ r.id)
    else .skip (lit "unavailable dependency: " ++ r.id)
  | none =>
    let answer := node.answer ⟨snapshot, records⟩
    if answer.status = .succeeded ∧ answer.snapshotId ≠ [] ∧ answer.snapshotId ≠ snapshot.id then
      { answer with
        status := .stale
        message := lit "output snapshot does not match evaluation snapshot" }
    else current answer

/-- The record of a node by recursion over the graph, down to a depth. -/
def denote (nodes : List GraphNode) (snapshot : GraphSnapshot) (duration : Bytes → Int) :
    Nat → Bytes → GraphNodeTrace
  | 0, id => { id }
  | depth + 1, id =>
    match nodes.find? fun node => node.id = id with
    | none => { id }
    | some node =>
      { toGraphNodeResult :=
          node.meaning snapshot (node.dependencies.map (denote nodes snapshot duration depth))
        id
        dependencies := node.dependencies
        duration := duration id }

/-- The time a trace records for a node. -/
def GraphTrace.durationOf (trace : GraphTrace) (id : Bytes) : Int :=
  ((trace.nodes.find? fun record => record.id = id).map GraphNodeTrace.duration).getD 0

/-- A record apart from the time its node took. -/
def GraphNodeTrace.untimed (record : GraphNodeTrace) : GraphNodeTrace :=
  { record with duration := 0 }

/-- The callbacks of the node do not look at the times of the records they are given. -/
def GraphNode.IgnoresDurations (node : GraphNode) : Prop :=
  ∀ snapshot (records records' : List GraphNodeTrace),
    records.map GraphNodeTrace.untimed = records'.map GraphNodeTrace.untimed →
    node.answer ⟨snapshot, records⟩ = node.answer ⟨snapshot, records'⟩

namespace DecisionGraph

variable {nodes : List GraphNode} {g : DecisionGraph} {snapshot : GraphSnapshot}

/-! ## The rule of a node -/

/-- The `try` block answers what the callbacks of its node answer. -/
theorem callNode_fst (node : GraphNode) (context : GraphContext) :
    (callNode node context).1 = node.answer context := by
  have hevaluate : callEvaluate node context = (node.evaluate.elim
      (.threw (lit "bad_function_call")) fun evaluate => evaluate context).result := by
    unfold callEvaluate
    cases hcallback : node.evaluate with
    | none => rfl
    | some evaluate =>
      rw [Option.elim_some]
      cases hresult : evaluate context <;> simp only [hresult, Outcome.result]
  unfold callNode GraphNode.answer
  rw [← hevaluate]
  cases hcallback : node.condition with
  | none => rfl
  | some condition =>
    rw [Option.elim_some]
    cases hresult : condition context with
    | returned holds => cases holds <;> simp [hresult]
    | threw what => simp [hresult, Outcome.result]
    | threwOther => simp [hresult, Outcome.result]

/-- The loop over the dependencies stops at the first one without success. -/
theorem blockedBy_eq (records : List GraphNodeTrace) :
    blockedBy records = (records.find? fun r => r.status ≠ .succeeded).map fun r =>
      if r.status = .stale then .stale (lit "stale dependency: " ++ r.id)
      else .skip (lit "unavailable dependency: " ++ r.id) := by
  induction records with
  | nil => rfl
  | cons r rest ih =>
    unfold blockedBy
    by_cases hr : r.status = .succeeded
    · simp [hr, ih]
    · rw [if_neg hr, List.find?_cons_of_pos (by simpa using hr), Option.map_some]
      split <;> rfl

/-- Without a deadline the result of a node is its meaning. -/
theorem nodeResult_eq_meaning (node : GraphNode) (records : List GraphNodeTrace) :
    nodeResult snapshot node records false false = node.meaning snapshot records := by
  have hfind : blocked node records false =
      (records.find? fun r => node.requireSuccessfulDependencies ∧ r.status ≠ .succeeded).map
        fun r => if r.status = .stale then .stale (lit "stale dependency: " ++ r.id)
          else .skip (lit "unavailable dependency: " ++ r.id) := by
    unfold blocked
    cases node.requireSuccessfulDependencies with
    | true => simp [blockedBy_eq]
    | false => simp
  unfold nodeResult GraphNode.meaning
  rw [hfind, callNode_fst]
  cases records.find? fun r => node.requireSuccessfulDependencies ∧ r.status ≠ .succeeded with
  | none =>
    simp only [Option.map_none, checkReturn, Bool.false_eq_true, and_false, if_false,
      checkSnapshot, fillSnapshot]
    split_ifs with hother hempty
    · exact absurd hempty hother.2.1
    all_goals rfl
  | some r =>
    simp only [Option.map_some, fillSnapshot]
    split_ifs <;> rfl

/-! ## Every record has its meaning -/

/-- What a trace says when it is right about a list of nodes: it has one record for each node,
after the records of the dependencies, with the value the recursive definition gives it; and it
has the declared edges, each once. -/
structure Computes (nodes : List GraphNode) (snapshot : GraphSnapshot) (trace : GraphTrace) :
    Prop where
  snapshotId : trace.snapshotId = snapshot.id
  records : (trace.nodes.map GraphNodeTrace.id).Perm (nodes.map GraphNode.id)
  topological : ∀ before record after, trace.nodes = before ++ record :: after →
    ∀ d ∈ record.dependencies, d ∈ before.map GraphNodeTrace.id
  meaning : ∀ record ∈ trace.nodes, ∀ depth ≥ nodes.length,
    record = denote nodes snapshot trace.durationOf depth record.id
  edges : ∀ e, e ∈ trace.edges ↔ ∃ node ∈ nodes, ∃ d ∈ node.dependencies, e = ⟨d, node.id⟩
  edgesOnce : trace.edges.Nodup

/-- The time of a record of a trace without repeated identifiers. -/
theorem durationOf_eq {trace : GraphTrace} (h : (trace.nodes.map GraphNodeTrace.id).Nodup)
    {record : GraphNodeTrace} (hmem : record ∈ trace.nodes) :
    trace.durationOf record.id = record.duration := by
  unfold GraphTrace.durationOf
  rw [find?_eq_of_key h hmem]
  rfl

/-- A record that is looked up in a trace without repeated identifiers is found. -/
theorem at_eq_ok {trace : GraphTrace} (h : (trace.nodes.map GraphNodeTrace.id).Nodup)
    {record : GraphNodeTrace} (hmem : record ∈ trace.nodes) : trace.at record.id = .ok record := by
  unfold GraphTrace.at
  rw [find?_eq_of_key h hmem]

/-- Without a deadline the record of a visited node has its meaning, at every depth the graph does
not exceed. -/
theorem Visited.record_eq_denote {visit : Nat → Visit} {clock : Nat → Int} {acc : Evaluation}
    (h : Visited g snapshot none clock visit g.order acc) (hordered : Ordered nodes g)
    (hnodup : (nodes.map GraphNode.id).Nodup) {duration : Bytes → Int}
    (hduration : ∀ i ∈ g.order, duration (visit i).record.id = (visit i).record.duration) :
    ∀ i ∈ g.order, ∀ depth ≥ g.order.length,
      (visit i).record = denote nodes snapshot duration depth (visit i).record.id := by
  refine hordered.topological.induction_depth fun i hi depth ih => ?_
  have hdeclared : nodes[i]!.dependencies = (visit i).record.dependencies := by
    rw [(h.follows i hi).declared, hordered.ofNodes]
  have hfind : nodes.find? (fun node => node.id = (visit i).record.id) = some nodes[i]! := by
    rw [h.record_id hordered hi]
    exact find?_eq_of_key hnodup (hordered.mem hi)
  have hgiven : nodes[i]!.dependencies.map (denote nodes snapshot duration depth) =
      g.dependencyIndices[i]!.map fun p => (visit p).record := by
    rw [hdeclared, h.record_dependencies hordered hi, List.map_map]
    exact List.map_congr_left fun p hp => (ih p hp).symm
  have hresult : (visit i).record.toGraphNodeResult = nodes[i]!.meaning snapshot
      (g.dependencyIndices[i]!.map fun p => (visit p).record) := by
    rw [(h.follows i hi).result, (h.follows i hi).settled.result, hordered.ofNodes]
    exact nodeResult_eq_meaning _ _
  simp only [denote, hfind, hgiven, hduration i hi]
  rw [← hresult, hdeclared]

/-- **An evaluation without a deadline computes the recursive definition.** -/
theorem evaluate_computes (hg : create nodes = .ok g) (hsnapshot : snapshot.id ≠ [])
    (clock : Nat → Int) :
    ∃ trace, g.evaluate snapshot none clock = .ok trace ∧ Computes nodes snapshot trace := by
  obtain ⟨hwf, hordered⟩ := ordered_of_create hg
  obtain ⟨visit, h⟩ := run_visited hordered snapshot none clock
  set final := g.run snapshot none clock
  set trace : GraphTrace := ⟨snapshot.id, final.nodes, final.edges, clock final.reads - clock 0⟩
  have hevaluate : g.evaluate snapshot none clock = .ok trace := by
    unfold evaluate
    rw [if_neg hsnapshot]
  have htrace : trace.nodes = g.order.map fun i => (visit i).record := h.nodes
  have hrecords := h.ids_perm hordered
  have hedges := h.edges_perm hordered
  have hnodup : (trace.nodes.map GraphNodeTrace.id).Nodup := hrecords.nodup_iff.2 hwf.nodup
  have hduration : ∀ i ∈ g.order,
      trace.durationOf (visit i).record.id = (visit i).record.duration := fun i hi =>
    durationOf_eq hnodup (htrace ▸ List.mem_map_of_mem hi)
  have hlength : g.order.length = nodes.length := by
    rw [hordered.perm.length_eq, List.length_range]
  refine ⟨trace, hevaluate, rfl, hrecords, h.after_dependencies hordered, fun record hrecord => ?_,
    fun e => ?_, hedges.nodup_iff.2 hwf.nodup_declaredEdges⟩
  · obtain ⟨i, hi, rfl⟩ := List.mem_map.1 (htrace ▸ hrecord)
    rw [← hlength]
    exact h.record_eq_denote hordered hwf.nodup hduration i hi
  · rw [hedges.mem_iff, declaredEdges, List.mem_flatMap]
    simp only [List.mem_map, eq_comm]

/-! ## The order of declaration -/

/-- Being well formed does not depend on the order of the nodes. -/
theorem WellFormed.perm {nodes' : List GraphNode} (h : WellFormed nodes)
    (hperm : nodes.Perm nodes') : WellFormed nodes' := by
  have hmem : ∀ {node}, node ∈ nodes' ↔ node ∈ nodes := hperm.symm.mem_iff
  have hfeeds : Feeds nodes' = Feeds nodes := by
    funext p a
    simp only [Feeds, hmem]
  refine ⟨fun node hnode => h.named node (hmem.1 hnode),
    fun node hnode => h.evaluator node (hmem.1 hnode),
    (hperm.map GraphNode.id).nodup_iff.1 h.nodup, fun node hnode d hd => ?_,
    fun node hnode => h.once node (hmem.1 hnode), hfeeds ▸ h.acyclic⟩
  obtain ⟨producer, hproducer, hid⟩ := h.declared node (hmem.1 hnode) d hd
  exact ⟨producer, hmem.2 hproducer, hid⟩

/-- The recursive definition does not depend on the order of the nodes. -/
theorem denote_perm {nodes' : List GraphNode} (hnodup : (nodes.map GraphNode.id).Nodup)
    (hperm : nodes.Perm nodes') (duration : Bytes → Int) :
    ∀ depth id, denote nodes' snapshot duration depth id =
      denote nodes snapshot duration depth id := by
  intro depth
  induction depth with
  | zero => exact fun _ => rfl
  | succ depth ih =>
    intro id
    have hsame : denote nodes' snapshot duration depth = denote nodes snapshot duration depth :=
      funext ih
    simp only [denote, hsame, find?_perm hnodup hperm]

/-- A search that ignores the times finds the same in records that differ in the times only. -/
theorem find?_untimed {p : GraphNodeTrace → Bool} (hp : ∀ r, p r.untimed = p r)
    {records records' : List GraphNodeTrace}
    (h : records.map GraphNodeTrace.untimed = records'.map GraphNodeTrace.untimed) :
    records.find? p = none ∧ records'.find? p = none ∨ ∃ r r', records.find? p = some r ∧
      records'.find? p = some r' ∧ r.untimed = r'.untimed := by
  have hfind : ∀ rs : List GraphNodeTrace,
      (rs.find? p).map GraphNodeTrace.untimed = (rs.map GraphNodeTrace.untimed).find? p :=
    fun rs => by rw [List.find?_map, show p ∘ GraphNodeTrace.untimed = p from funext hp]
  have hsame := hfind records
  rw [h, ← hfind] at hsame
  cases hr : records.find? p with
  | none =>
    rw [hr, Option.map_none] at hsame
    exact .inl ⟨rfl, Option.map_eq_none_iff.1 hsame.symm⟩
  | some r =>
    rw [hr, Option.map_some] at hsame
    obtain ⟨r', hr', huntimed⟩ := Option.map_eq_some_iff.1 hsame.symm
    exact .inr ⟨r, r', rfl, hr', huntimed.symm⟩

/-- The meaning of a node does not depend on the times when its callbacks do not. -/
theorem meaning_untimed {node : GraphNode} (hnode : node.IgnoresDurations)
    (snapshot : GraphSnapshot) {records records' : List GraphNodeTrace}
    (h : records.map GraphNodeTrace.untimed = records'.map GraphNodeTrace.untimed) :
    node.meaning snapshot records = node.meaning snapshot records' := by
  unfold GraphNode.meaning
  rw [hnode snapshot records records' h]
  rcases find?_untimed
    (p := fun r => node.requireSuccessfulDependencies ∧ r.status ≠ .succeeded) (fun _ => rfl) h
    with ⟨hnone, hnone'⟩ | ⟨r, r', hr, hr', huntimed⟩
  · rw [hnone, hnone']
  · have hstatus : r.status = r'.status := congrArg (fun r => r.status) huntimed
    have hid : r.id = r'.id := congrArg (fun r => r.id) huntimed
    rw [hr, hr']
    simp only [hstatus, hid]

/-- When no callback looks at the times, the recursive definition depends on them only in the times
it records. -/
theorem denote_untimed (hnodes : ∀ node ∈ nodes, node.IgnoresDurations)
    (duration duration' : Bytes → Int) :
    ∀ depth id, (denote nodes snapshot duration depth id).untimed =
      (denote nodes snapshot duration' depth id).untimed := by
  intro depth
  induction depth with
  | zero => exact fun _ => rfl
  | succ depth ih =>
    intro id
    cases hfind : nodes.find? fun node => node.id = id with
    | none => simp only [denote, hfind]
    | some node =>
      have hgiven :
          (node.dependencies.map (denote nodes snapshot duration depth)).map
            GraphNodeTrace.untimed =
          (node.dependencies.map (denote nodes snapshot duration' depth)).map
            GraphNodeTrace.untimed := by
        rw [List.map_map, List.map_map]
        exact List.map_congr_left fun d _ => ih d
      have hignores := hnodes node (List.mem_of_find?_eq_some hfind)
      have hmeaning := meaning_untimed hignores snapshot hgiven
      simp only [denote, hfind, GraphNodeTrace.untimed, hmeaning]

/-- Two right traces of the same nodes, declared in two orders, agree on every node up to the times,
when these agree or no callback looks at them. -/
theorem Computes.untimed_eq {nodes' : List GraphNode} {trace trace' : GraphTrace}
    (h : Computes nodes snapshot trace) (h' : Computes nodes' snapshot trace')
    (hnodup : (nodes.map GraphNode.id).Nodup) (hperm : nodes.Perm nodes')
    (htimes : trace'.durationOf = trace.durationOf ∨ ∀ node ∈ nodes, node.IgnoresDurations)
    {node : GraphNode} (hnode : node ∈ nodes) :
    ∃ record record', trace.at node.id = .ok record ∧ trace'.at node.id = .ok record' ∧
      record.untimed = record'.untimed := by
  have hnodup' := (hperm.map GraphNode.id).nodup_iff.1 hnodup
  obtain ⟨record, hrecord, hid⟩ := List.mem_map.1
    (h.records.mem_iff.2 (List.mem_map_of_mem (f := GraphNode.id) hnode))
  obtain ⟨record', hrecord', hid'⟩ := List.mem_map.1
    (h'.records.mem_iff.2 (List.mem_map_of_mem (f := GraphNode.id) (hperm.mem_iff.1 hnode)))
  refine ⟨record, record', hid ▸ at_eq_ok (h.records.nodup_iff.2 hnodup) hrecord,
    hid' ▸ at_eq_ok (h'.records.nodup_iff.2 hnodup') hrecord', ?_⟩
  rw [h.meaning record hrecord _ le_rfl, h'.meaning record' hrecord' _ le_rfl, hid, hid',
    denote_perm hnodup hperm, ← hperm.length_eq]
  rcases htimes with htimes | hignore
  · rw [htimes]
  · exact denote_untimed hignore _ _ _ _

/-- **An evaluation without a deadline computes the meaning of the graph**: it succeeds with a trace
that is right, and the records do not depend on the order in which the nodes were declared. -/
theorem evaluate_eq_denote (hg : create nodes = .ok g) (hsnapshot : snapshot.id ≠ [])
    (clock : Nat → Int) :
    ∃ trace, g.evaluate snapshot none clock = .ok trace ∧ Computes nodes snapshot trace ∧
      ∀ nodes', nodes.Perm nodes' → ∃ g', create nodes' = .ok g' ∧ ∀ clock', ∃ trace',
        g'.evaluate snapshot none clock' = .ok trace' ∧ Computes nodes' snapshot trace' ∧
        ((trace'.durationOf = trace.durationOf ∨ ∀ node ∈ nodes, node.IgnoresDurations) →
          ∀ node ∈ nodes, ∃ record record', trace.at node.id = .ok record ∧
            trace'.at node.id = .ok record' ∧ record.untimed = record'.untimed) := by
  have hwf := (ordered_of_create hg).1
  obtain ⟨trace, htrace, hcomputes⟩ := evaluate_computes hg hsnapshot clock
  refine ⟨trace, htrace, hcomputes, fun nodes' hperm => ?_⟩
  obtain ⟨g', hg'⟩ := exists_create_of_wellFormed (hwf.perm hperm)
  refine ⟨g', hg', fun clock' => ?_⟩
  obtain ⟨trace', htrace', hcomputes'⟩ := evaluate_computes hg' hsnapshot clock'
  exact ⟨trace', htrace', hcomputes', fun htimes _ hnode =>
    hcomputes.untimed_eq hcomputes' hwf.nodup hperm htimes hnode⟩

/-- An evaluator that passes the output of a dependency on. -/
def passOn (context : GraphContext) : Outcome GraphNodeResult :=
  match context.dependencies.find? fun r => r.id = lit "source" with
  | some r => .returned (.success r.output)
  | none => .threw (lit "undeclared graph dependency: source")

/-- Two nodes, the second of which passes the output of the first on. -/
def relay : List GraphNode :=
  [{ id := lit "source"
     evaluate := some fun context => .returned (.success context.snapshot.input) },
   { id := lit "relay", dependencies := [lit "source"], evaluate := some passOn }]

/-- The callbacks of the two nodes do not look at the times. -/
theorem relay_ignoresDurations : ∀ node ∈ relay, node.IgnoresDurations := by
  intro node hnode snapshot records records' h
  rcases List.mem_cons.1 hnode with rfl | hnode
  · rfl
  · obtain rfl := List.mem_singleton.1 hnode
    have hpass : passOn ⟨snapshot, records⟩ = passOn ⟨snapshot, records'⟩ := by
      unfold passOn
      rcases find?_untimed (p := fun r => r.id = lit "source") (fun _ => rfl) h
        with ⟨hnone, hnone'⟩ | ⟨r, r', hr, hr', huntimed⟩
      · rw [hnone, hnone']
      · have houtput : r.output = r'.output := congrArg (fun r => r.output) huntimed
        simp only [hr, hr', houtput]
    exact congrArg Outcome.result hpass

/-- The two nodes may be declared in either order. -/
theorem evaluate_eq_denote_relay : ∃ trace g' trace',
    DecisionGraph.evaluate ⟨relay, [[], [0]], [0, 1]⟩ ⟨lit "ticket", ⟨lit "7", .json⟩⟩ none
      (fun k => k) = .ok trace ∧
    create relay.reverse = .ok g' ∧
    g'.evaluate ⟨lit "ticket", ⟨lit "7", .json⟩⟩ none (fun k => 3 * k) = .ok trace' ∧
    ∀ node ∈ relay, ∃ record record', trace.at node.id = .ok record ∧
      trace'.at node.id = .ok record' ∧ record.untimed = record'.untimed := by
  have hg : create relay = .ok ⟨relay, [[], [0]], [0, 1]⟩ := rfl
  have hsnapshot : (⟨lit "ticket", ⟨lit "7", .json⟩⟩ : GraphSnapshot).id ≠ [] := by decide
  obtain ⟨trace, htrace, -, hperm⟩ := evaluate_eq_denote hg hsnapshot fun k => k
  obtain ⟨g', hg', hclock⟩ := hperm relay.reverse (List.reverse_perm relay).symm
  obtain ⟨trace', htrace', -, hsame⟩ := hclock fun k => 3 * k
  exact ⟨trace, g', trace', htrace, hg', htrace', hsame (.inr relay_ignoresDurations)⟩

end DecisionGraph

end Jevt
