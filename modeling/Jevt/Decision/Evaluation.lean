import Jevt.Decision.Order

/-!
# The evaluation loop

`evaluate` looks the records of the dependencies up through an index table into the trace that is
still growing. On an ordered graph every such look-up finds the finished record of the right node
(`Visited`), so the visit of a node follows from the records of its own dependencies and from what
the deadline checks answered (`Visit.Follows`, `run_visited`). Everything else about an evaluation
is derived from that.
-/

namespace Jevt.DecisionGraph

open Library

variable {nodes : List GraphNode} {g : DecisionGraph} {snapshot : GraphSnapshot}
  {deadline : Option Int} {clock : Nat → Int}

/-! ## One node -/

/-- The result of a node, given the records of its dependencies and what `expired` answered before
and after its callbacks. -/
def nodeResult (snapshot : GraphSnapshot) (node : GraphNode) (dependencies : List GraphNodeTrace)
    (startExpired returnExpired : Bool) : GraphNodeResult :=
  match blocked node dependencies startExpired with
  | some result => fillSnapshot snapshot result
  | none => fillSnapshot snapshot (checkSnapshot snapshot
      (checkReturn returnExpired (callNode node ⟨snapshot, dependencies⟩).1))

/-- Reading the clock for the deadline: there is a reading exactly if there is a deadline, and it
is one of the readings taken meanwhile. -/
theorem readExpired_spec (deadline : Option Int) (clock : Nat → Int) (reads : Nat) :
    (readExpired deadline clock reads).1.isSome = deadline.isSome ∧
    reads ≤ (readExpired deadline clock reads).2 ∧
    ∀ now, (readExpired deadline clock reads).1 = some now →
      now = clock reads ∧ reads < (readExpired deadline clock reads).2 := by
  cases deadline with
  | none => exact ⟨rfl, Nat.le_refl _, nofun⟩
  | some limit =>
    exact ⟨rfl, Nat.le_succ _, fun now h => ⟨(Option.some.inj h).symm, Nat.lt_succ_self _⟩⟩

/-- What `settle` computes after some readings: the result of the node; the callbacks, unless the
node is blocked; with a deadline, a reading at the start, which is the next one, and another one
exactly after a success. -/
structure Settlement.Spec (snapshot : GraphSnapshot) (deadline : Option Int) (clock : Nat → Int)
    (node : GraphNode) (dependencies : List GraphNodeTrace) (reads : Nat) (s : Settlement) :
    Prop where
  result : s.result = nodeResult snapshot node dependencies
    (isExpired deadline s.startReading) (isExpired deadline s.returnReading)
  invoked : s.invoked = if (blocked node dependencies (isExpired deadline s.startReading)).isSome
    then [] else (callNode node ⟨snapshot, dependencies⟩).2
  started : s.startReading.isSome = deadline.isSome
  returned : s.returnReading.isSome = true ↔ deadline.isSome = true ∧
    blocked node dependencies (isExpired deadline s.startReading) = none ∧
    (callNode node ⟨snapshot, dependencies⟩).1.status = .succeeded
  later : reads ≤ s.reads
  startReading : ∀ now, s.startReading = some now → now = clock reads ∧ reads < s.reads
  returnReading : ∀ now, s.returnReading = some now →
    ∃ k, reads ≤ k ∧ k < s.reads ∧ now = clock k

/-- `settle` meets its specification. -/
theorem settle_spec (snapshot : GraphSnapshot) (node : GraphNode)
    (dependencies : List GraphNodeTrace) (deadline : Option Int) (clock : Nat → Int) (reads : Nat) :
    (settle node ⟨snapshot, dependencies⟩ deadline clock reads).Spec snapshot deadline clock node
      dependencies reads := by
  obtain ⟨hstart, hle, hreading⟩ := readExpired_spec deadline clock reads
  cases hblocked : blocked node dependencies
      (isExpired deadline (readExpired deadline clock reads).1) with
  | some result =>
    have hs : settle node ⟨snapshot, dependencies⟩ deadline clock reads =
        { result := fillSnapshot snapshot result
          startReading := (readExpired deadline clock reads).1
          reads := (readExpired deadline clock reads).2 } := by
      unfold settle
      simp only [hblocked]
    rw [hs]
    refine ⟨?_, ?_, hstart, ?_, hle, hreading, nofun⟩
    · simp only [nodeResult, hblocked]
    · simp only [hblocked, Option.isSome_some, if_true]
    · simp [hblocked]
  | none =>
    by_cases hsucceeded : (callNode node ⟨snapshot, dependencies⟩).1.status = .succeeded
    · obtain ⟨hreturn, hle', hreading'⟩ :=
        readExpired_spec deadline clock (readExpired deadline clock reads).2
      have hs : settle node ⟨snapshot, dependencies⟩ deadline clock reads =
          { result := fillSnapshot snapshot (checkSnapshot snapshot (checkReturn (isExpired deadline
              (readExpired deadline clock (readExpired deadline clock reads).2).1)
              (callNode node ⟨snapshot, dependencies⟩).1))
            startReading := (readExpired deadline clock reads).1
            invoked := (callNode node ⟨snapshot, dependencies⟩).2
            returnReading := (readExpired deadline clock (readExpired deadline clock reads).2).1
            reads := (readExpired deadline clock (readExpired deadline clock reads).2).2 } := by
        unfold settle
        simp only [hblocked, hsucceeded, if_true]
      rw [hs]
      refine ⟨?_, ?_, hstart, ?_, hle.trans hle', fun now h => ?_, fun now h => ?_⟩
      · simp only [nodeResult, hblocked]
      · simp only [hblocked, Option.isSome_none, Bool.false_eq_true, if_false]
      · simp [hblocked, hsucceeded, hreturn]
      · exact ⟨(hreading now h).1, (hreading now h).2.trans_le hle'⟩
      · exact ⟨_, hle, (hreading' now h).2, (hreading' now h).1⟩
    · have hs : settle node ⟨snapshot, dependencies⟩ deadline clock reads =
          { result := fillSnapshot snapshot (checkSnapshot snapshot (checkReturn (isExpired deadline
              none) (callNode node ⟨snapshot, dependencies⟩).1))
            startReading := (readExpired deadline clock reads).1
            invoked := (callNode node ⟨snapshot, dependencies⟩).2
            reads := (readExpired deadline clock reads).2 } := by
        unfold settle
        simp only [hblocked, hsucceeded, if_false]
      rw [hs]
      refine ⟨?_, ?_, hstart, ?_, hle, hreading, nofun⟩
      · simp only [nodeResult, hblocked]
      · simp only [hblocked, Option.isSome_none, Bool.false_eq_true, if_false]
      · simp [hsucceeded]

/-! ## The loop -/

/-- A visit follows the rule of its node, given the records of its dependencies. -/
structure Visit.Follows (snapshot : GraphSnapshot) (deadline : Option Int) (clock : Nat → Int)
    (node : GraphNode) (dependencies : List GraphNodeTrace) (v : Visit) : Prop where
  result : v.record.toGraphNodeResult = v.settled.result
  id : v.record.id = node.id
  declared : v.record.dependencies = node.dependencies
  settled : v.settled.Spec snapshot deadline clock node dependencies v.reads

/-- The variables of the loop when the nodes `done` have been visited, `visit i` being what the
visit of the node `i` did: the trace has their records in order, the index table finds them, the
edges are the declared ones, and every visit followed its rule on the records of its dependencies.
-/
structure Visited (g : DecisionGraph) (snapshot : GraphSnapshot) (deadline : Option Int)
    (clock : Nat → Int) (visit : Nat → Visit) (done : List Nat) (acc : Evaluation) : Prop where
  visits : acc.visits = done.map visit
  nodes : acc.nodes = done.map fun i => (visit i).record
  size : acc.traceIndices.length = g.nodes.length
  found : ∀ i ∈ done, acc.nodes[acc.traceIndices[i]!]? = some (visit i).record
  edges : acc.edges = done.flatMap fun i =>
    g.dependencyIndices[i]!.map fun p => ⟨g.nodes[p]!.id, g.nodes[i]!.id⟩
  follows : ∀ i ∈ done, (visit i).Follows snapshot deadline clock g.nodes[i]!
    (g.dependencyIndices[i]!.map fun p => (visit p).record)

/-- One more visit. -/
theorem Visited.visitNode {visit : Nat → Visit} {done : List Nat} {acc : Evaluation}
    (h : Visited g snapshot deadline clock visit done acc)
    (htop : Topological (fun i => g.dependencyIndices[i]!) done) {index : Nat}
    (hindex : index < g.nodes.length) (hnew : index ∉ done)
    (hpreds : ∀ p ∈ g.dependencyIndices[index]!, p ∈ done) :
    ∃ visit', Visited g snapshot deadline clock visit' (done ++ [index])
      (g.visitNode snapshot deadline clock acc index) := by
  obtain ⟨hvisits, hnodes, hsize, hfound, hedges, hfollows⟩ := h
  set dependencies := g.dependencyIndices[index]!.map fun p => acc.nodes[acc.traceIndices[p]!]!
    with hdependencies
  set settled := settle g.nodes[index]! ⟨snapshot, dependencies⟩ deadline clock (acc.reads + 1)
  set item : GraphNodeTrace :=
    { toGraphNodeResult := settled.result
      id := g.nodes[index]!.id
      dependencies := g.nodes[index]!.dependencies
      duration := clock settled.reads - clock acc.reads }
  set v : Visit := ⟨item, acc.reads + 1, settled⟩
  set visit' := Function.update visit index v
  have hsame : ∀ i ∈ done, visit' i = visit i := fun i hi =>
    Function.update_of_ne (ne_of_mem_of_not_mem hi hnew) _ _
  have hself : visit' index = v := Function.update_self ..
  have hrecords : ∀ ps : List Nat, (∀ p ∈ ps, p ∈ done) →
      ps.map (fun p => (visit' p).record) = ps.map fun p => (visit p).record := fun ps hps =>
    List.map_congr_left fun p hp => by rw [hsame p (hps p hp)]
  have hlookup : dependencies = g.dependencyIndices[index]!.map fun p => (visit' p).record := by
    rw [hrecords _ hpreds, hdependencies]
    refine List.map_congr_left fun p hp => ?_
    rw [getElem!_def, hfound p (hpreds p hp)]
  have hnext : g.visitNode snapshot deadline clock acc index =
      { nodes := acc.nodes ++ [item]
        edges := acc.edges ++ g.dependencyIndices[index]!.map fun p =>
          ⟨g.nodes[p]!.id, g.nodes[index]!.id⟩
        traceIndices := acc.traceIndices.set index acc.nodes.length
        reads := settled.reads + 1
        visits := acc.visits ++ [v] } := rfl
  rw [hnext]
  have hold : done.map visit' = done.map visit := List.map_congr_left hsame
  refine ⟨visit', ?_, ?_, ?_, fun i hi => ?_, ?_, fun i hi => ?_⟩
  · rw [List.map_append, List.map_singleton, hself, hold, hvisits]
  · rw [List.map_append, List.map_singleton, hself, hrecords done fun _ => id, hnodes]
  · rw [List.length_set, hsize]
  · rcases List.mem_append.1 hi with hi | hi
    · have hne : index ≠ i := (ne_of_mem_of_not_mem hi hnew).symm
      have hkeep : (acc.traceIndices.set index acc.nodes.length)[i]! = acc.traceIndices[i]! := by
        rw [getElem!_def, getElem!_def, List.getElem?_set_ne hne]
      obtain ⟨hlt, -⟩ := List.getElem?_eq_some_iff.1 (hfound i hi)
      rw [hkeep, List.getElem?_append_left hlt, hfound i hi, hsame i hi]
    · obtain rfl := List.mem_singleton.1 hi
      have hset : (acc.traceIndices.set i acc.nodes.length)[i]! = acc.nodes.length := by
        rw [getElem!_def, List.getElem?_set_self (hsize.symm ▸ hindex)]
      rw [hset, List.getElem?_concat_length, hself]
  · rw [List.flatMap_append, List.flatMap_singleton, hedges]
  · rcases List.mem_append.1 hi with hi | hi
    · rw [hsame i hi, hrecords _ fun p hp => htop.mem hi hp]
      exact hfollows i hi
    · obtain rfl := List.mem_singleton.1 hi
      rw [hself, ← hlookup]
      exact ⟨rfl, rfl, rfl, settle_spec _ _ _ _ _ _⟩

/-- **Every record of an evaluation follows from the records of its own dependencies.** -/
theorem run_visited (h : Ordered nodes g) (snapshot : GraphSnapshot) (deadline : Option Int)
    (clock : Nat → Int) :
    ∃ visit, Visited g snapshot deadline clock visit g.order (g.run snapshot deadline clock) := by
  have hfront : ∀ done rest : List Nat, g.order = done ++ rest →
      ∃ visit, Visited g snapshot deadline clock visit done
        (done.foldl (g.visitNode snapshot deadline clock)
          { traceIndices := List.replicate g.nodes.length 0, reads := 1 }) := by
    intro done
    induction done using List.reverseRecOn with
    | nil =>
      intro rest _
      exact ⟨fun _ => ⟨default, 0, { result := {}, startReading := none, reads := 0 }⟩,
        rfl, rfl, List.length_replicate, nofun, rfl, nofun⟩
    | append_singleton done index ih =>
      intro rest horder
      rw [List.append_assoc, List.singleton_append] at horder
      obtain ⟨visit, hvisited⟩ := ih (index :: rest) horder
      have hnodup : (done ++ index :: rest).Nodup :=
        horder ▸ h.perm.nodup_iff.2 List.nodup_range
      have hnew : index ∉ done := fun hmem =>
        List.disjoint_of_nodup_append hnodup hmem List.mem_cons_self
      have hindex : index < g.nodes.length := by
        rw [h.ofNodes]
        exact List.mem_range.1 (h.perm.mem_iff.1 (by rw [horder]; simp))
      rw [List.foldl_append, List.foldl_cons, List.foldl_nil]
      exact hvisited.visitNode (horder ▸ h.topological).of_append hindex hnew
        (h.topological done index rest horder)
  exact hfront g.order [] (List.append_nil _).symm

/-! ## The trace -/

/-- A list is the list of what its subscripts select. -/
theorem map_subscript_range {α : Type} [Inhabited α] (l : List α) :
    ((List.range l.length).map fun i => l[i]!) = l := by
  refine List.ext_getElem (by simp) fun i _ hi => ?_
  rw [List.getElem_map, List.getElem_range, getElem!_pos l i hi]

/-- The order consists of indices of nodes. -/
theorem Ordered.mem (h : Ordered nodes g) {i : Nat} (hi : i ∈ g.order) : nodes[i]! ∈ nodes := by
  have hlt : i < nodes.length := List.mem_range.1 (h.perm.mem_iff.1 hi)
  rw [getElem!_pos nodes i hlt]
  exact List.getElem_mem hlt

/-- The order rearranges the nodes. -/
theorem Ordered.map_order (h : Ordered nodes g) : (g.order.map fun i => nodes[i]!).Perm nodes := by
  conv_rhs => rw [← map_subscript_range nodes]
  exact h.perm.map _

/-- The declared edges. -/
def declaredEdges (nodes : List GraphNode) : List GraphEdge :=
  nodes.flatMap fun node => node.dependencies.map fun d => ⟨d, node.id⟩

/-- The declared edges of a well-formed list of nodes are different. -/
theorem WellFormed.nodup_declaredEdges (h : WellFormed nodes) : (declaredEdges nodes).Nodup := by
  refine List.nodup_flatMap.2 ⟨fun node hnode => ?_, ?_⟩
  · refine (h.once node hnode).map fun d d' heq => ?_
    exact (GraphEdge.mk.inj heq).1
  · refine (List.pairwise_map.1 h.nodup).imp fun {a b} hne => ?_
    refine List.disjoint_left.2 fun e ha hb => ?_
    obtain ⟨d, -, rfl⟩ := List.mem_map.1 ha
    obtain ⟨d', -, heq⟩ := List.mem_map.1 hb
    exact hne (GraphEdge.mk.inj heq).2.symm

section Trace

variable {visit : Nat → Visit} {acc : Evaluation}

/-- The record of a visited node has its identifier. -/
theorem Visited.record_id (h : Visited g snapshot deadline clock visit g.order acc)
    (hordered : Ordered nodes g) {i : Nat} (hi : i ∈ g.order) :
    (visit i).record.id = nodes[i]!.id := by
  rw [(h.follows i hi).id, hordered.ofNodes]

/-- The record of a visited node names the records of its predecessors. -/
theorem Visited.record_dependencies (h : Visited g snapshot deadline clock visit g.order acc)
    (hordered : Ordered nodes g) {i : Nat} (hi : i ∈ g.order) :
    (visit i).record.dependencies =
      g.dependencyIndices[i]!.map fun p => (visit p).record.id := by
  have hlt : i < nodes.length := List.mem_range.1 (hordered.perm.mem_iff.1 hi)
  rw [(h.follows i hi).declared, hordered.ofNodes, ← hordered.resolved i hlt]
  exact List.map_congr_left fun p hp =>
    (h.record_id hordered (hordered.topological.mem hi hp)).symm

/-- There is exactly one record for each node. -/
theorem Visited.ids_perm (h : Visited g snapshot deadline clock visit g.order acc)
    (hordered : Ordered nodes g) :
    (acc.nodes.map GraphNodeTrace.id).Perm (nodes.map GraphNode.id) := by
  have hids : acc.nodes.map GraphNodeTrace.id =
      (g.order.map fun i => nodes[i]!).map GraphNode.id := by
    rw [h.nodes, List.map_map, List.map_map]
    exact List.map_congr_left fun i hi => h.record_id hordered hi
  rw [hids]
  exact hordered.map_order.map _

/-- The edges are the declared ones. -/
theorem Visited.edges_perm (h : Visited g snapshot deadline clock visit g.order acc)
    (hordered : Ordered nodes g) : acc.edges.Perm (declaredEdges nodes) := by
  have hflat : acc.edges = (g.order.map fun i => nodes[i]!).flatMap fun node =>
      node.dependencies.map fun d => ⟨d, node.id⟩ := by
    rw [h.edges, List.flatMap_map]
    refine List.flatMap_congr fun i hi => ?_
    have hlt : i < nodes.length := List.mem_range.1 (hordered.perm.mem_iff.1 hi)
    rw [hordered.ofNodes, ← hordered.resolved i hlt, List.map_map]
    rfl
  rw [hflat]
  exact hordered.map_order.flatMap_right _

/-- A record comes after the records of the dependencies. -/
theorem Visited.after_dependencies (h : Visited g snapshot deadline clock visit g.order acc)
    (hordered : Ordered nodes g) (before : List GraphNodeTrace) (record : GraphNodeTrace)
    (after : List GraphNodeTrace) (hsplit : acc.nodes = before ++ record :: after) :
    ∀ d ∈ record.dependencies, d ∈ before.map GraphNodeTrace.id := by
  intro d hd
  rw [h.nodes] at hsplit
  obtain ⟨is, rest, horder, rfl, hrest⟩ := List.map_eq_append_iff.1 hsplit
  obtain ⟨i, is', rfl, rfl, -⟩ := List.map_eq_cons_iff.1 hrest
  rw [h.record_dependencies hordered (by rw [horder]; simp)] at hd
  obtain ⟨p, hp, rfl⟩ := List.mem_map.1 hd
  rw [List.map_map]
  exact List.mem_map.2 ⟨p, hordered.topological is i is' horder p hp, rfl⟩

end Trace

/-! ## The readings of the clock -/

/-- A turn of the loop adds a visit, whose readings lie between those before and after it. -/
theorem visitNode_advances (g : DecisionGraph) (snapshot : GraphSnapshot) (deadline : Option Int)
    (clock : Nat → Int) (acc : Evaluation) (index : Nat) :
    ∃ v, (g.visitNode snapshot deadline clock acc index).visits = acc.visits ++ [v] ∧
      acc.reads ≤ v.reads ∧ v.reads ≤ v.settled.reads ∧
      v.settled.reads ≤ (g.visitNode snapshot deadline clock acc index).reads :=
  ⟨_, rfl, Nat.le_succ _, (settle_spec _ _ _ _ _ _).later, Nat.le_succ _⟩

/-- The visits take their readings one after the other. -/
theorem run_chronological (g : DecisionGraph) (snapshot : GraphSnapshot) (deadline : Option Int)
    (clock : Nat → Int) :
    (g.run snapshot deadline clock).visits.Pairwise fun v w => v.settled.reads ≤ w.reads := by
  have hloop : ∀ (order : List Nat) (acc : Evaluation),
      acc.visits.Pairwise (fun v w => v.settled.reads ≤ w.reads) →
      (∀ v ∈ acc.visits, v.settled.reads ≤ acc.reads) →
      (order.foldl (g.visitNode snapshot deadline clock) acc).visits.Pairwise
        fun v w => v.settled.reads ≤ w.reads := by
    intro order
    induction order with
    | nil =>
      intro acc hpairwise _
      exact hpairwise
    | cons index rest ih =>
      intro acc hpairwise hbefore
      obtain ⟨v, hvisits, hle, hlater, hnext⟩ :=
        g.visitNode_advances snapshot deadline clock acc index
      refine ih _ ?_ fun w hw => ?_
      · rw [hvisits]
        refine List.pairwise_append.2 ⟨hpairwise, List.pairwise_singleton _ _, fun w hw v' hv => ?_⟩
        obtain rfl := List.mem_singleton.1 hv
        exact (hbefore w hw).trans hle
      · rw [hvisits] at hw
        rcases List.mem_append.1 hw with hw | hw
        · exact (hbefore w hw).trans (hle.trans (hlater.trans hnext))
        · obtain rfl := List.mem_singleton.1 hw
          exact hnext
  exact hloop g.order _ List.Pairwise.nil fun v hv => absurd hv List.not_mem_nil

end Jevt.DecisionGraph
