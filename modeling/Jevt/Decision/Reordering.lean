import Jevt.Decision.Meaning

/-!
# The order of dependencies

The dependencies of a node are a list, and a node that requires their success is blocked by the
first of them without it: it is stale if that one is stale, and skipped otherwise. A node that has
a stale predecessor and another one without success is therefore stale or skipped as they happen to
be listed (`mixed_predecessors_merging`). Apart from such nodes the order does not matter: when
callbacks find their dependencies by identifier and look at status, output and snapshot, every node
has the same status in every order of the lists exactly if no node is reached with such a pair of
predecessors (`statuses_order_free_iff`).

What a callback looks at in a record is a function `view` of it. The argument is the same for
every view, as long as the records a node can be blocked with look the same
(`Unambiguous.view_eq`).
-/

namespace Jevt

open Library

/-- The callbacks of the node find the records of the dependencies by identifier and look at the
`view` of the results in them. -/
def GraphNode.ReadsById {V : Type*} (view : GraphNodeResult → V) (node : GraphNode) : Prop :=
  ∀ snapshot (records records' : List GraphNodeTrace),
    (∀ id, ((records.find? fun r => r.id = id).map fun r => view r.toGraphNodeResult) =
      (records'.find? fun r => r.id = id).map fun r => view r.toGraphNodeResult) →
    node.answer ⟨snapshot, records⟩ = node.answer ⟨snapshot, records'⟩

/-- A result apart from its message. -/
def GraphNodeResult.unworded (result : GraphNodeResult) : GraphStatus × StateValue × Bytes :=
  (result.status, result.output, result.snapshotId)

namespace DecisionGraph

variable {nodes nodes' : List GraphNode} {g : DecisionGraph} {snapshot : GraphSnapshot}

/-- The nodes with their dependencies listed anew. -/
def reorder (order : Bytes → List Bytes) (nodes : List GraphNode) : List GraphNode :=
  nodes.map fun node => { node with dependencies := order node.id }

/-- The record of a node by the recursive definition, at a depth no dependency exceeds. -/
def recordOf (nodes : List GraphNode) (snapshot : GraphSnapshot) (duration : Bytes → Int)
    (id : Bytes) : GraphNodeTrace :=
  denote nodes snapshot duration nodes.length id

/-! ## The recursive definition unfolds -/

/-- Induction over the nodes of an accepted list, from the dependencies to the consumers, for a
property of identifiers and depths. -/
theorem induction_nodes_depth (hg : create nodes = .ok g) {P : Nat → Bytes → Prop}
    (hstep : ∀ node ∈ nodes, ∀ depth, (∀ d ∈ node.dependencies, P depth d) →
      P (depth + 1) node.id) :
    ∀ node ∈ nodes, ∀ depth ≥ nodes.length, P depth node.id := by
  have hordered := (ordered_of_create hg).2
  have hlength : g.order.length = nodes.length := by
    rw [hordered.perm.length_eq, List.length_range]
  have hall : ∀ i ∈ g.order, ∀ depth ≥ g.order.length, P depth nodes[i]!.id := by
    refine hordered.topological.induction_depth fun i hi depth ih => ?_
    refine hstep nodes[i]! (hordered.mem hi) depth fun d hd => ?_
    have hlt : i < nodes.length := List.mem_range.1 (hordered.perm.mem_iff.1 hi)
    rw [← hordered.resolved i hlt] at hd
    obtain ⟨p, hp, rfl⟩ := List.mem_map.1 hd
    exact ih p hp
  intro node hnode depth hdepth
  obtain ⟨i, hi⟩ := List.mem_iff_getElem?.1 hnode
  obtain ⟨hlt, rfl⟩ := List.getElem?_eq_some_iff.1 hi
  have hmem : i ∈ g.order := hordered.perm.mem_iff.2 (List.mem_range.2 hlt)
  have := hall i hmem depth (hlength ▸ hdepth)
  rwa [getElem!_pos nodes i hlt] at this

/-- The definition unfolds at a node of an accepted list. -/
theorem recordOf_eq (hg : create nodes = .ok g) (duration : Bytes → Int) {node : GraphNode}
    (hnode : node ∈ nodes) :
    recordOf nodes snapshot duration node.id =
      { toGraphNodeResult :=
          node.meaning snapshot (node.dependencies.map (recordOf nodes snapshot duration))
        id := node.id
        dependencies := node.dependencies
        duration := duration node.id } := by
  have hnodup := (ordered_of_create hg).1.nodup
  have hunfold : ∀ node ∈ nodes, ∀ depth, denote nodes snapshot duration (depth + 1) node.id =
      { toGraphNodeResult :=
          node.meaning snapshot (node.dependencies.map (denote nodes snapshot duration depth))
        id := node.id
        dependencies := node.dependencies
        duration := duration node.id } := by
    intro node hnode depth
    simp only [denote, find?_eq_of_key hnodup hnode]
  -- One more level changes nothing once the depth covers the graph.
  have hstable : ∀ node ∈ nodes, ∀ depth ≥ nodes.length,
      denote nodes snapshot duration depth node.id =
        denote nodes snapshot duration (depth + 1) node.id := by
    refine induction_nodes_depth (P := fun depth id => denote nodes snapshot duration depth id =
      denote nodes snapshot duration (depth + 1) id) hg fun node hnode depth ih => ?_
    rw [hunfold node hnode, hunfold node hnode, List.map_congr_left ih]
  rw [recordOf, hstable node hnode _ le_rfl, hunfold node hnode]
  rfl

/-- The result of a node of an accepted list is its meaning. -/
theorem result_recordOf (hg : create nodes = .ok g) (duration : Bytes → Int) {node : GraphNode}
    (hnode : node ∈ nodes) :
    (recordOf nodes snapshot duration node.id).toGraphNodeResult =
      node.meaning snapshot (node.dependencies.map (recordOf nodes snapshot duration)) := by
  rw [recordOf_eq hg duration hnode]

/-- The record of a node has its identifier. -/
theorem recordOf_id (hg : create nodes = .ok g) (duration : Bytes → Int) {node : GraphNode}
    (hnode : node ∈ nodes) : (recordOf nodes snapshot duration node.id).id = node.id := by
  rw [recordOf_eq hg duration hnode]

/-- The record of a dependency has the identifier of the dependency. -/
theorem recordOf_id_of_mem (hg : create nodes = .ok g) (duration : Bytes → Int) {node : GraphNode}
    (hnode : node ∈ nodes) {d : Bytes} (hd : d ∈ node.dependencies) :
    (recordOf nodes snapshot duration d).id = d := by
  obtain ⟨producer, hproducer, rfl⟩ := (ordered_of_create hg).1.declared node hnode d hd
  exact recordOf_id hg duration hproducer

/-- Looking a record up by its identifier in the records of a list of identifiers. -/
theorem find?_map_id {record : Bytes → GraphNodeTrace} {ds : List Bytes}
    (hid : ∀ d ∈ ds, (record d).id = d) (id : Bytes) :
    (ds.map record).find? (fun r => r.id = id) = if id ∈ ds then some (record id) else none := by
  induction ds with
  | nil => rfl
  | cons d ds ih =>
    obtain ⟨hd, hds⟩ := List.forall_mem_cons.1 hid
    by_cases heq : d = id
    · subst heq
      rw [List.map_cons, List.find?_cons_of_pos (by simpa using hd), if_pos List.mem_cons_self]
    · rw [List.map_cons, List.find?_cons_of_neg (by simpa [hd] using heq), ih hds]
      simp [Ne.symm heq]

/-! ## What blocks a node -/

/-- The result of a node that is blocked by a record. -/
def blockedWith (snapshot : GraphSnapshot) (r : GraphNodeTrace) : GraphNodeResult :=
  { status := if r.status = .stale then .stale else .skipped
    message :=
      if r.status = .stale then lit "stale dependency: " ++ r.id
      else lit "unavailable dependency: " ++ r.id
    snapshotId := snapshot.id }

/-- Whether a record blocks a node. -/
def blocks (node : GraphNode) (r : GraphNodeTrace) : Bool :=
  node.requireSuccessfulDependencies ∧ r.status ≠ .succeeded

/-- A node that finds a record without success is blocked by the first. -/
theorem meaning_of_blocks {node : GraphNode} {records : List GraphNodeTrace} {r : GraphNodeTrace}
    (h : records.find? (blocks node) = some r) :
    node.meaning snapshot records = blockedWith snapshot r := by
  have h' : (records.find? fun r =>
      node.requireSuccessfulDependencies ∧ r.status ≠ .succeeded) = some r := h
  unfold GraphNode.meaning
  rw [h']
  unfold blockedWith GraphNodeResult.stale GraphNodeResult.skip
  split_ifs <;> simp_all

/-- Two nodes that are not blocked mean the same when they answer the same. -/
theorem meaning_of_not_blocks {node node' : GraphNode} {records records' : List GraphNodeTrace}
    (h : records.find? (blocks node) = none) (h' : records'.find? (blocks node') = none)
    (hanswer : node.answer ⟨snapshot, records⟩ = node'.answer ⟨snapshot, records'⟩) :
    node.meaning snapshot records = node'.meaning snapshot records' := by
  have hnone : (records.find? fun r =>
      node.requireSuccessfulDependencies ∧ r.status ≠ .succeeded) = none := h
  have hnone' : (records'.find? fun r =>
      node'.requireSuccessfulDependencies ∧ r.status ≠ .succeeded) = none := h'
  unfold GraphNode.meaning
  rw [hnone, hnone', hanswer]

/-! ## Rearranged dependencies -/

/-- Every node of the first list is in the second with its dependencies in some order. -/
def Rearranges (nodes nodes' : List GraphNode) : Prop :=
  ∀ node ∈ nodes, ∃ ds : List Bytes, ds.Perm node.dependencies ∧
    { node with dependencies := ds } ∈ nodes'

/-- All records without success that a node finds block it alike, as far as `view` shows. -/
def Unambiguous {V : Type*} (view : GraphNodeResult → V) (nodes : List GraphNode)
    (snapshot : GraphSnapshot) (record : Bytes → GraphNodeTrace) : Prop :=
  ∀ node ∈ nodes, ∀ d ∈ node.dependencies, ∀ d' ∈ node.dependencies,
    blocks node (record d) → blocks node (record d') →
      view (blockedWith snapshot (record d)) = view (blockedWith snapshot (record d'))

section
variable {V : Type*} {view : GraphNodeResult → V} {g' : DecisionGraph} {δ δ' : Bytes → Int}

/-- **The order does not show.** If the records a node can be blocked with look the same, the
records of all nodes look the same in every order of the dependencies. -/
theorem Unambiguous.view_eq (hg : create nodes = .ok g) (hg' : create nodes' = .ok g')
    (hstatus : ∀ r r', view r = view r' → r.status = r'.status)
    (hreads : ∀ node ∈ nodes, node.ReadsById view)
    (h : Unambiguous view nodes snapshot (recordOf nodes snapshot δ))
    (hrearranges : Rearranges nodes nodes') :
    ∀ node ∈ nodes, view (recordOf nodes snapshot δ node.id).toGraphNodeResult =
      view (recordOf nodes' snapshot δ' node.id).toGraphNodeResult := by
  intro node hnode
  refine induction_nodes_depth (P := fun _ id =>
    view (recordOf nodes snapshot δ id).toGraphNodeResult =
      view (recordOf nodes' snapshot δ' id).toGraphNodeResult) hg
    (fun node hnode _ ih => ?_) node hnode nodes.length le_rfl
  obtain ⟨ds, hperm, hnode'⟩ := hrearranges node hnode
  set record := recordOf nodes snapshot δ
  set record' := recordOf nodes' snapshot δ'
  have hid : ∀ d ∈ node.dependencies, (record d).id = d := fun d hd =>
    recordOf_id_of_mem hg δ hnode hd
  have hid' : ∀ d ∈ ds, (record' d).id = d := fun d hd => recordOf_id_of_mem hg' δ' hnode' hd
  have hblocks : ∀ d ∈ node.dependencies, blocks node (record d) = blocks node (record' d) := by
    intro d hd
    simp only [blocks, hstatus _ _ (ih d hd)]
  have hmeaning' : (record' node.id).toGraphNodeResult =
      { node with dependencies := ds }.meaning snapshot (ds.map record') :=
    result_recordOf hg' δ' hnode'
  rw [show (record node.id).toGraphNodeResult = _ from result_recordOf hg δ hnode, hmeaning']
  cases hfind : (node.dependencies.map record).find? (blocks node) with
  | none =>
    have hnone : ∀ d ∈ node.dependencies, blocks node (record d) = false := by
      simpa using hfind
    have hfind' : (ds.map record').find? (blocks { node with dependencies := ds }) = none := by
      rw [List.find?_eq_none]
      intro r hr
      obtain ⟨d, hd, rfl⟩ := List.mem_map.1 hr
      have hmem := hperm.mem_iff.1 hd
      exact Bool.eq_false_iff.1 ((hblocks d hmem).symm.trans (hnone d hmem))
    have hanswer : node.answer ⟨snapshot, node.dependencies.map record⟩ =
        node.answer ⟨snapshot, ds.map record'⟩ := by
      refine hreads node hnode snapshot _ _ fun id => ?_
      rw [find?_map_id hid, find?_map_id hid']
      by_cases hmem : id ∈ node.dependencies
      · rw [if_pos hmem, if_pos (hperm.mem_iff.2 hmem), Option.map_some, Option.map_some,
          ih id hmem]
      · rw [if_neg hmem, if_neg fun hd => hmem (hperm.mem_iff.1 hd)]
    exact congrArg view (meaning_of_not_blocks hfind hfind' hanswer)
  | some r =>
    obtain ⟨d, hd, rfl⟩ := List.mem_map.1 (List.mem_of_find?_eq_some hfind)
    have hd' := List.find?_some hfind
    cases hfind' : (ds.map record').find? (blocks { node with dependencies := ds }) with
    | none =>
      have hnone := List.find?_eq_none.1 hfind' (record' d)
        (List.mem_map_of_mem (hperm.mem_iff.2 hd))
      exact absurd ((hblocks d hd).symm.trans hd') hnone
    | some r' =>
      obtain ⟨e, he, rfl⟩ := List.mem_map.1 (List.mem_of_find?_eq_some hfind')
      have hmem := hperm.mem_iff.1 he
      have he' : blocks node (record e) = true := (hblocks e hmem).trans (List.find?_some hfind')
      have hsame : blockedWith snapshot (record e) = blockedWith snapshot (record' e) := by
        simp only [blockedWith, hstatus _ _ (ih e hmem), hid e hmem, hid' e he]
      rw [meaning_of_blocks hfind, meaning_of_blocks hfind', h node hnode d hd e hmem hd' he',
        hsame]

end

/-! ## Reordered lists of nodes -/

/-- The nodes keep their identifiers. -/
theorem forall_of_forall_reorder {order : Bytes → List Bytes} {P : Bytes → Prop}
    (h : ∀ node ∈ reorder order nodes, P node.id) : ∀ node ∈ nodes, P node.id := by
  intro node hnode
  have hmem : { node with dependencies := order node.id } ∈ reorder order nodes :=
    List.mem_map_of_mem hnode
  have hP := h _ hmem
  exact hP

/-- Listing the dependencies anew keeps a list of nodes well formed. -/
theorem WellFormed.reorder {order : Bytes → List Bytes} (h : WellFormed nodes)
    (horder : ∀ node ∈ nodes, (order node.id).Perm node.dependencies) :
    WellFormed (DecisionGraph.reorder order nodes) := by
  have hids : (DecisionGraph.reorder order nodes).map GraphNode.id = nodes.map GraphNode.id := by
    rw [DecisionGraph.reorder, List.map_map]
    rfl
  have hfeeds : Feeds (DecisionGraph.reorder order nodes) = Feeds nodes := by
    funext p a
    refine propext ⟨?_, ?_⟩
    · rintro ⟨_, hmem, rfl, hp⟩
      obtain ⟨node, hnode, rfl⟩ := List.mem_map.1 hmem
      exact ⟨node, hnode, rfl, (horder node hnode).mem_iff.1 hp⟩
    · rintro ⟨node, hnode, rfl, hp⟩
      exact ⟨_, List.mem_map_of_mem hnode, rfl, (horder node hnode).mem_iff.2 hp⟩
  refine ⟨List.forall_mem_map.2 h.named, List.forall_mem_map.2 h.evaluator, hids ▸ h.nodup,
    List.forall_mem_map.2 fun node hnode d hd => ?_, List.forall_mem_map.2 fun node hnode => ?_,
    hfeeds ▸ h.acyclic⟩
  · obtain ⟨producer, hproducer, rfl⟩ := h.declared node hnode d ((horder node hnode).mem_iff.1 hd)
    exact ⟨_, List.mem_map_of_mem hproducer, rfl⟩
  · exact (horder node hnode).nodup_iff.2 (h.once node hnode)

/-- Listing the dependencies anew rearranges them. -/
theorem rearranges_reorder {order : Bytes → List Bytes}
    (horder : ∀ node ∈ nodes, (order node.id).Perm node.dependencies) :
    Rearranges nodes (reorder order nodes) :=
  fun node hnode => ⟨order node.id, horder node hnode, List.mem_map_of_mem hnode⟩

/-- An evaluation without a deadline records what the recursive definition says. -/
theorem evaluate_at (hg : create nodes = .ok g) (hsnapshot : snapshot.id ≠ [])
    (clock : Nat → Int) :
    ∃ trace, g.evaluate snapshot none clock = .ok trace ∧ ∀ node ∈ nodes,
      trace.at node.id = .ok (recordOf nodes snapshot trace.durationOf node.id) := by
  obtain ⟨trace, htrace, hcomputes⟩ := evaluate_computes hg hsnapshot clock
  refine ⟨trace, htrace, fun node hnode => ?_⟩
  have hnodup := hcomputes.records.nodup_iff.2 (ordered_of_create hg).1.nodup
  obtain ⟨record, hrecord, hid⟩ := List.mem_map.1
    (hcomputes.records.mem_iff.2 (List.mem_map_of_mem (f := GraphNode.id) hnode))
  rw [← hid, at_eq_ok hnodup hrecord, recordOf, ← hcomputes.meaning record hrecord _ le_rfl]

/-- A node that finds its dependencies by identifier does not look at the times. -/
theorem ignoresDurations_of_readsById {V : Type*} {view : GraphNodeResult → V}
    {node : GraphNode} (h : node.ReadsById view) : node.IgnoresDurations := by
  intro snapshot records records' hsame
  refine h snapshot records records' fun id => ?_
  rcases find?_untimed (p := fun r => r.id = id) (fun _ => rfl) hsame
    with ⟨hnone, hnone'⟩ | ⟨r, r', hr, hr', huntimed⟩
  · rw [hnone, hnone']
  · have hresult : r.untimed.toGraphNodeResult = r'.untimed.toGraphNodeResult := by
      rw [huntimed]
    change r.toGraphNodeResult = r'.toGraphNodeResult at hresult
    rw [hr, hr', Option.map_some, Option.map_some, hresult]

/-- The status of a node does not depend on the times when no callback looks at them. -/
theorem status_recordOf_untimed (hnodes : ∀ node ∈ nodes, node.IgnoresDurations)
    (δ δ' : Bytes → Int) (id : Bytes) :
    (recordOf nodes snapshot δ id).status = (recordOf nodes snapshot δ' id).status := by
  have huntimed : (recordOf nodes snapshot δ id).untimed.status =
      (recordOf nodes snapshot δ' id).untimed.status := by
    rw [recordOf, recordOf, denote_untimed hnodes δ δ']
  exact huntimed

/-- Two traces give every node the same status. -/
def SameStatuses (nodes : List GraphNode) (trace trace' : GraphTrace) : Prop :=
  ∀ node ∈ nodes, ∃ r r', trace.at node.id = .ok r ∧ trace'.at node.id = .ok r' ∧
    r.status = r'.status

/-- However the dependencies are listed, the nodes are accepted, and an evaluation without a
deadline gives every node the status it has as they are listed now. -/
def OrderFree (nodes : List GraphNode) (g : DecisionGraph) (snapshot : GraphSnapshot) : Prop :=
  ∀ order : Bytes → List Bytes, (∀ node ∈ nodes, (order node.id).Perm node.dependencies) →
    ∃ g', create (reorder order nodes) = .ok g' ∧ ∀ clock clock', ∃ trace trace',
      g.evaluate snapshot none clock = .ok trace ∧
      g'.evaluate snapshot none clock' = .ok trace' ∧ SameStatuses nodes trace trace'

/-- **What does not show does not matter.** If the records a node can be blocked with look the
same, the order of the dependencies changes no status. -/
theorem Unambiguous.orderFree {V : Type*} {view : GraphNodeResult → V}
    (hg : create nodes = .ok g) (hsnapshot : snapshot.id ≠ [])
    (hstatus : ∀ r r', view r = view r' → r.status = r'.status)
    (hreads : ∀ node ∈ nodes, node.ReadsById view)
    (h : Unambiguous view nodes snapshot (recordOf nodes snapshot fun _ => 0)) :
    OrderFree nodes g snapshot := by
  intro order horder
  obtain ⟨g', hg'⟩ := exists_create_of_wellFormed ((ordered_of_create hg).1.reorder horder)
  refine ⟨g', hg', fun clock clock' => ?_⟩
  obtain ⟨trace, htrace, hat⟩ := evaluate_at hg hsnapshot clock
  obtain ⟨trace', htrace', hat'⟩ := evaluate_at hg' hsnapshot clock'
  refine ⟨trace, trace', htrace, htrace', fun node hnode => ?_⟩
  refine ⟨_, _, hat node hnode, forall_of_forall_reorder (P := fun id => trace'.at id =
    .ok (recordOf _ snapshot trace'.durationOf id)) hat' node hnode, ?_⟩
  have hview : view (recordOf nodes snapshot _ node.id).toGraphNodeResult =
      view (recordOf _ snapshot trace'.durationOf node.id).toGraphNodeResult :=
    h.view_eq hg hg' hstatus hreads (rearranges_reorder horder) node hnode
  rw [status_recordOf_untimed
    (fun node hnode => ignoresDurations_of_readsById (hreads node hnode)) _ fun _ => 0]
  exact hstatus _ _ hview

/-! ## Mixed predecessors -/

/-- A node is reached with a stale predecessor and another one without success, although it
requires the success of both. -/
def Mixed (snapshot : GraphSnapshot) (nodes : List GraphNode) (node : GraphNode) : Prop :=
  node.requireSuccessfulDependencies = true ∧
    ∃ d ∈ node.dependencies, ∃ d' ∈ node.dependencies,
      (recordOf nodes snapshot (fun _ => 0) d).status = .stale ∧
      (recordOf nodes snapshot (fun _ => 0) d').status ≠ .stale ∧
      (recordOf nodes snapshot (fun _ => 0) d').status ≠ .succeeded

/-- The dependencies a list of nodes declares for an identifier. -/
def declaredFor (nodes : List GraphNode) (id : Bytes) : List Bytes :=
  ((nodes.find? fun node => node.id = id).map GraphNode.dependencies).getD []

/-- The declared dependencies with one of them moved to the front. -/
def bringForward (nodes : List GraphNode) (d id : Bytes) : List Bytes :=
  (declaredFor nodes id).filter (fun e => e = d) ++
    (declaredFor nodes id).filter fun e => !decide (e = d)

/-- Moving a dependency to the front lists the dependencies anew. -/
theorem bringForward_perm (hg : create nodes = .ok g) (d : Bytes) {node : GraphNode}
    (hnode : node ∈ nodes) : (bringForward nodes d node.id).Perm node.dependencies := by
  have hdeclared : declaredFor nodes node.id = node.dependencies := by
    rw [declaredFor, find?_eq_of_key (ordered_of_create hg).1.nodup hnode]
    rfl
  rw [bringForward, hdeclared]
  exact List.filter_append_perm _ _

/-- The dependency moved to the front is the first. -/
theorem bringForward_eq_cons (hg : create nodes = .ok g) {d : Bytes} {node : GraphNode}
    (hnode : node ∈ nodes) (hd : d ∈ node.dependencies) :
    ∃ rest, bringForward nodes d node.id = d :: rest := by
  have hdeclared : declaredFor nodes node.id = node.dependencies := by
    rw [declaredFor, find?_eq_of_key (ordered_of_create hg).1.nodup hnode]
    rfl
  rw [bringForward, hdeclared]
  cases hfilter : node.dependencies.filter fun e => e = d with
  | nil => exact absurd (decide_eq_true rfl) (List.filter_eq_nil_iff.1 hfilter d hd)
  | cons e rest =>
    have he : e ∈ node.dependencies.filter fun e => e = d := hfilter ▸ List.mem_cons_self
    obtain rfl : e = d := by simpa using (List.mem_filter.1 he).2
    exact ⟨_, rfl⟩

/-- A node that requires success is blocked by its first dependency, if that has none. -/
theorem status_of_first (hg : create nodes = .ok g) {δ : Bytes → Int} {node : GraphNode}
    (hnode : node ∈ nodes) (hrequires : node.requireSuccessfulDependencies = true) {d : Bytes}
    {rest : List Bytes} (hfirst : node.dependencies = d :: rest)
    (hstatus : (recordOf nodes snapshot δ d).status ≠ .succeeded) :
    (recordOf nodes snapshot δ node.id).status =
      if (recordOf nodes snapshot δ d).status = .stale then .stale else .skipped := by
  have hblocks : blocks node (recordOf nodes snapshot δ d) = true := by
    simp [blocks, hrequires, hstatus]
  have hfind : (node.dependencies.map (recordOf nodes snapshot δ)).find? (blocks node) =
      some (recordOf nodes snapshot δ d) := by
    rw [hfirst, List.map_cons, List.find?_cons_of_pos hblocks]
  rw [result_recordOf hg δ hnode, meaning_of_blocks hfind]
  rfl

/-- If the order changes no status, then with a dependency moved to the front every node has the
status it has as the dependencies are listed now. -/
theorem OrderFree.status_eq (h : OrderFree nodes g snapshot) (hg : create nodes = .ok g)
    (hsnapshot : snapshot.id ≠ []) (hnodes : ∀ node ∈ nodes, node.IgnoresDurations) (d : Bytes) :
    ∃ g' δ, create (reorder (bringForward nodes d) nodes) = .ok g' ∧ ∀ node ∈ nodes,
      (recordOf (reorder (bringForward nodes d) nodes) snapshot δ node.id).status =
        (recordOf nodes snapshot (fun _ => 0) node.id).status := by
  obtain ⟨g', hg', hclocks⟩ := h (bringForward nodes d) fun node hnode =>
    bringForward_perm hg d hnode
  obtain ⟨trace, trace', htrace, htrace', hsame⟩ := hclocks (fun _ => 0) fun _ => 0
  obtain ⟨t, ht, hat⟩ := evaluate_at hg hsnapshot fun _ => 0
  obtain ⟨t', ht', hat'⟩ := evaluate_at hg' hsnapshot fun _ => 0
  obtain rfl : trace = t := Except.ok.inj (htrace.symm.trans ht)
  obtain rfl : trace' = t' := Except.ok.inj (htrace'.symm.trans ht')
  refine ⟨g', trace'.durationOf, hg', fun node hnode => ?_⟩
  obtain ⟨r, r', hr, hr', hstatus⟩ := hsame node hnode
  have hrecord := Except.ok.inj (hr.symm.trans (hat node hnode))
  have hrecord' := Except.ok.inj (hr'.symm.trans (forall_of_forall_reorder (P := fun id =>
    trace'.at id = .ok (recordOf _ snapshot trace'.durationOf id)) hat' node hnode))
  rw [hrecord, hrecord'] at hstatus
  rw [status_recordOf_untimed hnodes (fun _ => 0) trace.durationOf]
  exact hstatus.symm

/-- If the order changes no status, no node has mixed predecessors. -/
theorem OrderFree.not_mixed (h : OrderFree nodes g snapshot) (hg : create nodes = .ok g)
    (hsnapshot : snapshot.id ≠ []) (hnodes : ∀ node ∈ nodes, node.IgnoresDurations) :
    ∀ node ∈ nodes, ¬ Mixed snapshot nodes node := by
  rintro node hnode ⟨hrequires, d, hd, d', hd', hstale, hnotStale, hnotSucceeded⟩
  have hwf := (ordered_of_create hg).1
  -- With either of the two in front, the node has the status that one gives it.
  have hfront : ∀ e ∈ node.dependencies,
      (recordOf nodes snapshot (fun _ => 0) e).status ≠ .succeeded →
      (recordOf nodes snapshot (fun _ => 0) node.id).status =
        if (recordOf nodes snapshot (fun _ => 0) e).status = .stale then .stale else .skipped := by
    intro e he hunsuccessful
    obtain ⟨g', δ, hg', hsame⟩ := h.status_eq hg hsnapshot hnodes e
    obtain ⟨rest, hfirst⟩ := bringForward_eq_cons hg hnode he
    obtain ⟨producer, hproducer, rfl⟩ := hwf.declared node hnode e he
    have hmem : { node with dependencies := bringForward nodes producer.id node.id } ∈
        reorder (bringForward nodes producer.id) nodes := List.mem_map_of_mem hnode
    rw [← hsame node hnode, ← hsame producer hproducer]
    rw [← hsame producer hproducer] at hunsuccessful
    exact status_of_first hg' hmem hrequires hfirst hunsuccessful
  have hstatus := hfront d hd (by rw [hstale]; nofun)
  rw [hfront d' hd' hnotSucceeded, if_neg hnotStale, if_pos hstale] at hstatus
  cases hstatus

/-- If no node has mixed predecessors, the records a node can be blocked with look the same apart
from their messages. -/
theorem unambiguous_of_not_mixed (h : ∀ node ∈ nodes, ¬ Mixed snapshot nodes node) :
    Unambiguous GraphNodeResult.unworded nodes snapshot
      (recordOf nodes snapshot fun _ => 0) := by
  intro node hnode d hd d' hd' hblocks hblocks'
  simp only [blocks, decide_eq_true_eq] at hblocks hblocks'
  have hboth : (recordOf nodes snapshot (fun _ => 0) d).status = .stale ↔
      (recordOf nodes snapshot (fun _ => 0) d').status = .stale := by
    constructor
    · intro hstale
      by_contra hnot
      exact h node hnode ⟨hblocks.1, d, hd, d', hd', hstale, hnot, hblocks'.2⟩
    · intro hstale
      by_contra hnot
      exact h node hnode ⟨hblocks.1, d', hd', d, hd, hstale, hnot, hblocks.2⟩
  simp only [GraphNodeResult.unworded, blockedWith, hboth]

/-- **When the order of the dependencies matters.** Take an accepted list of nodes whose callbacks
find their dependencies by identifier. If they do not look at messages, then the order of the
dependencies changes no status exactly if no node that requires the success of its dependencies is
reached with a stale one and another one without success. If they do, the order changes no status
as long as no such node is reached with two dependencies without success. -/
theorem statuses_order_free_iff (hg : create nodes = .ok g) (hsnapshot : snapshot.id ≠ []) :
    ((∀ node ∈ nodes, node.ReadsById GraphNodeResult.unworded) →
      (OrderFree nodes g snapshot ↔ ∀ node ∈ nodes, ¬ Mixed snapshot nodes node)) ∧
    ((∀ node ∈ nodes, node.ReadsById id) →
      (∀ node ∈ nodes, node.requireSuccessfulDependencies = true →
        ∀ d ∈ node.dependencies, ∀ d' ∈ node.dependencies,
          (recordOf nodes snapshot (fun _ => 0) d).status ≠ .succeeded →
          (recordOf nodes snapshot (fun _ => 0) d').status ≠ .succeeded → d = d') →
      OrderFree nodes g snapshot) := by
  refine ⟨fun hreads => ⟨fun h => ?_, fun h => ?_⟩, fun hreads hone => ?_⟩
  · exact h.not_mixed hg hsnapshot fun node hnode =>
      ignoresDurations_of_readsById (hreads node hnode)
  · exact (unambiguous_of_not_mixed h).orderFree hg hsnapshot
      (fun r r' heq => congrArg Prod.fst heq) hreads
  · refine Unambiguous.orderFree hg hsnapshot (fun r r' heq => congrArg _ heq) hreads ?_
    intro node hnode d hd d' hd' hblocks hblocks'
    simp only [blocks, decide_eq_true_eq] at hblocks hblocks'
    rw [hone node hnode hblocks.1 d hd d' hd' hblocks.2 hblocks'.2]

/-- Two nodes with fixed results, and one that requires the success of both. -/
def merging (left right : GraphNodeResult) : List GraphNode :=
  [{ id := lit "left", evaluate := some fun _ => .returned left },
   { id := lit "right", evaluate := some fun _ => .returned right },
   { id := lit "merge", dependencies := [lit "left", lit "right"]
     evaluate := some fun _ => .returned (.success {}) }]

/-- The callbacks of these nodes look at nothing. -/
theorem merging_readsById {V : Type*} (view : GraphNodeResult → V) (left right : GraphNodeResult) :
    ∀ node ∈ merging left right, node.ReadsById view := by
  simp [merging, GraphNode.ReadsById, GraphNode.answer]

/-- Two predecessors that are both stale can be exchanged. -/
theorem statuses_order_free_iff_merging :
    OrderFree (merging (.stale (lit "old")) (.stale (lit "old")))
      ⟨merging (.stale (lit "old")) (.stale (lit "old")), [[], [], [0, 1]], [0, 1, 2]⟩
      ⟨lit "ticket", {}⟩ := by
  refine ((statuses_order_free_iff rfl (by decide)).1 (merging_readsById _ _ _)).2 ?_
  unfold Mixed
  decide

/-- The same predecessors in two orders: the consumer is skipped in one and stale in the other. -/
theorem mixed_predecessors_merging : ∃ g g' trace trace' record record',
    create (merging (.skip (lit "off")) (.stale (lit "old"))) = .ok g ∧
    create (reorder (fun id => if id = lit "merge" then [lit "right", lit "left"] else [])
      (merging (.skip (lit "off")) (.stale (lit "old")))) = .ok g' ∧
    g.evaluate ⟨lit "ticket", {}⟩ none (fun _ => 0) = .ok trace ∧
    g'.evaluate ⟨lit "ticket", {}⟩ none (fun _ => 0) = .ok trace' ∧
    trace.at (lit "merge") = .ok record ∧ record.status = .skipped ∧
    trace'.at (lit "merge") = .ok record' ∧ record'.status = .stale :=
  ⟨_, _, _, _, _, _, rfl, rfl, rfl, rfl, rfl, rfl, rfl, rfl⟩

end DecisionGraph

end Jevt
