import Jevt.Decision.Kahn

/-!
# Which graphs are accepted

The constructor accepts a list of nodes exactly when it is well formed (`WellFormed`), and then
the graph it builds is ordered (`Ordered`): the dependencies of every node are resolved to indices
in declared order, and the order visits every node once, after its dependencies.

The tables of the second loop are determined by the list of the edges it has met so far
(`Links.Lists`), so that what the loop does to three vectors is read off from one list.
-/

namespace Jevt.DecisionGraph

open Library

variable {nodes : List GraphNode} {n : Nat}

/-- The node `a` of the list declares the dependency `p`. -/
def Feeds (nodes : List GraphNode) (p a : Bytes) : Prop :=
  ∃ node ∈ nodes, node.id = a ∧ p ∈ node.dependencies

/-- A well-formed list of nodes: every node has an identifier of its own and an evaluator, every
dependency is a node of the list and declared once, and no node depends on itself, directly or
through others. -/
structure WellFormed (nodes : List GraphNode) : Prop where
  named : ∀ node ∈ nodes, node.id ≠ []
  evaluator : ∀ node ∈ nodes, node.evaluate.isSome = true
  nodup : (nodes.map GraphNode.id).Nodup
  declared : ∀ node ∈ nodes, ∀ d ∈ node.dependencies, ∃ producer ∈ nodes, producer.id = d
  once : ∀ node ∈ nodes, node.dependencies.Nodup
  acyclic : ∀ id, ¬Relation.TransGen (Feeds nodes) id id

/-- What the constructor establishes of a graph: the dependencies of a node are resolved in
declared order, and the order names every node once and after its dependencies. -/
structure Ordered (nodes : List GraphNode) (g : DecisionGraph) : Prop where
  ofNodes : g.nodes = nodes
  lt : ∀ i < nodes.length, ∀ p ∈ g.dependencyIndices[i]!, p < nodes.length
  resolved : ∀ i < nodes.length,
    (g.dependencyIndices[i]!.map fun p => nodes[p]!.id) = nodes[i]!.dependencies
  perm : g.order.Perm (List.range nodes.length)
  topological : Topological (fun i => g.dependencyIndices[i]!) g.order

/-! ## The first loop -/

/-- A list of pairs without repeated keys is looked up by membership. -/
theorem lookup_eq_some_iff_mem {l : List (Bytes × Nat)} (h : (l.map Prod.fst).Nodup) {id : Bytes}
    {k : Nat} : l.lookup id = some k ↔ (id, k) ∈ l := by
  induction l with
  | nil => simp
  | cons e l ih =>
    obtain ⟨id', k'⟩ := e
    obtain ⟨he, hl⟩ := List.nodup_cons.1 h
    by_cases hid : id = id'
    · subst hid
      have hnot : ∀ k, (id, k) ∉ l := fun k hk =>
        he (List.mem_map.2 ⟨(id, k), hk, rfl⟩)
      simp [hnot, eq_comm]
    · have hne : (id == id') = false := by simpa using hid
      rw [List.lookup_cons, hne, List.mem_cons, or_iff_right]
      · exact ih hl
      · rintro heq
        exact hid (Prod.mk.inj heq).1

/-- Looking a key up behind a new pair. -/
theorem lookup_cons_eq_none {indices : List (Bytes × Nat)} {id id' : Bytes} {i : Nat} :
    ((id, i) :: indices).lookup id' = none ↔ id' ≠ id ∧ indices.lookup id' = none := by
  by_cases hid : id' = id
  · subst hid
    rw [List.lookup_cons_self]
    exact ⟨nofun, fun h => absurd rfl h.1⟩
  · have hne : (id' == id) = false := by simpa using hid
    rw [List.lookup_cons, hne]
    exact (and_iff_right hid).symm

/-- The first loop accepts the nodes that are fine by themselves and new, and numbers them. -/
theorem checkNodes_eq_ok : ∀ {nodes : List GraphNode} {i : Nat} {indices r : List (Bytes × Nat)},
    checkNodes nodes i indices = .ok r ↔
      (∀ node ∈ nodes, node.id ≠ [] ∧ node.evaluate.isSome = true ∧
        indices.lookup node.id = none) ∧
      (nodes.map GraphNode.id).Nodup ∧
      r = ((nodes.zipIdx i).map fun (node : GraphNode × Nat) => (node.1.id, node.2)).reverse ++
        indices
  | [], i, indices, r => by
      rw [checkNodes, Except.ok.injEq]
      exact ⟨fun h => ⟨nofun, List.nodup_nil, h.symm⟩, fun h => h.2.2.symm⟩
  | node :: rest, i, indices, r => by
      unfold checkNodes
      split_ifs with hid heval hdup
      · exact ⟨nofun, fun h => absurd hid (h.1 node List.mem_cons_self).1⟩
      · refine ⟨nofun, fun h => ?_⟩
        rw [Option.isNone_iff_eq_none] at heval
        have hsome := (h.1 node List.mem_cons_self).2.1
        rw [heval] at hsome
        cases hsome
      · refine ⟨nofun, fun h => ?_⟩
        rw [(h.1 node List.mem_cons_self).2.2] at hdup
        cases hdup
      · have heval' : node.evaluate.isSome = true :=
          Option.isSome_iff_ne_none.2 fun h => heval (h ▸ rfl)
        have hdup' : indices.lookup node.id = none :=
          Option.not_isSome_iff_eq_none.1 hdup
        rw [checkNodes_eq_ok, List.forall_mem_cons, List.map_cons, List.nodup_cons]
        simp only [lookup_cons_eq_none, List.zipIdx_cons, List.map_cons, List.reverse_cons,
          List.append_assoc, List.singleton_append]
        constructor
        · rintro ⟨hall, hnodup, rfl⟩
          refine ⟨⟨⟨hid, heval', hdup'⟩, fun m hm => ?_⟩, ⟨fun hmem => ?_, hnodup⟩, rfl⟩
          · exact ⟨(hall m hm).1, (hall m hm).2.1, (hall m hm).2.2.2⟩
          · obtain ⟨m, hm, heq⟩ := List.mem_map.1 hmem
            exact (hall m hm).2.2.1 heq
        · rintro ⟨⟨-, hall⟩, ⟨hnew, hnodup⟩, rfl⟩
          refine ⟨fun m hm => ?_, hnodup, rfl⟩
          exact ⟨(hall m hm).1, (hall m hm).2.1, fun heq => hnew (heq ▸ List.mem_map_of_mem hm),
            (hall m hm).2.2⟩

/-- The numbers the first loop gives. -/
theorem lookup_checkNodes {indices : List (Bytes × Nat)} (h : checkNodes nodes 0 [] = .ok indices)
    {id : Bytes} {k : Nat} :
    indices.lookup id = some k ↔ ∃ node, nodes[k]? = some node ∧ node.id = id := by
  obtain ⟨-, hnodup, rfl⟩ := checkNodes_eq_ok.1 h
  have hkeys : ((nodes.zipIdx.map fun (node : GraphNode × Nat) => (node.1.id, node.2)).reverse ++
      []).map Prod.fst = (nodes.map GraphNode.id).reverse := by
    rw [List.append_nil, List.map_reverse, List.map_map]
    conv_rhs => rw [← List.zipIdx_map_fst 0 nodes, List.map_map]
    rfl
  rw [lookup_eq_some_iff_mem (by rw [hkeys]; exact List.nodup_reverse.2 hnodup), List.append_nil,
    List.mem_reverse, List.mem_map]
  constructor
  · rintro ⟨⟨node, k'⟩, hmem, heq⟩
    obtain ⟨rfl, rfl⟩ := Prod.mk.inj heq
    exact ⟨node, List.mem_zipIdx_iff_getElem?.1 hmem, rfl⟩
  · rintro ⟨node, hget, rfl⟩
    exact ⟨(node, k), List.mem_zipIdx_iff_getElem?.2 hget, rfl⟩

/-! ## The second loop -/

/-- The tables with one more edge: the node `i` depends on the node `producer`. -/
def Links.add (links : Links) (edge : Nat × Nat) : Links :=
  { dependencyIndices := links.dependencyIndices.modify edge.1 (· ++ [edge.2])
    consumers := links.consumers.modify edge.2 (· ++ [edge.1])
    remaining := links.remaining.modify edge.1 (· + 1) }

/-- The number the first loop gave to an identifier. -/
def producerOf (indices : List (Bytes × Nat)) (dependency : Bytes) : Nat :=
  (indices.lookup dependency).getD 0

/-- A node whose dependencies are all known and declared once. -/
def Linkable (indices : List (Bytes × Nat)) (node : GraphNode) : Prop :=
  (∀ d ∈ node.dependencies, (indices.lookup d).isSome = true) ∧ node.dependencies.Nodup

/-- The edges of a node. -/
def edgesOf (indices : List (Bytes × Nat)) (node : GraphNode × Nat) : List (Nat × Nat) :=
  node.1.dependencies.map fun d => (node.2, producerOf indices d)

/-- One dependency of a node. -/
theorem linkDependency_eq_ok {indices : List (Bytes × Nat)} {node : GraphNode} {i : Nat} {d : Bytes}
    {seen : List Bytes} {links : Links} {r : List Bytes × Links} :
    linkDependency indices node i (seen, links) d = .ok r ↔
      (indices.lookup d).isSome = true ∧ d ∉ seen ∧
      r = (d :: seen, links.add (i, producerOf indices d)) := by
  unfold linkDependency
  cases hlookup : indices.lookup d with
  | none => exact ⟨nofun, nofun⟩
  | some producer =>
    have hproducer : producerOf indices d = producer := by rw [producerOf, hlookup]; rfl
    by_cases hseen : d ∈ seen
    · simp only [if_pos hseen]
      exact ⟨nofun, fun h => absurd hseen h.2.1⟩
    · simp only [if_neg hseen, hproducer]
      exact ⟨fun h => ⟨rfl, hseen, (Except.ok.inj h).symm⟩, fun h => congrArg Except.ok h.2.2.symm⟩

/-- The dependencies of one node. -/
theorem linkDependencies_eq_ok {indices : List (Bytes × Nat)} {node : GraphNode} {i : Nat} :
    ∀ {ds seen : List Bytes} {links : Links} {r : List Bytes × Links},
      ds.foldlM (linkDependency indices node i) (seen, links) = .ok r ↔
        (∀ d ∈ ds, (indices.lookup d).isSome = true) ∧ ds.Nodup ∧ (∀ d ∈ ds, d ∉ seen) ∧
        r = (ds.reverse ++ seen,
          (ds.map fun d => (i, producerOf indices d)).foldl Links.add links)
  | [], seen, links, r => by
      rw [List.foldlM_nil]
      exact ⟨fun h => ⟨nofun, List.nodup_nil, nofun, (Except.ok.inj h).symm⟩,
        fun h => congrArg Except.ok h.2.2.2.symm⟩
  | d :: ds, seen, links, r => by
      rw [List.foldlM_cons, bind_eq_ok_iff, List.forall_mem_cons, List.forall_mem_cons,
        List.nodup_cons, List.reverse_cons, List.append_assoc, List.singleton_append, List.map_cons,
        List.foldl_cons]
      constructor
      · rintro ⟨acc, hd, hds⟩
        obtain ⟨hsome, hseen, rfl⟩ := linkDependency_eq_ok.1 hd
        obtain ⟨hall, hnodup, hnew, rfl⟩ := linkDependencies_eq_ok.1 hds
        exact ⟨⟨hsome, hall⟩, ⟨fun hmem => hnew d hmem List.mem_cons_self, hnodup⟩,
          ⟨hseen, fun d' hd' hmem => hnew d' hd' (List.mem_cons_of_mem _ hmem)⟩, rfl⟩
      · rintro ⟨⟨hsome, hall⟩, ⟨hnotMem, hnodup⟩, ⟨hseen, hnew⟩, rfl⟩
        refine ⟨_, linkDependency_eq_ok.2 ⟨hsome, hseen, rfl⟩,
          linkDependencies_eq_ok.2 ⟨hall, hnodup, fun d' hd' hmem => ?_, rfl⟩⟩
        rcases List.mem_cons.1 hmem with rfl | hmem
        · exact hnotMem hd'
        · exact hnew d' hd' hmem

/-- The second loop accepts linkable nodes and adds their edges. -/
theorem linkNodes_eq_ok {indices : List (Bytes × Nat)} :
    ∀ {nodes : List (GraphNode × Nat)} {links r : Links},
      nodes.foldlM (linkNode indices) links = .ok r ↔
        (∀ node ∈ nodes, Linkable indices node.1) ∧
        r = (nodes.flatMap (edgesOf indices)).foldl Links.add links
  | [], links, r => by
      rw [List.foldlM_nil]
      exact ⟨fun h => ⟨nofun, (Except.ok.inj h).symm⟩, fun h => congrArg Except.ok h.2.symm⟩
  | node :: rest, links, r => by
      have hnode : ∀ {links' : Links}, linkNode indices links node = .ok links' ↔
          Linkable indices node.1 ∧ links' = (edgesOf indices node).foldl Links.add links := by
        intro links'
        rw [linkNode, bind_eq_ok_iff]
        constructor
        · rintro ⟨acc, hacc, hlinks⟩
          obtain ⟨hall, hnodup, -, rfl⟩ := linkDependencies_eq_ok.1 hacc
          exact ⟨⟨hall, hnodup⟩, (Except.ok.inj hlinks).symm⟩
        · rintro ⟨⟨hall, hnodup⟩, rfl⟩
          exact ⟨_, linkDependencies_eq_ok.2 ⟨hall, hnodup, nofun, rfl⟩, rfl⟩
      rw [List.foldlM_cons, bind_eq_ok_iff, List.forall_mem_cons, List.flatMap_cons,
        List.foldl_append]
      constructor
      · rintro ⟨links', hfirst, hrest⟩
        obtain ⟨hlinkable, rfl⟩ := hnode.1 hfirst
        obtain ⟨hall, rfl⟩ := linkNodes_eq_ok.1 hrest
        exact ⟨⟨hlinkable, hall⟩, rfl⟩
      · rintro ⟨⟨hlinkable, hall⟩, rfl⟩
        exact ⟨_, hnode.2 ⟨hlinkable, rfl⟩, linkNodes_eq_ok.2 ⟨hall, rfl⟩⟩

/-- The tables list the edges: the dependencies and the consumers of every node, in the order in
which the edges were added. -/
structure Links.Lists (n : Nat) (links : Links) (edges : List (Nat × Nat)) : Prop where
  sizes : links.dependencyIndices.length = n ∧ links.consumers.length = n ∧
    links.remaining.length = n
  dependencyIndices : ∀ i < n,
    links.dependencyIndices[i]! = (edges.filter fun e => e.1 = i).map Prod.snd
  consumers : ∀ p < n, links.consumers[p]! = (edges.filter fun e => e.2 = p).map Prod.fst
  remaining : ∀ i < n, links.remaining[i]! = (edges.filter fun e => e.1 = i).length

/-- A subscript after an update of one element. -/
theorem subscript_modify {α : Type} [Inhabited α] (l : List α) (f : α → α) {i j : Nat}
    (hj : j < l.length) : (l.modify i f)[j]! = if i = j then f l[j]! else l[j]! := by
  simp only [List.getElem!_eq_getElem?_getD, List.getElem?_modify, List.getElem?_eq_getElem hj]
  split <;> rfl

/-- Adding an edge to the tables adds it to the list. -/
theorem Links.Lists.add {links : Links} {edges : List (Nat × Nat)} (h : links.Lists n edges)
    (edge : Nat × Nat) : (links.add edge).Lists n (edges ++ [edge]) := by
  obtain ⟨⟨hsize, hsize', hsize''⟩, hdependencies, hconsumers, hremaining⟩ := h
  refine ⟨⟨(List.length_modify ..).trans hsize, (List.length_modify ..).trans hsize',
    (List.length_modify ..).trans hsize''⟩, fun i hi => ?_, fun p hp => ?_, fun i hi => ?_⟩
  · rw [Links.add, subscript_modify _ _ (hsize.symm ▸ hi), hdependencies i hi]
    by_cases he : edge.1 = i <;> simp [he]
  · rw [Links.add, subscript_modify _ _ (hsize'.symm ▸ hp), hconsumers p hp]
    by_cases he : edge.2 = p <;> simp [he]
  · rw [Links.add, subscript_modify _ _ (hsize''.symm ▸ hi), hremaining i hi]
    by_cases he : edge.1 = i <;> simp [he]

/-- The tables of any list of edges. -/
theorem Links.lists_foldl (n : Nat) (edges : List (Nat × Nat)) :
    (edges.foldl Links.add (Links.empty n)).Lists n edges := by
  induction edges using List.reverseRecOn with
  | nil =>
    refine ⟨by simp [Links.empty], fun i hi => ?_, fun p hp => ?_, fun i hi => ?_⟩ <;>
      simp [Links.empty, *]
  | append_singleton edges edge ih =>
    rw [List.foldl_append]
    exact ih.add edge

/-- Picking the elements with one number out of a numbered list. -/
theorem flatMap_zipIdx_filter {β : Type} (f : GraphNode → List β) :
    ∀ (nodes : List GraphNode) (k i : Nat), k ≤ i →
      ((nodes.zipIdx k).flatMap fun node => if node.2 = i then f node.1 else []) =
        (nodes[i - k]?.map f).getD []
  | [], _, _, _ => rfl
  | node :: rest, k, i, hki => by
      rw [List.zipIdx_cons, List.flatMap_cons]
      by_cases hk : k = i
      · subst hk
        have hrest : ((rest.zipIdx (k + 1)).flatMap fun node =>
            if node.2 = k then f node.1 else []) = [] := by
          refine List.flatMap_eq_nil_iff.2 fun m hm => if_neg fun heq => ?_
          have := List.le_snd_of_mem_zipIdx hm
          omega
        rw [hrest, if_pos rfl, Nat.sub_self]
        simp
      · rw [if_neg hk, List.nil_append, flatMap_zipIdx_filter f rest (k + 1) i (by omega)]
        have hsub : i - k = (i - (k + 1)) + 1 := by omega
        rw [hsub, List.getElem?_cons_succ]

/-! ## The constructor -/

section Tables

variable {indices : List (Bytes × Nat)}

/-- The edges of the whole graph, in the order in which the second loop meets them. -/
def graphEdges (nodes : List GraphNode) (indices : List (Bytes × Nat)) : List (Nat × Nat) :=
  nodes.zipIdx.flatMap (edgesOf indices)

/-- The edges of a node in the list of all edges. -/
theorem filter_graphEdges {i : Nat} (hi : i < nodes.length) :
    (graphEdges nodes indices).filter (fun e => e.1 = i) = edgesOf indices (nodes[i]!, i) := by
  have hpart : ∀ node : GraphNode × Nat, (edgesOf indices node).filter (fun e => e.1 = i) =
      if node.2 = i then edgesOf indices (node.1, i) else [] := by
    rintro ⟨node, k⟩
    split
    · next hk =>
      obtain rfl : k = i := hk
      exact List.filter_eq_self.2 fun e he => by
        obtain ⟨d, -, rfl⟩ := List.mem_map.1 he
        simp
    · next hk =>
      exact List.filter_eq_nil_iff.2 fun e he => by
        obtain ⟨d, -, rfl⟩ := List.mem_map.1 he
        simpa using hk
  rw [graphEdges, List.filter_flatMap]
  simp only [hpart]
  rw [flatMap_zipIdx_filter (fun node => edgesOf indices (node, i)) nodes 0 i (Nat.zero_le i),
    Nat.sub_zero, List.getElem?_eq_getElem hi, getElem!_pos nodes i hi]
  rfl

/-- An edge belongs to the node it starts from. -/
theorem mem_graphEdges {i p : Nat} :
    (i, p) ∈ graphEdges nodes indices ↔
      i < nodes.length ∧ ∃ d ∈ nodes[i]!.dependencies, producerOf indices d = p := by
  constructor
  · intro h
    obtain ⟨⟨node, k⟩, hnode, he⟩ := List.mem_flatMap.1 h
    obtain ⟨d, hd, heq⟩ := List.mem_map.1 he
    obtain ⟨rfl, rfl⟩ := Prod.mk.inj heq
    have hget : nodes[k]? = some node := List.mem_zipIdx_iff_getElem?.1 hnode
    obtain ⟨hk, hnode⟩ := List.getElem?_eq_some_iff.1 hget
    exact ⟨hk, d, by rwa [getElem!_pos nodes k hk, hnode], rfl⟩
  · rintro ⟨hi, d, hd, rfl⟩
    have hmem : (i, producerOf indices d) ∈
        (graphEdges nodes indices).filter fun e => e.1 = i := by
      rw [filter_graphEdges hi]
      exact List.mem_map_of_mem hd
    exact List.mem_of_mem_filter hmem

/-- What the first loop and the checks of the second establish: every dependency is the identifier
of the node whose number it gets. -/
structure Resolves (nodes : List GraphNode) (indices : List (Bytes × Nat)) : Prop where
  lookup : ∀ id k, indices.lookup id = some k ↔ ∃ node, nodes[k]? = some node ∧ node.id = id
  linkable : ∀ node ∈ nodes, Linkable indices node

/-- A dependency is the identifier of its producer. -/
theorem Resolves.producer (h : Resolves nodes indices) {node : GraphNode} (hnode : node ∈ nodes)
    {d : Bytes} (hd : d ∈ node.dependencies) :
    producerOf indices d < nodes.length ∧ nodes[producerOf indices d]!.id = d := by
  obtain ⟨k, hk⟩ := Option.isSome_iff_exists.1 ((h.linkable node hnode).1 d hd)
  obtain ⟨producer, hget, hid⟩ := (h.lookup d k).1 hk
  obtain ⟨hlt, hproducer⟩ := List.getElem?_eq_some_iff.1 hget
  have hnumber : producerOf indices d = k := by rw [producerOf, hk]; rfl
  rw [hnumber, getElem!_pos nodes k hlt, hproducer]
  exact ⟨hlt, hid⟩

/-- The edges of a node are distinct. -/
theorem Resolves.nodup_edgesOf (h : Resolves nodes indices) {node : GraphNode}
    (hnode : node ∈ nodes) (i : Nat) : (edgesOf indices (node, i)).Nodup := by
  refine List.Nodup.map_on (fun d hd d' hd' heq => ?_) (h.linkable node hnode).2
  rw [← (h.producer hnode hd).2, ← (h.producer hnode hd').2, (Prod.mk.inj heq).2]

/-- The edges of the graph are distinct. -/
theorem Resolves.nodup_graphEdges (h : Resolves nodes indices) :
    (graphEdges nodes indices).Nodup := by
  refine List.nodup_flatMap.2 ⟨fun node hnode => ?_, ?_⟩
  · have hget := List.mem_zipIdx_iff_getElem?.1 hnode
    exact h.nodup_edgesOf (List.mem_of_getElem? hget) node.2
  · have hnumbers : (nodes.zipIdx.map Prod.snd).Nodup := by
      rw [List.zipIdx_map_snd]
      exact List.nodup_range'
    refine (List.pairwise_map.1 hnumbers).imp fun {a b} hne e ha hb => ?_
    obtain ⟨d, -, rfl⟩ := List.mem_map.1 ha
    obtain ⟨d', -, heq⟩ := List.mem_map.1 hb
    exact hne (Prod.mk.inj heq).1.symm

/-- The tables after the second loop. -/
theorem Resolves.tables (h : Resolves nodes indices) {links : Links}
    (hlinks : links.Lists nodes.length (graphEdges nodes indices)) :
    (∀ i < nodes.length, links.dependencyIndices[i]! =
      nodes[i]!.dependencies.map (producerOf indices)) ∧
    Consumes nodes.length (fun i => links.dependencyIndices[i]!) links.consumers ∧
    ∀ i < nodes.length, links.remaining[i]! = links.dependencyIndices[i]!.length := by
  have hmem : ∀ i < nodes.length, nodes[i]! ∈ nodes := fun i hi => by
    rw [getElem!_pos nodes i hi]
    exact List.getElem_mem hi
  have hdependencies : ∀ i < nodes.length, links.dependencyIndices[i]! =
      nodes[i]!.dependencies.map (producerOf indices) := by
    intro i hi
    rw [hlinks.dependencyIndices i hi, filter_graphEdges hi, edgesOf, List.map_map]
    rfl
  refine ⟨hdependencies, ⟨fun i hi => ?_, fun i hi p hp => ?_, fun p hp => ?_, fun p hp i => ?_⟩,
    fun i hi => ?_⟩
  · rw [hlinks.dependencyIndices i hi]
    refine (h.nodup_graphEdges.filter _).map_on fun e he e' he' heq => ?_
    have hfst := of_decide_eq_true (List.mem_filter.1 he).2
    have hfst' := of_decide_eq_true (List.mem_filter.1 he').2
    exact Prod.ext (hfst.trans hfst'.symm) heq
  · rw [hdependencies i hi] at hp
    obtain ⟨d, hd, rfl⟩ := List.mem_map.1 hp
    exact (h.producer (hmem i hi) hd).1
  · rw [hlinks.consumers p hp]
    refine (h.nodup_graphEdges.filter _).map_on fun e he e' he' heq => ?_
    have hsnd := of_decide_eq_true (List.mem_filter.1 he).2
    have hsnd' := of_decide_eq_true (List.mem_filter.1 he').2
    exact Prod.ext heq (hsnd.trans hsnd'.symm)
  · have hedge : i ∈ links.consumers[p]! ↔ (i, p) ∈ graphEdges nodes indices := by
      rw [hlinks.consumers p hp, List.mem_map]
      constructor
      · rintro ⟨⟨i', p'⟩, he, rfl⟩
        obtain ⟨hedge, hp'⟩ := List.mem_filter.1 he
        have hpp : p' = p := of_decide_eq_true hp'
        exact hpp ▸ hedge
      · intro he
        exact ⟨(i, p), List.mem_filter.2 ⟨he, by simp⟩, rfl⟩
    rw [hedge, mem_graphEdges]
    refine and_congr_right fun hi => ?_
    rw [hdependencies i hi, List.mem_map]
  · rw [hlinks.remaining i hi, hlinks.dependencyIndices i hi, List.length_map]

/-- Kahn's algorithm on the tables of a graph: the order repeats no node, lists dependencies first,
and contains every node whose dependencies it contains. -/
theorem Resolves.kahn (h : Resolves nodes indices) {links : Links}
    (hlinks : links.Lists nodes.length (graphEdges nodes indices)) :
    (kahn links nodes.length).Nodup ∧ (∀ i ∈ kahn links nodes.length, i < nodes.length) ∧
    Topological (fun i => links.dependencyIndices[i]!) (kahn links nodes.length) ∧
    ∀ i < nodes.length, (∀ p ∈ links.dependencyIndices[i]!, p ∈ kahn links nodes.length) →
      i ∈ kahn links nodes.length := by
  obtain ⟨-, hconsumes, hremaining⟩ := h.tables hlinks
  exact drain_spec hconsumes (Draining.start hlinks.sizes.2.2 hremaining) (by omega)

end Tables

/-- The three loops of the constructor. -/
theorem create_eq_ok {g : DecisionGraph} : create nodes = .ok g ↔
    ∃ indices links, checkNodes nodes 0 [] = .ok indices ∧
      nodes.zipIdx.foldlM (linkNode indices) (Links.empty nodes.length) = .ok links ∧
      (kahn links nodes.length).length = nodes.length ∧
      g = ⟨nodes, links.dependencyIndices, kahn links nodes.length⟩ := by
  unfold create
  rw [bind_eq_ok_iff]
  refine exists_congr fun indices => ?_
  rw [bind_eq_ok_iff]
  constructor
  · rintro ⟨hcheck, links, hlink, hrest⟩
    refine ⟨links, hcheck, hlink, ?_⟩
    by_cases hlen : (kahn links nodes.length).length = nodes.length
    · rw [if_neg (not_not.2 hlen)] at hrest
      exact ⟨hlen, (Except.ok.inj hrest).symm⟩
    · rw [if_pos hlen] at hrest
      cases hrest
  · rintro ⟨links, hcheck, hlink, hlen, rfl⟩
    refine ⟨hcheck, links, hlink, ?_⟩
    rw [if_neg (not_not.2 hlen)]
    rfl

/-- The first two loops accept the nodes that resolve. -/
theorem resolves_iff {indices : List (Bytes × Nat)} (hcheck : checkNodes nodes 0 [] = .ok indices) :
    Resolves nodes indices ↔
      (∀ node ∈ nodes, ∀ d ∈ node.dependencies, ∃ producer ∈ nodes, producer.id = d) ∧
      ∀ node ∈ nodes, node.dependencies.Nodup := by
  have hknown : ∀ d, (indices.lookup d).isSome = true ↔ ∃ producer ∈ nodes, producer.id = d := by
    intro d
    rw [Option.isSome_iff_exists]
    constructor
    · rintro ⟨k, hk⟩
      obtain ⟨node, hget, hid⟩ := (lookup_checkNodes hcheck).1 hk
      exact ⟨node, List.mem_of_getElem? hget, hid⟩
    · rintro ⟨node, hnode, hid⟩
      obtain ⟨k, hk⟩ := List.mem_iff_getElem?.1 hnode
      exact ⟨k, (lookup_checkNodes hcheck).2 ⟨node, hk, hid⟩⟩
  constructor
  · intro h
    exact ⟨fun node hnode d hd => (hknown d).1 ((h.linkable node hnode).1 d hd),
      fun node hnode => (h.linkable node hnode).2⟩
  · rintro ⟨hdeclared, honce⟩
    exact ⟨fun _ _ => lookup_checkNodes hcheck,
      fun node hnode => ⟨fun d hd => (hknown d).2 (hdeclared node hnode d hd), honce node hnode⟩⟩

/-- The second loop accepts exactly the nodes that resolve. -/
theorem linkNodes_of_resolves {indices : List (Bytes × Nat)} (h : Resolves nodes indices) :
    nodes.zipIdx.foldlM (linkNode indices) (Links.empty nodes.length) =
      .ok ((graphEdges nodes indices).foldl Links.add (Links.empty nodes.length)) := by
  refine linkNodes_eq_ok.2 ⟨fun node hnode => ?_, rfl⟩
  exact h.linkable _ (List.mem_of_getElem? (List.mem_zipIdx_iff_getElem?.1 hnode))

/-- A cycle of identifiers is a cycle of numbers, and conversely. -/
theorem Resolves.acyclic_iff {indices : List (Bytes × Nat)} (h : Resolves nodes indices)
    {links : Links} (hlinks : links.Lists nodes.length (graphEdges nodes indices)) :
    (∀ id, ¬Relation.TransGen (Feeds nodes) id id) ↔
      ∀ i < nodes.length,
        ¬Relation.TransGen (fun p a => p ∈ links.dependencyIndices[a]!) i i := by
  obtain ⟨hdependencies, hconsumes, -⟩ := h.tables hlinks
  have hinside : ∀ {p i : Nat}, p ∈ links.dependencyIndices[i]! → i < nodes.length := by
    intro p i hp
    by_contra hi
    rw [getElem!_neg links.dependencyIndices i (by rwa [hlinks.sizes.1])] at hp
    cases hp
  have hmem : ∀ {i : Nat}, i < nodes.length → nodes[i]! ∈ nodes := fun {i} hi => by
    rw [getElem!_pos nodes i hi]
    exact List.getElem_mem hi
  constructor
  · intro hacyclic i hi hcycle
    refine hacyclic nodes[i]!.id (hcycle.lift (fun i => nodes[i]!.id) fun p a hp => ?_)
    have ha := hinside hp
    rw [hdependencies a ha] at hp
    obtain ⟨d, hd, rfl⟩ := List.mem_map.1 hp
    refine ⟨nodes[a]!, hmem ha, rfl, ?_⟩
    change nodes[producerOf indices d]!.id ∈ _
    rwa [(h.producer (hmem ha) hd).2]
  · intro hacyclic id hcycle
    have hstep : ∀ p a, Feeds nodes p a →
        producerOf indices p ∈ links.dependencyIndices[producerOf indices a]! := by
      rintro p a ⟨node, hnode, rfl, hp⟩
      obtain ⟨k, hk⟩ := List.mem_iff_getElem?.1 hnode
      obtain ⟨hlt, hnode'⟩ := List.getElem?_eq_some_iff.1 hk
      have hnumber : producerOf indices node.id = k := by
        rw [producerOf, (h.lookup node.id k).2 ⟨node, hk, rfl⟩]
        rfl
      rw [hnumber, hdependencies k hlt, getElem!_pos nodes k hlt, hnode']
      exact List.mem_map_of_mem hp
    have hcycle' : Relation.TransGen (fun p a => p ∈ links.dependencyIndices[a]!)
        (producerOf indices id) (producerOf indices id) := hcycle.lift (producerOf indices) hstep
    obtain ⟨c, -, hc⟩ := Relation.TransGen.tail'_iff.1 hcycle'
    exact hacyclic _ (hinside hc) hcycle'

/-- **An accepted list of nodes is well formed, and its graph is ordered.** -/
theorem ordered_of_create {g : DecisionGraph} (hg : create nodes = .ok g) :
    WellFormed nodes ∧ Ordered nodes g := by
  obtain ⟨indices, links, hcheck, hlink, hlen, rfl⟩ := create_eq_ok.1 hg
  obtain ⟨hfine, hnodup, -⟩ := checkNodes_eq_ok.1 hcheck
  obtain ⟨hlinkable, hedges⟩ := linkNodes_eq_ok.1 hlink
  have h : Resolves nodes indices := by
    refine ⟨fun _ _ => lookup_checkNodes hcheck, fun node hnode => ?_⟩
    obtain ⟨k, hk⟩ := List.mem_iff_getElem?.1 hnode
    exact hlinkable (node, k) (List.mem_zipIdx_iff_getElem?.2 hk)
  have hlinks : links.Lists nodes.length (graphEdges nodes indices) :=
    hedges ▸ Links.lists_foldl nodes.length (graphEdges nodes indices)
  obtain ⟨hdeclared, honce⟩ := (resolves_iff hcheck).1 h
  obtain ⟨hdependencies, hconsumes, -⟩ := h.tables hlinks
  obtain ⟨horder, hlt, htop, -⟩ := h.kahn hlinks
  have hperm : (kahn links nodes.length).Perm (List.range nodes.length) :=
    (horder.subperm fun i hi => List.mem_range.2 (hlt i hi)).perm_of_length_le
      (by rw [List.length_range]; exact hlen.ge)
  have hacyclic := (h.acyclic_iff hlinks).2 fun i hi =>
    htop.not_transGen i (hperm.mem_iff.2 (List.mem_range.2 hi))
  refine ⟨⟨fun node hnode => (hfine node hnode).1, fun node hnode => (hfine node hnode).2.1, hnodup,
    hdeclared, honce, hacyclic⟩, ⟨rfl, hconsumes.preds_lt, fun i hi => ?_, hperm, htop⟩⟩
  have hmem : nodes[i]! ∈ nodes := by
    rw [getElem!_pos nodes i hi]
    exact List.getElem_mem hi
  have hresolved : ∀ d ∈ nodes[i]!.dependencies, nodes[producerOf indices d]!.id = d :=
    fun d hd => (h.producer hmem hd).2
  rw [hdependencies i hi, List.map_map]
  exact (List.map_congr_left hresolved).trans (List.map_id _)

/-- **A well-formed list of nodes is accepted.** -/
theorem exists_create_of_wellFormed (h : WellFormed nodes) : ∃ g, create nodes = .ok g := by
  obtain ⟨indices, hcheck⟩ : ∃ indices, checkNodes nodes 0 [] = .ok indices :=
    ⟨_, checkNodes_eq_ok.2
      ⟨fun node hnode => ⟨h.named node hnode, h.evaluator node hnode, rfl⟩, h.nodup, rfl⟩⟩
  have hresolves := (resolves_iff hcheck).2 ⟨h.declared, h.once⟩
  have hlink := linkNodes_of_resolves hresolves
  have hlinks := Links.lists_foldl nodes.length (graphEdges nodes indices)
  set links := (graphEdges nodes indices).foldl Links.add (Links.empty nodes.length)
  obtain ⟨-, hconsumes, -⟩ := hresolves.tables hlinks
  obtain ⟨horder, hlt, -, hclosed⟩ := hresolves.kahn hlinks
  have hacyclic := (hresolves.acyclic_iff hlinks).1 h.acyclic
  have hall : ∀ i ∈ List.range nodes.length, i ∈ kahn links nodes.length :=
    mem_of_closed_of_acyclic
      (fun i hi p hp => List.mem_range.2 (hconsumes.preds_lt i (List.mem_range.1 hi) p hp))
      (fun i hi => hacyclic i (List.mem_range.1 hi))
      (fun i hi => hclosed i (List.mem_range.1 hi))
  have hperm := (List.nodup_range.subperm hall).antisymm
    (horder.subperm fun i hi => List.mem_range.2 (hlt i hi))
  have hlen : (kahn links nodes.length).length = nodes.length := by
    rw [← hperm.length_eq, List.length_range]
  exact ⟨_, create_eq_ok.2 ⟨indices, links, hcheck, hlink, hlen, rfl⟩⟩

/-- The resolved dependencies are one list for each node. -/
theorem length_dependencyIndices {g : DecisionGraph} (hg : create nodes = .ok g) :
    g.dependencyIndices.length = nodes.length := by
  obtain ⟨indices, links, -, hlink, -, rfl⟩ := create_eq_ok.1 hg
  obtain ⟨-, rfl⟩ := linkNodes_eq_ok.1 hlink
  exact (Links.lists_foldl nodes.length (graphEdges nodes indices)).sizes.1

/-- **What the constructor accepts, and what it builds.** It accepts a list of nodes exactly when
the identifiers are nonempty and distinct, every node has an evaluator, every dependency is a node
of the list and declared once, and no node depends on itself, directly or through others. The
order of an accepted list visits every index once and after its dependencies, and the resolved
dependencies of a node are the indices of its declared ones, in declared order. -/
theorem create_accepts_iff (nodes : List GraphNode) :
    ((∃ g, create nodes = .ok g) ↔
      (∀ node ∈ nodes, node.id ≠ []) ∧ (nodes.map GraphNode.id).Nodup ∧
      (∀ node ∈ nodes, node.evaluate.isSome = true) ∧
      (∀ node ∈ nodes, ∀ d ∈ node.dependencies, ∃ producer ∈ nodes, producer.id = d) ∧
      (∀ node ∈ nodes, node.dependencies.Nodup) ∧
      ∀ id, ¬Relation.TransGen (Feeds nodes) id id) ∧
    ∀ g, create nodes = .ok g →
      g.order.Perm (List.range nodes.length) ∧
      (∀ before i after, g.order = before ++ i :: after →
        ∀ p ∈ g.dependencyIndices[i]!, p ∈ before) ∧
      g.dependencyIndices.length = nodes.length ∧
      ∀ i < nodes.length, (∀ p ∈ g.dependencyIndices[i]!, p < nodes.length) ∧
        (g.dependencyIndices[i]!.map fun p => nodes[p]!.id) = nodes[i]!.dependencies := by
  constructor
  · constructor
    · rintro ⟨g, hg⟩
      have h := (ordered_of_create hg).1
      exact ⟨h.named, h.nodup, h.evaluator, h.declared, h.once, h.acyclic⟩
    · rintro ⟨hnamed, hnodup, hevaluator, hdeclared, honce, hacyclic⟩
      exact exists_create_of_wellFormed ⟨hnamed, hevaluator, hnodup, hdeclared, honce, hacyclic⟩
  · intro g hg
    have h := (ordered_of_create hg).2
    exact ⟨h.perm, h.topological, length_dependencyIndices hg,
      fun i hi => ⟨h.lt i hi, h.resolved i hi⟩⟩

end Jevt.DecisionGraph
