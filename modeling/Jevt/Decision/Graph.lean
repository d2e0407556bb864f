import Jevt.Decision.Node

/-!
# Decision graphs

`decision_graph` of `include/jevt/graph.hpp`. The constructor checks the nodes, resolves the
dependencies to indices and orders the nodes by Kahn's algorithm; `evaluate` visits them in that
order. Vectors are lists, and `xs[i]!` is a subscript.

The clock is the sequence of its readings: every call of `steady_clock::now()` takes the next one.
Next to the trace, `run` keeps for each node what the trace does not show (`Settlement`): the
readings that were compared with the deadline and the callbacks that were called.
-/

namespace Jevt

/-- The members of a `decision_graph`. -/
structure DecisionGraph where
  nodes : List GraphNode
  dependencyIndices : List (List Nat)
  order : List Nat

namespace DecisionGraph

/-! ## The constructor -/

/-- The loop that checks each node by itself and numbers the identifiers. -/
def checkNodes : List GraphNode → Nat → List (Bytes × Nat) →
    Except StdException (List (Bytes × Nat))
  | [], _, indices => .ok indices
  | node :: rest, i, indices =>
    if node.id = [] then .error (.invalidArgument (lit "graph node ID must not be empty"))
    else if node.evaluate.isNone then
      .error (.invalidArgument (lit "graph node has no evaluator: " ++ node.id))
    else if (indices.lookup node.id).isSome then
      .error (.invalidArgument (lit "duplicate graph node ID: " ++ node.id))
    else checkNodes rest (i + 1) ((node.id, i) :: indices)

/-- The tables the second loop fills: the dependencies of each node, the nodes that consume each
node, and the number of dependencies that are still to be ordered. -/
structure Links where
  dependencyIndices : List (List Nat)
  consumers : List (List Nat)
  remaining : List Nat

/-- The tables before the second loop. -/
def Links.empty (n : Nat) : Links :=
  ⟨List.replicate n [], List.replicate n [], List.replicate n 0⟩

/-- The inner turn of the second loop: one dependency of the node with index `i`. -/
def linkDependency (indices : List (Bytes × Nat)) (node : GraphNode) (i : Nat)
    (acc : List Bytes × Links) (dependency : Bytes) : Except StdException (List Bytes × Links) :=
  match indices.lookup dependency with
  | none => .error (.invalidArgument
      (lit "missing graph dependency: " ++ node.id ++ lit " -> " ++ dependency))
  | some producer =>
    if dependency ∈ acc.1 then .error (.invalidArgument
      (lit "duplicate graph dependency: " ++ node.id ++ lit " -> " ++ dependency))
    else .ok (dependency :: acc.1,
      { dependencyIndices := acc.2.dependencyIndices.modify i (· ++ [producer])
        consumers := acc.2.consumers.modify producer (· ++ [i])
        remaining := acc.2.remaining.modify i (· + 1) })

/-- The outer turn of the second loop: one node. -/
def linkNode (indices : List (Bytes × Nat)) (links : Links) (node : GraphNode × Nat) :
    Except StdException Links := do
  let (_, links) ← node.1.dependencies.foldlM (linkDependency indices node.1 node.2) ([], links)
  return links

/-- The turn of the last loop for one consumer of an ordered node: `--remaining[consumer]`, and
the consumer follows in the order when nothing it depends on is left. -/
def release (acc : List Nat × List Nat) (consumer : Nat) : List Nat × List Nat :=
  let left := sizeSub acc.1[consumer]! 1
  (acc.1.set consumer left, if left = 0 then acc.2 ++ [consumer] else acc.2)

/-- The last loop: the nodes behind the cursor have released their consumers. The first argument
bounds the number of turns. -/
def drain (consumers : List (List Nat)) : Nat → Nat → List Nat × List Nat → List Nat
  | 0, _, acc => acc.2
  | turns + 1, cursor, acc =>
    if cursor < acc.2.length then
      drain consumers turns (cursor + 1) (consumers[acc.2[cursor]!]!.foldl release acc)
    else acc.2

/-- Kahn's algorithm on the finished tables. -/
def kahn (links : Links) (n : Nat) : List Nat :=
  drain links.consumers n 0
    (links.remaining, (List.range n).filter fun i => links.remaining[i]! = 0)

/-- The constructor. -/
def create (nodes : List GraphNode) : Except StdException DecisionGraph := do
  let indices ← checkNodes nodes 0 []
  let links ← nodes.zipIdx.foldlM (linkNode indices) (Links.empty nodes.length)
  let order := kahn links nodes.length
  if order.length ≠ nodes.length then
    throw (.invalidArgument (lit "decision graph contains a dependency cycle"))
  return { nodes, dependencyIndices := links.dependencyIndices, order }

/-! ## The visit of a node -/

/-- The callbacks of a node. -/
inductive Callback where
  | condition
  | evaluate
  deriving DecidableEq, Repr

/-- The call of an evaluator. The constructor has made sure that there is one; calling an empty
function throws. -/
def callEvaluate (node : GraphNode) (context : GraphContext) : GraphNodeResult :=
  match node.evaluate with
  | none => .failure (lit "bad_function_call")
  | some evaluate =>
    match evaluate context with
    | .returned result => result
    | .threw what => .failure what
    | .threwOther => .failure (lit "non-standard exception in graph callback")

/-- The `try` block of a node that is not blocked, with the callbacks it calls. -/
def callNode (node : GraphNode) (context : GraphContext) : GraphNodeResult × List Callback :=
  match node.condition with
  | none => (callEvaluate node context, [.evaluate])
  | some condition =>
    match condition context with
    | .returned true => (callEvaluate node context, [.condition, .evaluate])
    | .returned false => (.skip (lit "condition is false"), [.condition])
    | .threw what => (.failure what, [.condition])
    | .threwOther => (.failure (lit "non-standard exception in graph callback"), [.condition])

/-- The loop that looks for a dependency without success. -/
def blockedBy : List GraphNodeTrace → Option GraphNodeResult
  | [] => none
  | dependency :: rest =>
    if dependency.status = .succeeded then blockedBy rest
    else if dependency.status = .stale then
      some (.stale (lit "stale dependency: " ++ dependency.id))
    else some (.skip (lit "unavailable dependency: " ++ dependency.id))

/-- A late success is stale. -/
def checkReturn (expired : Bool) (result : GraphNodeResult) : GraphNodeResult :=
  if result.status = .succeeded ∧ expired then
    { result with
      status := .stale
      message := lit "evaluation deadline expired during callback" }
  else result

/-- A success that was computed from another snapshot is stale. -/
def checkSnapshot (snapshot : GraphSnapshot) (result : GraphNodeResult) : GraphNodeResult :=
  if result.status = .succeeded ∧ result.snapshotId ≠ [] ∧ result.snapshotId ≠ snapshot.id then
    { result with
      status := .stale
      message := lit "output snapshot does not match evaluation snapshot" }
  else result

/-- A result without a snapshot identifier gets the one of the evaluation. -/
def fillSnapshot (snapshot : GraphSnapshot) (result : GraphNodeResult) : GraphNodeResult :=
  if result.snapshotId = [] then { result with snapshotId := snapshot.id } else result

/-- The lambda `expired`: it reads the clock only when there is a deadline. The second component
is the number of readings taken after it. -/
def readExpired (deadline : Option Int) (clock : Nat → Int) (reads : Nat) : Option Int × Nat :=
  match deadline with
  | none => (none, reads)
  | some _ => (some (clock reads), reads + 1)

/-- What `expired` answers for its reading. -/
def isExpired (deadline reading : Option Int) : Bool :=
  match deadline, reading with
  | some limit, some now => decide (limit ≤ now)
  | _, _ => false

/-- Why a node is not called at all: the deadline has expired, or a dependency it requires has not
succeeded. -/
def blocked (node : GraphNode) (dependencies : List GraphNodeTrace) (expired : Bool) :
    Option GraphNodeResult :=
  if expired then some (.stale (lit "evaluation deadline expired"))
  else if node.requireSuccessfulDependencies then blockedBy dependencies
  else none

/-- What the part of a visit between its first and its last clock reading computes: the result, the
readings compared with the deadline, the callbacks, and the number of readings so far. -/
structure Settlement where
  result : GraphNodeResult
  startReading : Option Int
  invoked : List Callback := []
  returnReading : Option Int := none
  reads : Nat

/-- The part of a visit between its first and its last clock reading. -/
def settle (node : GraphNode) (context : GraphContext) (deadline : Option Int)
    (clock : Nat → Int) (reads : Nat) : Settlement :=
  let (startReading, reads) := readExpired deadline clock reads
  match blocked node context.dependencies (isExpired deadline startReading) with
  | some result => { result := fillSnapshot context.snapshot result, startReading, reads }
  | none =>
    let (result, invoked) := callNode node context
    let (returnReading, reads) :=
      if result.status = .succeeded then readExpired deadline clock reads else (none, reads)
    let checked := checkSnapshot context.snapshot
      (checkReturn (isExpired deadline returnReading) result)
    { result := fillSnapshot context.snapshot checked, startReading, invoked, returnReading, reads }

/-- What the visit of a node did: the record it left in the trace, and how it got there from the
number of readings taken before. -/
structure Visit where
  record : GraphNodeTrace
  reads : Nat
  settled : Settlement

/-- The variables of the loop of `evaluate`. -/
structure Evaluation where
  nodes : List GraphNodeTrace := []
  edges : List GraphEdge := []
  traceIndices : List Nat
  reads : Nat
  visits : List Visit := []

/-- One turn of the loop of `evaluate`. -/
def visitNode (g : DecisionGraph) (snapshot : GraphSnapshot) (deadline : Option Int)
    (clock : Nat → Int) (acc : Evaluation) (index : Nat) : Evaluation :=
  let node := g.nodes[index]!
  let predecessors := g.dependencyIndices[index]!
  let dependencies := predecessors.map fun predecessor => acc.nodes[acc.traceIndices[predecessor]!]!
  let nodeStarted := clock acc.reads
  let settled := settle node ⟨snapshot, dependencies⟩ deadline clock (acc.reads + 1)
  let item : GraphNodeTrace :=
    { toGraphNodeResult := settled.result
      id := node.id
      dependencies := node.dependencies
      duration := clock settled.reads - nodeStarted }
  { nodes := acc.nodes ++ [item]
    edges := acc.edges ++
      predecessors.map fun predecessor => ⟨g.nodes[predecessor]!.id, node.id⟩
    traceIndices := acc.traceIndices.set index acc.nodes.length
    reads := settled.reads + 1
    visits := acc.visits ++ [⟨item, acc.reads + 1, settled⟩] }

/-- The loop of `evaluate`, after the clock reading that starts it. -/
def run (g : DecisionGraph) (snapshot : GraphSnapshot) (deadline : Option Int)
    (clock : Nat → Int) : Evaluation :=
  g.order.foldl (g.visitNode snapshot deadline clock)
    { traceIndices := List.replicate g.nodes.length 0, reads := 1 }

/-- `evaluate`. -/
def evaluate (g : DecisionGraph) (snapshot : GraphSnapshot) (deadline : Option Int)
    (clock : Nat → Int) : Except StdException GraphTrace :=
  if snapshot.id = [] then
    .error (.invalidArgument (lit "graph snapshot ID must not be empty"))
  else
    let final := g.run snapshot deadline clock
    .ok {
      snapshotId := snapshot.id
      nodes := final.nodes
      edges := final.edges
      duration := clock final.reads - clock 0 }

end DecisionGraph

end Jevt
