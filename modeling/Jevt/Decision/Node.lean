import Jevt.Core.Request

/-!
# Nodes and records of decision graphs

The records of `include/jevt/graph.hpp`: what a node is given, what it may answer, and what a
trace keeps of it. A callback is a function of its context that returns or throws. Within one
evaluation a callback is called at most once, so a callback with state of its own behaves in that
evaluation like some function of the context.
-/

namespace Jevt

/-- `state_value`. -/
structure StateValue where
  content : Bytes := []
  kind : ContentKind := .text
  deriving DecidableEq, Repr

/-- `graph_status`, with the values that have no name. -/
inductive GraphStatus where
  | succeeded
  | skipped
  | error
  | stale
  | unnamed (raw : Int)
  deriving DecidableEq, Repr

/-- `graph_snapshot`. -/
structure GraphSnapshot where
  id : Bytes
  input : StateValue := {}
  deriving DecidableEq, Repr

/-- `graph_node_result`. An empty snapshot identifier means that the result was computed from the
snapshot of this evaluation. -/
structure GraphNodeResult where
  status : GraphStatus := .succeeded
  output : StateValue := {}
  message : Bytes := []
  snapshotId : Bytes := []
  deriving DecidableEq, Repr

namespace GraphNodeResult

/-- `graph_node_result::success`. -/
def success (output : StateValue) (snapshotId : Bytes := []) : GraphNodeResult :=
  { status := .succeeded, output, snapshotId }

/-- `graph_node_result::skip`. -/
def skip (reason : Bytes) : GraphNodeResult :=
  { status := .skipped, message := reason }

/-- `graph_node_result::failure`. -/
def failure (reason : Bytes) : GraphNodeResult :=
  { status := .error, message := reason }

/-- `graph_node_result::stale`. -/
def stale (reason : Bytes) (snapshotId : Bytes := []) : GraphNodeResult :=
  { status := .stale, message := reason, snapshotId }

end GraphNodeResult

/-- `graph_node_trace`. Durations are nanoseconds. -/
structure GraphNodeTrace extends GraphNodeResult where
  id : Bytes := []
  dependencies : List Bytes := []
  duration : Int := 0
  deriving DecidableEq, Repr, Inhabited

/-- `graph_context`. -/
structure GraphContext where
  snapshot : GraphSnapshot
  dependencies : List GraphNodeTrace

/-- `graph_context::find`. -/
def GraphContext.find (context : GraphContext) (id : Bytes) : Option GraphNodeTrace :=
  context.dependencies.find? fun dependency => dependency.id = id

/-- `graph_context::at`. -/
def GraphContext.at (context : GraphContext) (id : Bytes) : Except StdException GraphNodeTrace :=
  match context.find id with
  | some dependency => .ok dependency
  | none => .error (.outOfRange (lit "undeclared graph dependency: " ++ id))

/-- How a callback ends. -/
inductive Outcome (α : Type) where
  | returned (value : α)
  | threw (what : Bytes)
  | threwOther
  deriving DecidableEq, Repr

/-- `graph_node`. An empty `std::function` is `none`. -/
structure GraphNode where
  id : Bytes := []
  dependencies : List Bytes := []
  evaluate : Option (GraphContext → Outcome GraphNodeResult) := none
  condition : Option (GraphContext → Outcome Bool) := none
  requireSuccessfulDependencies : Bool := true
  deriving Inhabited

/-- `graph_edge`. -/
structure GraphEdge where
  source : Bytes
  target : Bytes
  deriving DecidableEq, Repr

/-- `graph_trace`. -/
structure GraphTrace where
  snapshotId : Bytes
  nodes : List GraphNodeTrace := []
  edges : List GraphEdge := []
  duration : Int := 0
  deriving DecidableEq, Repr

/-- `graph_trace::at`. -/
def GraphTrace.at (trace : GraphTrace) (id : Bytes) : Except StdException GraphNodeTrace :=
  match trace.nodes.find? fun node => node.id = id with
  | some node => .ok node
  | none => .error (.outOfRange (lit "unknown graph node: " ++ id))

end Jevt
