import Jevt.Decision.Graph
import Jevt.Library.Utf8
import Jevt.Remote.Json

/-!
# Configured graphs

`operator_registry` of `include/jevt/operator_registry.hpp` and `parse_graph_spec` of
`include/jevt/graph_json.hpp`: a declaration in JSON is read into a `graph_spec`, the bounds of the
specification are checked, the factories of its operators are invoked, and the graph is constructed.

`compile` also returns what it has invoked. A factory may keep a state, so what it does depends on
the number of the invocations before it. The serializer of the JSON library is a parameter; its
typed access is the one of `JsonValue`.
-/

namespace Jevt

open Library

/-- `operator_node_spec`. -/
structure OperatorNodeSpec where
  id : Bytes := []
  operatorId : Bytes := []
  dependencies : List Bytes := []
  parameters : StateValue := {}
  requireSuccessfulDependencies : Bool := true
  deriving DecidableEq, Repr

/-- `graph_spec`. -/
structure GraphSpec where
  schemaVersion : Bytes := lit "jevt.graph.v1"
  nodes : List OperatorNodeSpec := []
  deriving DecidableEq, Repr

/-- `operator_registry::factory`. The evaluator it returns may be empty. -/
abbrev Factory :=
  Nat → StateValue → Outcome (Option (GraphContext → Outcome GraphNodeResult))

/-- Why a graph is not loaded: an exception of the standard library, of the JSON library, or of a
factory. -/
inductive LoadFailure where
  | std (failure : StdException)
  | json
  | factory
  deriving DecidableEq, Repr

/-- The members of an `operator_registry`. -/
structure OperatorRegistry where
  factories : List (Bytes × Factory) := []

namespace OperatorRegistry

/-- `add`. -/
def add (registry : OperatorRegistry) (id : Bytes) (make : Option Factory) :
    Except StdException OperatorRegistry :=
  match make with
  | none => .error (.invalidArgument (lit "operator requires 1..128 byte ID and factory"))
  | some make =>
    if id = [] ∨ 128 < id.length then
      .error (.invalidArgument (lit "operator requires 1..128 byte ID and factory"))
    else if (registry.factories.lookup id).isSome then
      .error (.invalidArgument (lit "duplicate registered operator"))
    else .ok { factories := (id, make) :: registry.factories }

/-- The loop that checks the bounds. The second argument is the size of the parameters so far. -/
def checkBounds : List OperatorNodeSpec → Nat → Except StdException Unit
  | [], _ => .ok ()
  | item :: rest, parameterBytes =>
    if item.id = [] ∨ 128 < item.id.length ∨ item.operatorId = [] ∨
        128 < item.operatorId.length then
      .error (.invalidArgument (lit "node and operator IDs require 1..128 bytes"))
    else if 1024 < item.dependencies.length then
      .error (.invalidArgument (lit "too many declared dependencies"))
    else if ∃ dependency ∈ item.dependencies, dependency = [] ∨ 128 < dependency.length then
      .error (.invalidArgument (lit "dependency IDs require 1..128 bytes"))
    else if 65536 < item.parameters.content.length then
      .error (.invalidArgument (lit "operator parameters exceed 64 KiB"))
    else if 1048576 < parameterBytes + item.parameters.content.length then
      .error (.invalidArgument (lit "graph parameters exceed 1 MiB"))
    else checkBounds rest (parameterBytes + item.parameters.content.length)

/-- The loop that invokes the factories. The last argument is what has been invoked so far. -/
def instantiate (registry : OperatorRegistry) :
    List OperatorNodeSpec → List (Bytes × StateValue) →
      Except LoadFailure (List GraphNode) × List (Bytes × StateValue)
  | [], invoked => (.ok [], invoked)
  | item :: rest, invoked =>
    match registry.factories.lookup item.operatorId with
    | none =>
      (.error (.std (.invalidArgument (lit "unregistered operator: " ++ item.operatorId))), invoked)
    | some make =>
      match make invoked.length item.parameters with
      | .returned evaluate =>
        let (nodes, invoked) :=
          registry.instantiate rest (invoked ++ [(item.operatorId, item.parameters)])
        (nodes.map fun nodes =>
          { id := item.id
            dependencies := item.dependencies
            evaluate
            requireSuccessfulDependencies := item.requireSuccessfulDependencies } :: nodes,
          invoked)
      | .threw _ | .threwOther =>
        (.error .factory, invoked ++ [(item.operatorId, item.parameters)])

/-- `compile`, with the factories it has invoked and their parameters. -/
def compile (registry : OperatorRegistry) (spec : GraphSpec) :
    Except LoadFailure DecisionGraph × List (Bytes × StateValue) :=
  if spec.schemaVersion ≠ lit "jevt.graph.v1" then
    (.error (.std (.invalidArgument (lit "unsupported graph schema_version"))), [])
  else if spec.nodes = [] ∨ 1024 < spec.nodes.length then
    (.error (.std (.invalidArgument (lit "graph requires 1..1024 nodes"))), [])
  else
    match checkBounds spec.nodes 0 with
    | .error failure => (.error (.std failure), [])
    | .ok () =>
      match registry.instantiate spec.nodes [] with
      | (.error failure, invoked) => (.error failure, invoked)
      | (.ok nodes, invoked) => ((DecisionGraph.create nodes).mapError .std, invoked)

end OperatorRegistry

/-- `json_state`. -/
def jsonState (content : Bytes) : Except StdException StateValue :=
  if content.all fun b => (lit " \t\r\n").contains b then
    .error (.invalidArgument (lit "JSON state must not be empty"))
  else .ok { content, kind := .json }

namespace GraphJson

/-- What an access of the JSON library yields; it throws an exception of its own. -/
def access {α : Type} : Option α → Except LoadFailure α
  | some a => .ok a
  | none => .error .json

/-- `graph_json_detail::keys`. -/
def keys (value : JsonValue) (allowed : List Bytes) : Except LoadFailure Unit :=
  match value with
  | .object members =>
    match members.find? fun member => !allowed.contains member.1 with
    | some member =>
      .error (.std (.invalidArgument (lit "unknown graph declaration field: " ++ member.1)))
    | none => .ok ()
  | _ => .error (.std (.invalidArgument (lit "graph declaration must be an object")))

/-- `get<std::vector<std::string>>`. -/
def getStrings : JsonValue → Option (List Bytes)
  | .array items => items.mapM JsonValue.getString
  | _ => none

/-- `get<bool>`. -/
def getBoolean : JsonValue → Option Bool
  | .boolean value => some value
  | _ => none

/-- `value` with a key and a default: a member that is there has to be of the type. -/
def valueOr {α : Type} (read : JsonValue → Option α) (default : α) (key : Bytes) :
    JsonValue → Option α
  | .object members =>
    match members.lookup key with
    | some item => read item
    | none => some default
  | _ => none

/-- The turn of the loop of `parse_graph_spec` for one node. -/
def parseNode (dump : JsonValue → Option Bytes) (node : JsonValue) :
    Except LoadFailure OperatorNodeSpec := do
  keys node [lit "id", lit "operator", lit "depends_on", lit "params",
    lit "require_successful_dependencies"]
  let id ← access ((node.member (lit "id")).bind JsonValue.getString)
  let operatorId ← access ((node.member (lit "operator")).bind JsonValue.getString)
  let dependencies ← access (valueOr getStrings [] (lit "depends_on") node)
  let content ← access ((valueOr some (.object []) (lit "params") node).bind dump)
  let parameters ← (jsonState content).mapError .std
  let requireSuccessfulDependencies ←
    access (valueOr getBoolean true (lit "require_successful_dependencies") node)
  return { id, operatorId, dependencies, parameters, requireSuccessfulDependencies }

/-- The check of the schema version. -/
def schemaVersion (version : Bytes) : Except LoadFailure Bytes :=
  if version ≠ lit "jevt.graph.v1" then
    .error (.std (.invalidArgument (lit "unsupported graph schema_version")))
  else .ok version

/-- The check of the array of the nodes. -/
def nodeArray : JsonValue → Except LoadFailure (List JsonValue)
  | .array items =>
    if items = [] ∨ 1024 < items.length then
      .error (.std (.invalidArgument (lit "graph requires an array of 1..1024 nodes")))
    else .ok items
  | _ => .error (.std (.invalidArgument (lit "graph requires an array of 1..1024 nodes")))

/-- `parse_graph_spec`. -/
def parseGraphSpec (dump : JsonValue → Option Bytes) (value : JsonValue) :
    Except LoadFailure GraphSpec := do
  keys value [lit "schema_version", lit "nodes"]
  let version ← access ((value.member (lit "schema_version")).bind JsonValue.getString)
  let version ← schemaVersion version
  let nodes ← access (value.member (lit "nodes"))
  let items ← nodeArray nodes
  let nodes ← items.mapM (parseNode dump)
  return { schemaVersion := version, nodes }

/-- `registry.compile(parse_graph_spec(value))`. -/
def load (dump : JsonValue → Option Bytes) (registry : OperatorRegistry) (value : JsonValue) :
    Except LoadFailure DecisionGraph × List (Bytes × StateValue) :=
  match parseGraphSpec dump value with
  | .error failure => (.error failure, [])
  | .ok spec => registry.compile spec

end GraphJson

end Jevt
