import Jevt.Decision.Order
import Jevt.Decision.Registry
import Jevt.Library.Traverse

/-!
# Which configured graphs are accepted

A declaration is accepted exactly when it declares nodes in the closed schema (`Declares`), within
the limits (`WithinLimits`), of registered operators, whose dependencies are sound
(`WellConnected`): the three layers, the parser, the bounds and the constructor of the graph, each
have a lemma that says what passes (`parseGraphSpec_eq_ok`, `checkBounds_eq_ok`,
`instantiate_spec`), and `graph_accepted_iff` puts them together.
-/

namespace Jevt

open Library

/-- A value all of whose text is well-formed UTF-8. -/
inductive JsonValue.IsUtf8 : JsonValue → Prop
  | null : IsUtf8 null
  | boolean (value : Bool) : IsUtf8 (boolean value)
  | string {value : Bytes} (h : Utf8 value) : IsUtf8 (string value)
  | unsigned (value : UInt64) : IsUtf8 (unsigned value)
  | integer (value : Int) : IsUtf8 (integer value)
  | float (value : Floating) : IsUtf8 (float value)
  | array {items : List JsonValue} (h : ∀ item ∈ items, IsUtf8 item) : IsUtf8 (array items)
  | object {members : List (Bytes × JsonValue)} (hkeys : ∀ key value, (key, value) ∈ members →
      Utf8 key) (h : ∀ key value, (key, value) ∈ members → IsUtf8 value) : IsUtf8 (object members)

namespace JsonValue

@[simp] theorem isUtf8_boolean (value : Bool) : (boolean value).IsUtf8 :=
  .boolean value

@[simp] theorem isUtf8_string {value : Bytes} : (string value).IsUtf8 ↔ Utf8 value :=
  ⟨fun h => by cases h with | string h => exact h, .string⟩

@[simp] theorem isUtf8_array {items : List JsonValue} :
    (array items).IsUtf8 ↔ ∀ item ∈ items, item.IsUtf8 :=
  ⟨fun h => by cases h with | array h => exact h, .array⟩

@[simp] theorem isUtf8_object {members : List (Bytes × JsonValue)} :
    (object members).IsUtf8 ↔ ∀ member ∈ members, Utf8 member.1 ∧ member.2.IsUtf8 := by
  constructor
  · intro h
    cases h with
    | object hkeys h => exact fun member hmem => ⟨hkeys _ _ hmem, h _ _ hmem⟩
  · exact fun h => .object (fun key value hmem => (h _ hmem).1) fun key value hmem => (h _ hmem).2

end JsonValue

/-- What is relied on of `dump`: it throws on ill-formed text only, and what it writes is not
blank. -/
structure Serializes (dump : JsonValue → Option Bytes) : Prop where
  total : ∀ value : JsonValue, value.IsUtf8 → ∃ text, dump value = some text
  notBlank : ∀ value text, dump value = some text → ∃ b ∈ text, b ∉ lit " \t\r\n"

namespace GraphJson

variable {dump : JsonValue → Option Bytes} {registry : OperatorRegistry}
  {nodes : List OperatorNodeSpec}

/-- The members of an object declare a node: there are no other members than the known ones, and
each has its type or is absent where it may be. -/
structure DeclaresNode (dump : JsonValue → Option Bytes) (members : List (Bytes × JsonValue))
    (node : OperatorNodeSpec) : Prop where
  closed : ∀ member ∈ members, member.1 ∈ [lit "id", lit "operator", lit "depends_on",
    lit "params", lit "require_successful_dependencies"]
  id : members.lookup (lit "id") = some (.string node.id)
  operatorId : members.lookup (lit "operator") = some (.string node.operatorId)
  dependencies : members.lookup (lit "depends_on") = none ∧ node.dependencies = [] ∨
    members.lookup (lit "depends_on") = some (.array (node.dependencies.map .string))
  parameters : node.parameters =
    { content := (dump ((members.lookup (lit "params")).getD (.object []))).getD []
      kind := .json }
  required : members.lookup (lit "require_successful_dependencies") = none ∧
      node.requireSuccessfulDependencies = true ∨
    members.lookup (lit "require_successful_dependencies") =
      some (.boolean node.requireSuccessfulDependencies)

/-- A value declares nodes: it is an object with the schema version and the array of the nodes, and
no other members. -/
def Declares (dump : JsonValue → Option Bytes) (value : JsonValue)
    (nodes : List OperatorNodeSpec) : Prop :=
  ∃ members items, value = .object members ∧
    (∀ member ∈ members, member.1 ∈ [lit "schema_version", lit "nodes"]) ∧
    members.lookup (lit "schema_version") = some (.string (lit "jevt.graph.v1")) ∧
    members.lookup (lit "nodes") = some (.array items) ∧
    List.Forall₂ (fun item node => ∃ members, item = .object members ∧
      DeclaresNode dump members node) items nodes

/-- The sizes of identifiers, dependencies and parameters. -/
structure WithinLimits (nodes : List OperatorNodeSpec) : Prop where
  ids : ∀ node ∈ nodes, node.id ≠ [] ∧ node.id.length ≤ 128 ∧ node.operatorId ≠ [] ∧
    node.operatorId.length ≤ 128
  dependencies : ∀ node ∈ nodes, node.dependencies.length ≤ 1024 ∧
    ∀ dependency ∈ node.dependencies, dependency ≠ [] ∧ dependency.length ≤ 128
  parameters : ∀ node ∈ nodes, node.parameters.content.length ≤ 65536
  total : (nodes.map fun node => node.parameters.content.length).sum ≤ 1048576

/-- The node `a` of the specification depends on `p`. -/
def Requires (nodes : List OperatorNodeSpec) (p a : Bytes) : Prop :=
  ∃ node ∈ nodes, node.id = a ∧ p ∈ node.dependencies

/-- The identifiers are distinct, every dependency is one of them and listed once, and no node
depends on itself, directly or through others. -/
structure WellConnected (nodes : List OperatorNodeSpec) : Prop where
  distinct : (nodes.map OperatorNodeSpec.id).Nodup
  declared : ∀ node ∈ nodes, ∀ dependency ∈ node.dependencies,
    ∃ producer ∈ nodes, producer.id = dependency
  once : ∀ node ∈ nodes, node.dependencies.Nodup
  acyclic : ∀ id, ¬Relation.TransGen (Requires nodes) id id

/-! ## The parser -/

/-- An access succeeds when it finds what it looks for. -/
theorem access_eq_ok {α : Type} {found : Option α} {a : α} :
    access found = .ok a ↔ found = some a := by
  cases found <;> simp [access]

/-- The check of the members passes on an object without other members. -/
theorem keys_eq_ok {value : JsonValue} {allowed : List Bytes} {checked : Unit} :
    keys value allowed = .ok checked ↔
      ∃ members, value = .object members ∧ ∀ member ∈ members, member.1 ∈ allowed := by
  unfold keys
  cases value with
  | object members =>
    dsimp only
    split
    · next member hfind =>
      have hmem := List.mem_of_find?_eq_some hfind
      have hnot := List.find?_some hfind
      simp only [Bool.not_eq_true', List.contains_eq_mem, decide_eq_false_iff_not] at hnot
      constructor
      · intro h
        cases h
      · rintro ⟨_, heq, hall⟩
        cases heq
        exact absurd (hall member hmem) hnot
    · next hfind =>
      have hall := List.find?_eq_none.1 hfind
      simp only [Bool.not_eq_true', Bool.not_eq_false, List.contains_iff_mem] at hall
      exact ⟨fun _ => ⟨members, rfl, hall⟩, fun _ => rfl⟩
  | _ => simp

/-- The elements of an array of strings. -/
theorem mapM_getString {items : List JsonValue} {texts : List Bytes} :
    items.mapM JsonValue.getString = some texts ↔ items = texts.map .string := by
  have hstring : ∀ (item : JsonValue) (text : Bytes),
      item.getString = some text ↔ item = .string text := by
    intro item text
    cases item <;> simp [JsonValue.getString]
  rw [mapM_eq_some_iff]
  simp only [hstring]
  rw [List.forall₂_eq_eq_eq.symm, List.forall₂_map_right_iff]

/-- A member that may be absent: its value is read, or is the default. -/
theorem valueOr_eq_some {α : Type} {read : JsonValue → Option α} {default a : α} {key : Bytes}
    {members : List (Bytes × JsonValue)} :
    valueOr read default key (.object members) = some a ↔
      members.lookup key = none ∧ default = a ∨
        ∃ item, members.lookup key = some item ∧ read item = some a := by
  unfold valueOr
  dsimp only
  cases members.lookup key <;> simp

/-- What a list of dependencies is read from. -/
theorem getStrings_eq_some {item : JsonValue} {texts : List Bytes} :
    getStrings item = some texts ↔ item = .array (texts.map .string) := by
  cases item <;> simp [getStrings, mapM_getString]

/-- What a truth value is read from. -/
theorem getBoolean_eq_some {item : JsonValue} {b : Bool} :
    getBoolean item = some b ↔ item = .boolean b := by
  cases item <;> simp [getBoolean]

/-- What text is read from. -/
theorem member_getString_eq_some {members : List (Bytes × JsonValue)} {key text : Bytes} :
    (((JsonValue.object members).member key).bind JsonValue.getString) = some text ↔
      members.lookup key = some (.string text) := by
  rw [JsonValue.member]
  cases members.lookup key with
  | none => simp
  | some item => cases item <;> simp [JsonValue.getString]

/-- A value of a member of well-formed text has well-formed text, and so has the empty object. -/
theorem isUtf8_getD {members : List (Bytes × JsonValue)} (h : (JsonValue.object members).IsUtf8)
    (key : Bytes) : ((members.lookup key).getD (.object [])).IsUtf8 := by
  cases hlookup : members.lookup key with
  | none => simp
  | some item => exact (JsonValue.isUtf8_object.1 h _ (mem_of_lookup hlookup)).2

/-- The parameters of a node are serialized, the default ones if it has none. -/
theorem parameters_eq_ok (hdump : Serializes dump) {members : List (Bytes × JsonValue)}
    (h : (JsonValue.object members).IsUtf8) {content : Bytes} :
    (valueOr some (.object []) (lit "params") (.object members)).bind dump = some content ↔
      (dump ((members.lookup (lit "params")).getD (.object []))).getD [] = content := by
  obtain ⟨text, htext⟩ := hdump.total _ (isUtf8_getD h (lit "params"))
  have hvalue : valueOr some (.object []) (lit "params") (.object members) =
      some ((members.lookup (lit "params")).getD (.object [])) := by
    unfold valueOr
    dsimp only
    cases members.lookup (lit "params") <;> rfl
  simp [hvalue, htext]

/-- Serialized parameters are a state. -/
theorem jsonState_dump (hdump : Serializes dump) {value : JsonValue} (h : value.IsUtf8) :
    jsonState ((dump value).getD []) = .ok { content := (dump value).getD [], kind := .json } := by
  obtain ⟨text, htext⟩ := hdump.total value h
  obtain ⟨b, hb, hvisible⟩ := hdump.notBlank value text htext
  rw [htext, Option.getD_some, jsonState, if_neg fun hall => ?_]
  exact hvisible (List.contains_iff_mem.1 (List.all_eq_true.1 hall b hb))

/-- **The parser of a node** accepts the objects that declare one. -/
theorem parseNode_eq_ok (hdump : Serializes dump) {item : JsonValue} (h : item.IsUtf8)
    {node : OperatorNodeSpec} :
    parseNode dump item = .ok node ↔
      ∃ members, item = .object members ∧ DeclaresNode dump members node := by
  unfold parseNode
  simp only [bind_eq_ok_iff, keys_eq_ok, access_eq_ok]
  constructor
  · rintro ⟨-, ⟨members, rfl, hclosed⟩, id, hid, operatorId, hoperator, dependencies, hdependencies,
      content, hcontent, parameters, hparameters, required, hrequired, hnode⟩
    obtain rfl := Except.ok.inj hnode
    rw [member_getString_eq_some] at hid hoperator
    simp only [valueOr_eq_some, getStrings_eq_some, getBoolean_eq_some] at hdependencies hrequired
    rw [parameters_eq_ok hdump h] at hcontent
    rw [← hcontent, jsonState_dump hdump (isUtf8_getD h _)] at hparameters
    refine ⟨members, rfl, hclosed, hid, hoperator, ?_, (Except.ok.inj hparameters).symm, ?_⟩
    · rcases hdependencies with ⟨hnone, rfl⟩ | ⟨_, hsome, rfl⟩
      · exact .inl ⟨hnone, rfl⟩
      · exact .inr hsome
    · rcases hrequired with ⟨hnone, rfl⟩ | ⟨_, hsome, rfl⟩
      · exact .inl ⟨hnone, rfl⟩
      · exact .inr hsome
  · rintro ⟨members, rfl, hdeclares⟩
    refine ⟨(), ⟨members, rfl, hdeclares.closed⟩, node.id, ?_, node.operatorId, ?_,
      node.dependencies, ?_, node.parameters.content, ?_, node.parameters, ?_,
      node.requireSuccessfulDependencies, ?_, rfl⟩
    · exact member_getString_eq_some.2 hdeclares.id
    · exact member_getString_eq_some.2 hdeclares.operatorId
    · rw [valueOr_eq_some]
      rcases hdeclares.dependencies with ⟨hnone, hnil⟩ | hsome
      · exact .inl ⟨hnone, hnil.symm⟩
      · exact .inr ⟨_, hsome, getStrings_eq_some.2 rfl⟩
    · rw [parameters_eq_ok hdump h, hdeclares.parameters]
    · rw [hdeclares.parameters, jsonState_dump hdump (isUtf8_getD h _)]
      rfl
    · rw [valueOr_eq_some]
      rcases hdeclares.required with ⟨hnone, htrue⟩ | hsome
      · exact .inl ⟨hnone, htrue.symm⟩
      · exact .inr ⟨_, hsome, getBoolean_eq_some.2 rfl⟩

/-- The check of the schema version. -/
theorem schemaVersion_eq_ok {version checked : Bytes} :
    schemaVersion version = .ok checked ↔ checked = version ∧ version = lit "jevt.graph.v1" := by
  unfold schemaVersion
  split_ifs with h
  · simp [h]
  · rw [not_not] at h
    simp [h, eq_comm]

/-- The check of the array of the nodes. -/
theorem nodeArray_eq_ok {value : JsonValue} {items : List JsonValue} :
    nodeArray value = .ok items ↔
      value = .array items ∧ 1 ≤ items.length ∧ items.length ≤ 1024 := by
  cases value with
  | array items' =>
    rw [nodeArray]
    split
    · next hbad =>
      constructor
      · intro h
        cases h
      · rintro ⟨heq, hpos, hle⟩
        cases heq
        rcases hbad with rfl | hlong
        · simp at hpos
        · omega
    · next hgood =>
      rw [not_or] at hgood
      have hpos := List.length_pos_iff.2 hgood.1
      constructor
      · intro h
        obtain rfl := Except.ok.inj h
        exact ⟨rfl, by omega, by omega⟩
      · rintro ⟨heq, -, -⟩
        cases heq
        rfl
  | _ => simp [nodeArray]

/-- A value declares one number of nodes. -/
theorem Declares.length_eq {value : JsonValue} {nodes' : List OperatorNodeSpec}
    (h : Declares dump value nodes) (h' : Declares dump value nodes') :
    nodes.length = nodes'.length := by
  obtain ⟨members, items, rfl, -, -, hlookup, hnodes⟩ := h
  obtain ⟨members', items', heq, -, -, hlookup', hnodes'⟩ := h'
  cases heq
  rw [hlookup] at hlookup'
  cases hlookup'
  rw [← hnodes.length_eq, hnodes'.length_eq]

/-- **The parser** accepts the values that declare nodes, from 1 to 1024. -/
theorem parseGraphSpec_eq_ok (hdump : Serializes dump) {value : JsonValue} (h : value.IsUtf8)
    {spec : GraphSpec} :
    parseGraphSpec dump value = .ok spec ↔ spec.schemaVersion = lit "jevt.graph.v1" ∧
      Declares dump value spec.nodes ∧ 1 ≤ spec.nodes.length ∧ spec.nodes.length ≤ 1024 := by
  -- The nodes of the array, once the array is known to be well-formed text.
  have hitems : ∀ (members : List (Bytes × JsonValue)) (items : List JsonValue),
      value = .object members → members.lookup (lit "nodes") = some (.array items) →
      ∀ nodes, items.mapM (parseNode dump) = .ok nodes ↔ List.Forall₂ (fun item node =>
        ∃ members, item = .object members ∧ DeclaresNode dump members node) items nodes := by
    rintro members items rfl hlookup nodes
    have hutf8 := isUtf8_getD h (lit "nodes")
    rw [hlookup, Option.getD_some, JsonValue.isUtf8_array] at hutf8
    rw [mapM_eq_ok_iff]
    exact forall₂_congr_left fun item hitem node => parseNode_eq_ok hdump (hutf8 item hitem)
  unfold parseGraphSpec
  simp only [bind_eq_ok_iff, keys_eq_ok, access_eq_ok, schemaVersion_eq_ok, nodeArray_eq_ok]
  constructor
  · rintro ⟨-, ⟨members, rfl, hclosed⟩, _, hversion, version, ⟨rfl, rfl⟩, _, hlookup, items,
      ⟨rfl, hpos, hle⟩, nodes, hnodes, hspec⟩
    obtain rfl := Except.ok.inj hspec
    rw [member_getString_eq_some] at hversion
    rw [hitems members items rfl hlookup] at hnodes
    have hlength := hnodes.length_eq
    dsimp only
    rw [← hlength]
    exact ⟨rfl, ⟨members, items, rfl, hclosed, hversion, hlookup, hnodes⟩, hpos, hle⟩
  · rintro ⟨hspec, ⟨members, items, rfl, hclosed, hversion, hlookup, hnodes⟩, hpos, hle⟩
    rw [← hnodes.length_eq] at hpos hle
    have hparsed := (hitems members items rfl hlookup spec.nodes).2 hnodes
    refine ⟨(), ⟨members, rfl, hclosed⟩, _, member_getString_eq_some.2 hversion, _, ⟨rfl, rfl⟩, _,
      hlookup, items, ⟨rfl, hpos, hle⟩, spec.nodes, hparsed, ?_⟩
    rw [← hspec]
    rfl

/-! ## The bounds -/

/-- The bounds of one node. -/
def NodeWithinLimits (node : OperatorNodeSpec) : Prop :=
  (node.id ≠ [] ∧ node.id.length ≤ 128 ∧ node.operatorId ≠ [] ∧ node.operatorId.length ≤ 128) ∧
    (node.dependencies.length ≤ 1024 ∧
      ∀ dependency ∈ node.dependencies, dependency ≠ [] ∧ dependency.length ≤ 128) ∧
    node.parameters.content.length ≤ 65536

/-- The limits are those of every node and the one of all parameters together. -/
theorem withinLimits_iff : WithinLimits nodes ↔ (∀ node ∈ nodes, NodeWithinLimits node) ∧
    (nodes.map fun node => node.parameters.content.length).sum ≤ 1048576 := by
  constructor
  · intro h
    exact ⟨fun node hnode => ⟨h.ids node hnode, h.dependencies node hnode, h.parameters node hnode⟩,
      h.total⟩
  · rintro ⟨hnodes, htotal⟩
    exact ⟨fun node hnode => (hnodes node hnode).1, fun node hnode => (hnodes node hnode).2.1,
      fun node hnode => (hnodes node hnode).2.2, htotal⟩

/-- The loop accepts what is within the limits, of which the total is checked as it grows. -/
theorem checkBounds_eq_ok {parameterBytes : Nat} (hbytes : parameterBytes ≤ 1048576)
    {checked : Unit} : OperatorRegistry.checkBounds nodes parameterBytes = .ok checked ↔
      (∀ node ∈ nodes, NodeWithinLimits node) ∧
      parameterBytes + (nodes.map fun node => node.parameters.content.length).sum ≤ 1048576 := by
  induction nodes generalizing parameterBytes with
  | nil => simp [OperatorRegistry.checkBounds, hbytes]
  | cons node nodes ih =>
    rw [List.forall_mem_cons, List.map_cons, List.sum_cons, ← Nat.add_assoc]
    unfold OperatorRegistry.checkBounds
    split_ifs with hids hcount hdependencies hparameters htotal
    · refine iff_of_false (by simp) ?_
      rintro ⟨⟨⟨hlimits, -⟩, -⟩, -⟩
      obtain ⟨hid, hidLength, hoperator, hoperatorLength⟩ := hlimits
      rcases hids with hnil | hlong | hnil | hlong
      · exact hid hnil
      · omega
      · exact hoperator hnil
      · omega
    · refine iff_of_false (by simp) ?_
      rintro ⟨⟨⟨-, ⟨hle, -⟩, -⟩, -⟩, -⟩
      omega
    · refine iff_of_false (by simp) ?_
      rintro ⟨⟨⟨-, ⟨-, hall⟩, -⟩, -⟩, -⟩
      obtain ⟨dependency, hmem, hnil | hlong⟩ := hdependencies
      · exact (hall dependency hmem).1 hnil
      · have hle := (hall dependency hmem).2
        omega
    · refine iff_of_false (by simp) ?_
      rintro ⟨⟨⟨-, -, hle⟩, -⟩, -⟩
      omega
    · refine iff_of_false (by simp) ?_
      rintro ⟨-, hle⟩
      omega
    · have hnode : NodeWithinLimits node := by
        push Not at hids hcount hdependencies hparameters
        exact ⟨hids, ⟨hcount, hdependencies⟩, hparameters⟩
      rw [ih (by omega), and_iff_right hnode]

/-! ## The factories -/

/-- The loop stops at the first operator that is not registered; with factories that accept
everything it stops nowhere else. The nodes have the identifiers and the dependencies of the
specification, and evaluators. -/
theorem instantiate_spec (hfactories : ∀ entry ∈ registry.factories, ∀ calls parameters,
      ∃ evaluate, entry.2 calls parameters = .returned (some evaluate))
    (invoked : List (Bytes × StateValue)) :
    ((∃ graph, (registry.instantiate nodes invoked).1 = .ok graph) ↔
      ∀ node ∈ nodes, node.operatorId ∈ registry.factories.map Prod.fst) ∧
    ∀ graph, (registry.instantiate nodes invoked).1 = .ok graph →
      (∀ node ∈ graph, node.evaluate.isSome = true) ∧
      graph.map (fun node => (node.id, node.dependencies)) =
        nodes.map fun node => (node.id, node.dependencies) := by
  induction nodes generalizing invoked with
  | nil => simp [OperatorRegistry.instantiate]
  | cons node nodes ih =>
    rw [OperatorRegistry.instantiate]
    cases hlookup : registry.factories.lookup node.operatorId with
    | none =>
      have hnot : node.operatorId ∉ registry.factories.map Prod.fst := by
        rw [List.lookup_eq_none_iff] at hlookup
        simpa using fun make hmem => hlookup (node.operatorId, make) hmem
      exact ⟨iff_of_false (by simp) fun h => hnot (h node List.mem_cons_self), by simp⟩
    | some make =>
      have hentry := mem_of_lookup hlookup
      obtain ⟨evaluate, hevaluate⟩ :
          ∃ evaluate, make invoked.length node.parameters = .returned (some evaluate) :=
        hfactories _ hentry invoked.length node.parameters
      obtain ⟨hexists, hgraph⟩ := ih (invoked ++ [(node.operatorId, node.parameters)])
      have hregistered : node.operatorId ∈ registry.factories.map Prod.fst :=
        List.mem_map_of_mem (f := Prod.fst) hentry
      dsimp only
      rw [hevaluate, List.forall_mem_cons, and_iff_right hregistered, ← hexists]
      dsimp only
      cases hrest : (registry.instantiate nodes
          (invoked ++ [(node.operatorId, node.parameters)])).1 with
      | error failure => simp [Except.map]
      | ok graph =>
        obtain ⟨hevaluators, hmap⟩ := hgraph graph hrest
        refine ⟨by simp [Except.map], fun graph' hgraph' => ?_⟩
        obtain rfl := Except.ok.inj hgraph'
        exact ⟨List.forall_mem_cons.2 ⟨rfl, hevaluators⟩, by simp [hmap]⟩

/-! ## The graph -/

section
variable {graph : List GraphNode}
  (hmap : graph.map (fun node => (node.id, node.dependencies)) =
    nodes.map fun node => (node.id, node.dependencies))
include hmap

/-- The nodes of a graph and of its specification have the same identifiers and dependencies. -/
theorem forall_graph_iff {P : Bytes → List Bytes → Prop} :
    (∀ node ∈ graph, P node.id node.dependencies) ↔
      ∀ node ∈ nodes, P node.id node.dependencies := by
  have hall := congrArg (fun l : List (Bytes × List Bytes) => ∀ entry ∈ l, P entry.1 entry.2) hmap
  simpa using hall

/-- As `forall_graph_iff`, for some node. -/
theorem exists_graph_iff {P : Bytes → List Bytes → Prop} :
    (∃ node ∈ graph, P node.id node.dependencies) ↔
      ∃ node ∈ nodes, P node.id node.dependencies := by
  have hsome := forall_graph_iff hmap (P := fun id dependencies => ¬P id dependencies)
  simpa using not_congr hsome

/-- **The constructor** accepts the nodes of a specification that is well connected, and whose
identifiers are not empty. -/
theorem create_iff_wellConnected (hevaluators : ∀ node ∈ graph, node.evaluate.isSome = true) :
    (∃ g, DecisionGraph.create graph = .ok g) ↔
      (∀ node ∈ nodes, node.id ≠ []) ∧ WellConnected nodes := by
  have hids : graph.map GraphNode.id = nodes.map OperatorNodeSpec.id := by
    have hfst := congrArg (List.map Prod.fst) hmap
    simpa [Function.comp_def] using hfst
  have hfeeds : DecisionGraph.Feeds graph = Requires nodes := by
    funext p a
    exact propext (exists_graph_iff hmap (P := fun id dependencies => id = a ∧ p ∈ dependencies))
  have hnamed := forall_graph_iff hmap (P := fun id _ => id ≠ [])
  have honce := forall_graph_iff hmap (P := fun _ dependencies => dependencies.Nodup)
  have hproducer : ∀ d, (∃ producer ∈ graph, producer.id = d) ↔
      ∃ producer ∈ nodes, producer.id = d :=
    fun d => exists_graph_iff hmap (P := fun id _ => id = d)
  have hdeclared := forall_graph_iff hmap
    (P := fun _ dependencies => ∀ d ∈ dependencies, ∃ producer ∈ nodes, producer.id = d)
  constructor
  · rintro ⟨g, hg⟩
    have h := (DecisionGraph.ordered_of_create hg).1
    refine ⟨hnamed.1 h.named, hids ▸ h.nodup, hdeclared.1 fun node hnode d hd => ?_,
      honce.1 h.once, hfeeds ▸ h.acyclic⟩
    exact (hproducer d).1 (h.declared node hnode d hd)
  · rintro ⟨hids', hconnected⟩
    refine DecisionGraph.exists_create_of_wellFormed
      ⟨hnamed.2 hids', hevaluators, hids ▸ hconnected.distinct, fun node hnode d hd => ?_,
        honce.2 hconnected.once, hfeeds ▸ hconnected.acyclic⟩
    exact (hproducer d).2 (hdeclared.2 hconnected.declared node hnode d hd)

end

/-- A specification beyond its limits is refused before any factory is invoked. -/
theorem compile_of_not_withinLimits {spec : GraphSpec} (h : ¬WithinLimits spec.nodes) :
    (registry.compile spec).2 = [] := by
  unfold OperatorRegistry.compile
  split_ifs
  · rfl
  · rfl
  · cases hcheck : OperatorRegistry.checkBounds spec.nodes 0 with
    | error failure => rfl
    | ok checked =>
      rw [checkBounds_eq_ok (Nat.zero_le _), Nat.zero_add] at hcheck
      exact absurd (withinLimits_iff.2 hcheck) h

/-- What a registry whose factories accept everything compiles. -/
theorem compile_accepts_iff (hfactories : ∀ entry ∈ registry.factories, ∀ calls parameters,
      ∃ evaluate, entry.2 calls parameters = .returned (some evaluate)) {spec : GraphSpec}
    (hversion : spec.schemaVersion = lit "jevt.graph.v1") (hpos : 1 ≤ spec.nodes.length)
    (hle : spec.nodes.length ≤ 1024) :
    (∃ g, (registry.compile spec).1 = .ok g) ↔ WithinLimits spec.nodes ∧
      (∀ node ∈ spec.nodes, node.operatorId ∈ registry.factories.map Prod.fst) ∧
      WellConnected spec.nodes := by
  have hcount : ¬(spec.nodes = [] ∨ 1024 < spec.nodes.length) := by
    rw [not_or]
    exact ⟨List.length_pos_iff.1 hpos, by omega⟩
  have hbounds := @checkBounds_eq_ok spec.nodes 0 (Nat.zero_le 1048576) ()
  rw [Nat.zero_add, ← withinLimits_iff] at hbounds
  obtain ⟨hexists, hgraph⟩ := @instantiate_spec registry spec.nodes hfactories []
  unfold OperatorRegistry.compile
  rw [if_neg (not_not.2 hversion), if_neg hcount, ← hbounds, ← hexists]
  cases hcheck : OperatorRegistry.checkBounds spec.nodes 0 with
  | error failure => simp
  | ok checked =>
    have hlimits := hbounds.1 hcheck
    cases hresult : registry.instantiate spec.nodes [] with
    | mk result invoked =>
      rw [hresult] at hgraph
      cases result with
      | error failure => simp
      | ok graph =>
        obtain ⟨hevaluators, hmap⟩ := hgraph graph rfl
        have hcreate := create_iff_wellConnected hmap hevaluators
        rw [and_iff_right fun node hnode => (hlimits.ids node hnode).1] at hcreate
        rw [← hcreate]
        dsimp only
        cases DecisionGraph.create graph <;> simp [Except.mapError]

/-- **Configured graphs are accepted exactly when they are well formed.** For a value of well-formed
text and a registry whose factories accept everything, the graph is loaded if and only if the value
declares 1 to 1024 nodes, within the limits and well connected, of registered operators. The
parameters of a node without any are the empty object. And whatever the factories do, none is
invoked when the nodes that are declared or specified are not within the limits. -/
theorem graph_accepted_iff (hdump : Serializes dump) {value : JsonValue} (hvalue : value.IsUtf8) :
    ((∀ entry ∈ registry.factories, ∀ calls parameters,
        ∃ evaluate, entry.2 calls parameters = .returned (some evaluate)) →
      ((∃ g, (load dump registry value).1 = .ok g) ↔
        ∃ nodes, Declares dump value nodes ∧ 1 ≤ nodes.length ∧ nodes.length ≤ 1024 ∧
          WithinLimits nodes ∧
          (∀ node ∈ nodes, node.operatorId ∈ registry.factories.map Prod.fst) ∧
          WellConnected nodes)) ∧
    (∀ nodes, Declares dump value nodes → ¬WithinLimits nodes →
      (load dump registry value).2 = []) ∧
    ∀ spec : GraphSpec, ¬WithinLimits spec.nodes → (registry.compile spec).2 = [] := by
  refine ⟨fun hfactories => ⟨?_, ?_⟩, ?_, fun spec => compile_of_not_withinLimits⟩
  · rintro ⟨g, hload⟩
    unfold load at hload
    cases hparse : parseGraphSpec dump value with
    | error failure =>
      rw [hparse] at hload
      cases hload
    | ok spec =>
      rw [hparse] at hload
      obtain ⟨hversion, hdeclares, hpos, hle⟩ := (parseGraphSpec_eq_ok hdump hvalue).1 hparse
      have haccepted := (compile_accepts_iff hfactories hversion hpos hle).1 ⟨g, hload⟩
      exact ⟨spec.nodes, hdeclares, hpos, hle, haccepted⟩
  · rintro ⟨nodes, hdeclares, hpos, hle, haccepted⟩
    have hparse : parseGraphSpec dump value = .ok { nodes } :=
      (parseGraphSpec_eq_ok hdump hvalue).2 ⟨rfl, hdeclares, hpos, hle⟩
    unfold load
    rw [hparse]
    exact (@compile_accepts_iff registry hfactories { nodes } rfl hpos hle).2 haccepted
  · intro nodes hdeclares hlimits
    unfold load
    cases hparse : parseGraphSpec dump value with
    | error failure => rfl
    | ok spec =>
      obtain ⟨hversion, hdeclares', hpos, hle⟩ := (parseGraphSpec_eq_ok hdump hvalue).1 hparse
      have hlength := hdeclares.length_eq hdeclares'
      rw [← hlength] at hpos hle
      have hparse' : parseGraphSpec dump value = .ok { nodes } :=
        (parseGraphSpec_eq_ok hdump hvalue).2 ⟨rfl, hdeclares, hpos, hle⟩
      obtain rfl := Except.ok.inj (hparse.symm.trans hparse')
      exact compile_of_not_withinLimits hlimits

/-- The serializer on truth values and the empty object. -/
def dumpFlag : JsonValue → Option Bytes
  | .boolean true => some (lit "true")
  | .boolean false => some (lit "false")
  | _ => some (lit "{}")

/-- A registry of one operator, and a declaration of two nodes of which one feeds the other. -/
def echoRegistry : OperatorRegistry where
  factories := [(lit "echo.v1", fun _ parameters =>
    .returned (some fun _ => .returned (.success parameters)))]

/-- The declaration. -/
def pairDeclaration : JsonValue :=
  .object [
    (lit "nodes", .array [
      .object [(lit "id", .string (lit "one")), (lit "operator", .string (lit "echo.v1"))],
      .object [(lit "depends_on", .array [.string (lit "one")]), (lit "id", .string (lit "two")),
        (lit "operator", .string (lit "echo.v1")), (lit "params", .boolean true)]]),
    (lit "schema_version", .string (lit "jevt.graph.v1"))]

/-- The declaration is accepted, so its nodes are within the limits and well connected. -/
theorem graph_accepted_iff_pair : ∃ nodes, Declares dumpFlag pairDeclaration nodes ∧
    WithinLimits nodes ∧ WellConnected nodes := by
  have hdump : Serializes dumpFlag := by
    refine ⟨fun value _ => ?_, fun value text htext => ?_⟩
    · unfold dumpFlag
      split <;> exact ⟨_, rfl⟩
    · unfold dumpFlag at htext
      split at htext <;> obtain rfl := Option.some.inj htext <;> decide
  have hvalue : pairDeclaration.IsUtf8 := by
    simp only [pairDeclaration, JsonValue.isUtf8_object, JsonValue.isUtf8_array,
      JsonValue.isUtf8_string, JsonValue.isUtf8_boolean, List.forall_mem_cons, List.not_mem_nil,
      false_implies, implies_true, and_true]
    repeat' apply And.intro
    all_goals exact utf8_of_all (by decide)
  obtain ⟨hiff, -, -⟩ := @graph_accepted_iff dumpFlag echoRegistry hdump pairDeclaration hvalue
  have hfactories : ∀ entry ∈ echoRegistry.factories, ∀ calls parameters,
      ∃ evaluate, entry.2 calls parameters = .returned (some evaluate) := by
    intro entry hentry calls parameters
    obtain rfl := List.mem_singleton.1 hentry
    exact ⟨_, rfl⟩
  have hloads : (load dumpFlag echoRegistry pairDeclaration).1.isOk = true := by decide +kernel
  have haccepted : ∃ g, (load dumpFlag echoRegistry pairDeclaration).1 = .ok g := by
    cases hload : (load dumpFlag echoRegistry pairDeclaration).1 with
    | error failure =>
      rw [hload] at hloads
      cases hloads
    | ok g => exact ⟨g, rfl⟩
  obtain ⟨nodes, hdeclares, -, -, hlimits, -, hconnected⟩ := (hiff hfactories).1 haccepted
  exact ⟨nodes, hdeclares, hlimits, hconnected⟩

end GraphJson

end Jevt
