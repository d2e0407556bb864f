import Jevt.Knowledge.Document
import Jevt.Library.JsonWriter
import Jevt.SystemOne.Model

/-!
# Structured instructions

As soon as the instructions of a model or of a field are JSON, `make_system_one_request` of
`include/jevt/system_one.hpp` sends both as one JSON object: `json_content` splices JSON as it is
and writes text as a string literal. The object is well formed and has the two members `model` and
`field`, whatever the texts are made of, as long as what is called JSON is JSON.

`select_fields` makes a model of some fields of another. A row depends on its field and on the parts
of the model that are copied, so the rows of the selected fields are the rows of the full model.
-/

namespace Jevt

open Library Library.Json

variable {ν : Type}

/-! ## Instructions -/

/-- What a content stands for: JSON for its value, and text for itself. -/
def ContentView.Means (content : ContentView) (v : Json) : Prop :=
  match content.kind with
  | .json => Denotes v content.content
  | .text => v = .str content.content

/-- `model_metadata`, the instructions of a model or else its description. -/
def DecisionModel.metadata (model : DecisionModel ν) : ContentView :=
  orDescription model.instructions model.description

/-- `field_metadata`, the instructions of a field or else its description. -/
def FieldDefinition.metadata (field : FieldDefinition ν) : ContentView :=
  orDescription field.instructions field.description

/-- The escape of a byte stands for that byte. -/
theorem piece_jsonContentByte (c : UInt8) : Piece [c] (jsonContentByte c) := by
  unfold jsonContentByte
  split_ifs with hescape hcontrol
  · obtain rfl | rfl := hescape
    · exact .short rfl
    · exact .short rfl
  · exact piece_control hcontrol
  · rw [not_or] at hescape
    exact .raw hescape.1 hescape.2 (UInt8.not_lt.1 hcontrol)

/-- Text is a string literal. -/
theorem jsonContent_text (text : Bytes) :
    jsonContent ⟨text, .text⟩ = quote jsonContentByte text := by
  simp [jsonContent, quote, lit]

/-- `json_content` is a JSON text of what the content stands for. -/
theorem ContentView.Means.denotes {content : ContentView} {v : Json} (h : content.Means v) :
    Denotes v (jsonContent content) := by
  obtain ⟨text, kind⟩ := content
  cases kind with
  | json => exact h
  | text =>
    obtain rfl : v = .str text := h
    rw [jsonContent_text]
    exact .str (stringText_flatMap piece_jsonContentByte text)

/-- It is UTF-8 exactly if the content is. -/
theorem utf8_jsonContent_iff (content : ContentView) :
    Utf8 (jsonContent content) ↔ Utf8 content.content := by
  obtain ⟨text, kind⟩ := content
  cases kind with
  | json => rfl
  | text =>
    rw [jsonContent_text, quote, List.cons_append, utf8_one_iff (by decide),
      utf8_append_cons_iff (by decide), (keepsUtf8_of_piece piece_jsonContentByte).utf8_flatMap_iff]
    exact and_iff_left .nil

/-- The object of two contents. -/
def instructionsValue (model field : Json) : Json :=
  .obj [(lit "model", model), (lit "field", field)]

section
variable {model : DecisionModel ν} {field : FieldDefinition ν}

/-- The instructions of a row, where one of the two contents is JSON. -/
theorem instructions_requestField (h : model.metadata.kind = .json ∨ field.metadata.kind = .json) :
    (requestField model field).instructions =
      ⟨lit "\x7b\"model\":" ++ jsonContent model.metadata ++ lit ",\"field\":" ++
        jsonContent field.metadata ++ lit "\x7d", .json⟩ := by
  have hmixed : ¬(model.metadata.kind = .text ∧ field.metadata.kind = .text) := by
    rintro ⟨hmodel, hfield⟩
    obtain h | h := h
    · cases hmodel.symm.trans h
    · cases hfield.symm.trans h
  exact if_neg hmixed

/-- The instructions are one object with the two contents. -/
theorem denotes_instructions {vm vf : Json} (hmodel : model.metadata.Means vm)
    (hfield : field.metadata.Means vf) :
    Denotes (instructionsValue vm vf)
      (lit "\x7b\"model\":" ++ jsonContent model.metadata ++ lit ",\"field\":" ++
        jsonContent field.metadata ++ lit "\x7d") := by
  let members := [plainMember (lit "model") vm (jsonContent model.metadata),
    plainMember (lit "field") vf (jsonContent field.metadata)]
  have hobj : Denotes (.obj (members.map fun m => (m.key, m.value)))
      (0x7b :: [0x2c].intercalate (members.map Member.render) ++ [0x7d]) := by
    refine denotes_plainMembers (by simp [members]) fun m hm => ?_
    simp only [members, List.mem_cons, List.not_mem_nil, or_false] at hm
    obtain rfl | rfl := hm
    · exact ⟨_, _, _, rfl, by decide, hmodel.denotes⟩
    · exact ⟨_, _, _, rfl, by decide, hfield.denotes⟩
  have htext : 0x7b :: [0x2c].intercalate (members.map Member.render) ++ [0x7d] =
      lit "\x7b\"model\":" ++ jsonContent model.metadata ++ lit ",\"field\":" ++
        jsonContent field.metadata ++ lit "\x7d" := by
    simp [members, render_plainMember, List.intercalate, lit]
  rwa [htext] at hobj

/-- The instructions are UTF-8 exactly if both contents are. -/
theorem utf8_instructions_iff :
    Utf8 (lit "\x7b\"model\":" ++ jsonContent model.metadata ++ lit ",\"field\":" ++
        jsonContent field.metadata ++ lit "\x7d") ↔
      Utf8 model.metadata.content ∧ Utf8 field.metadata.content := by
  have hopen : Utf8 (lit "\x7b\"model\":") := utf8_of_all (by decide)
  have hcomma : lit ",\"field\":" = 0x2c :: lit "\"field\":" := rfl
  have hfield : Utf8 (lit "\"field\":") := utf8_of_all (by decide)
  have hclose : lit "\x7d" = 0x7d :: [] := rfl
  rw [← utf8_jsonContent_iff model.metadata, ← utf8_jsonContent_iff field.metadata, hcomma, hclose]
  simp only [List.append_assoc, List.cons_append]
  rw [hopen.append_iff, utf8_append_cons_iff (by decide), hfield.append_iff,
    utf8_append_cons_iff (by decide)]
  exact and_congr_right fun _ => and_iff_left .nil

end

/-! ## Selected fields -/

/-- `field_index`: the index of the field with a name, or the number of fields. -/
def fieldIndex (fields : List (FieldDefinition ν)) (name : Bytes) : Nat :=
  fields.findIdx fun field => field.name = name

/-- The fields with some names. -/
def fieldsNamed (fields : List (FieldDefinition ν)) (names : List Bytes) :
    List (FieldDefinition ν) :=
  names.filterMap fun name => fields[fieldIndex fields name]?

/-- The field at the index of a known name has this name. -/
theorem exists_of_fieldIndex {fields : List (FieldDefinition ν)} {name : Bytes}
    (h : fieldIndex fields name < fields.length) :
    ∃ field, fields[fieldIndex fields name]? = some field ∧ field.name = name :=
  ⟨fields[fieldIndex fields name], List.getElem?_eq_getElem h,
    of_decide_eq_true (List.findIdx_getElem (w := h))⟩

/-- Known names have their fields. -/
theorem map_fieldIndex {fields : List (FieldDefinition ν)} {names : List Bytes}
    (h : ∀ name ∈ names, fieldIndex fields name < fields.length) :
    (names.map fun name => fields[fieldIndex fields name]?) =
      (fieldsNamed fields names).map some ∧
    (fieldsNamed fields names).map FieldDefinition.name = names := by
  induction names with
  | nil => exact ⟨rfl, rfl⟩
  | cons name names ih =>
    obtain ⟨hname, hnames⟩ := List.forall_mem_cons.1 h
    obtain ⟨field, hfield, hself⟩ := exists_of_fieldIndex hname
    obtain ⟨hfields, hnamed⟩ := ih hnames
    have hcons : fieldsNamed fields (name :: names) = field :: fieldsNamed fields names :=
      List.filterMap_cons_some hfield
    rw [hcons, List.map_cons, List.map_cons, List.map_cons, hfield, hfields, hself, hnamed]
    exact ⟨rfl, rfl⟩

/-- `select_fields`, with its static assertions and the one of its result: there is a name, the
names are known, and no name is given twice. -/
def selectFields (model : DecisionModel ν) (names : List Bytes) : Option (DecisionModel ν) :=
  if h : names ≠ [] ∧
      (∀ name ∈ names, fieldIndex model.fields name < model.fields.length) ∧ names.Nodup then
    some { model with
      fields := fieldsNamed model.fields names
      nonempty := fun hnil => h.1 (by rw [← (map_fieldIndex h.2.1).2, hnil, List.map_nil])
      unique := (map_fieldIndex h.2.1).2.symm ▸ h.2.2 }
  else none

section
variable {model selected : DecisionModel ν} {names : List Bytes}

/-- What a selection copies, and which fields it takes. -/
theorem selectFields_spec (h : selectFields model names = some selected) :
    (selected.id = model.id ∧ selected.description = model.description ∧
      selected.instructions = model.instructions) ∧
    selected.fields = fieldsNamed model.fields names ∧
    ∀ name ∈ names, fieldIndex model.fields name < model.fields.length := by
  unfold selectFields at h
  split at h
  · next hvalid =>
    obtain rfl := Option.some.inj h
    exact ⟨⟨rfl, rfl, rfl⟩, rfl, hvalid.2.1⟩
  · cases h

/-- A row depends on its field and on what a selection copies. -/
theorem requestField_eq_of_selectFields (h : selectFields model names = some selected) :
    requestField selected = requestField model := by
  obtain ⟨⟨hid, hdescription, hinstructions⟩, -⟩ := selectFields_spec h
  funext field
  simp only [requestField, hid, hdescription, hinstructions]

/-- The fields of the request for a selection are fields of the request for the full model. -/
theorem fields_of_selectFields (h : selectFields model names = some selected) (state : StateValue)
    (execution : EvaluationOptions) :
    (makeSystemOneRequest selected state execution).fields.map some =
      names.map fun name =>
        (makeSystemOneRequest model state execution).fields[fieldIndex model.fields name]? := by
  obtain ⟨-, hfields, hknown⟩ := selectFields_spec h
  have hrows := congrArg (List.map (Option.map (requestField model)))
    (map_fieldIndex hknown).1
  simp only [List.map_map, ← hfields] at hrows
  simp only [makeSystemOneRequest, List.map_map, List.getElem?_map,
    requestField_eq_of_selectFields h]
  exact hrows.symm

/-- A row is made of a field, the state and the options. -/
def rowOf (state : StateValue) (execution : EvaluationOptions) (field : RequestField) :
    InferenceRequest where
  decisionId := field.id
  question := field.question
  input := state.content
  options := field.criteria
  questionKind := field.kind
  inputKind := state.kind
  instructions := field.instructions
  criteriaMetadata := field.criteriaMetadata
  deadline := execution.deadline
  cancellation := execution.cancellation

/-- The requests are the rows of the fields. -/
theorem requests_makeSystemOneRequest (model : DecisionModel ν) (state : StateValue)
    (execution : EvaluationOptions) :
    (makeSystemOneRequest model state execution).requests =
      (makeSystemOneRequest model state execution).fields.map (rowOf state execution) := rfl

/-- The rows of a selection are rows of the full model. -/
theorem requests_of_selectFields (h : selectFields model names = some selected)
    (state : StateValue) (execution : EvaluationOptions) :
    (makeSystemOneRequest selected state execution).requests.map some =
      names.map fun name =>
        (makeSystemOneRequest model state execution).requests[fieldIndex model.fields name]? := by
  have hrows := congrArg (List.map (Option.map (rowOf state execution)))
    (fields_of_selectFields h state execution)
  simp only [List.map_map] at hrows
  simp only [requests_makeSystemOneRequest, List.map_map, List.getElem?_map]
  exact hrows

end

/-- **Structured instructions decode back, and a selection leaves the rows alone.** For every model,
state and options: where the metadata of the model and of a field stand for two JSON values, by
being JSON or text, and one of them is JSON, the instructions of the row of that field are JSON and
one object whose members are these two values; they are UTF-8 exactly if both contents are. The
fields and rows of the request for a selection are the ones of the full model at the indices of the
selected names, in their order. -/
theorem instructions_decode_back (model : DecisionModel ν) (state : StateValue)
    (execution : EvaluationOptions) :
    (∀ (i : Nat) (field : FieldDefinition ν) (vm vf : Json), model.fields[i]? = some field →
      model.metadata.Means vm → field.metadata.Means vf →
      model.metadata.kind = .json ∨ field.metadata.kind = .json →
      ∃ row, (makeSystemOneRequest model state execution).requests[i]? = some row ∧
        row.instructions.kind = .json ∧
        Denotes (.obj [(lit "model", vm), (lit "field", vf)]) row.instructions.content ∧
        decode row.instructions.content = some (.obj [(lit "model", vm), (lit "field", vf)]) ∧
        (Utf8 row.instructions.content ↔
          Utf8 model.metadata.content ∧ Utf8 field.metadata.content)) ∧
    ∀ names selected, selectFields model names = some selected →
      selected.fields.map FieldDefinition.name = names ∧
      ((makeSystemOneRequest selected state execution).fields.map some =
        names.map fun name =>
          (makeSystemOneRequest model state execution).fields[fieldIndex model.fields name]?) ∧
      (makeSystemOneRequest selected state execution).requests.map some =
        names.map fun name =>
          (makeSystemOneRequest model state execution).requests[fieldIndex model.fields name]? := by
  constructor
  · intro i field vm vf hfield hmodel hmeans hjson
    have hrow : (makeSystemOneRequest model state execution).requests[i]? =
        some (rowOf state execution (requestField model field)) := by
      rw [requests_makeSystemOneRequest, makeSystemOneRequest, List.getElem?_map,
        List.getElem?_map, hfield]
      rfl
    have hinstructions := instructions_requestField hjson
    have hobject := denotes_instructions hmodel hmeans
    refine ⟨_, hrow, ?_⟩
    rw [rowOf, hinstructions]
    exact ⟨rfl, hobject, decode_eq_of_denotes hobject, utf8_instructions_iff⟩
  · intro names selected h
    obtain ⟨-, hfields, hknown⟩ := selectFields_spec h
    rw [hfields]
    exact ⟨(map_fieldIndex hknown).2, fields_of_selectFields h state execution,
      requests_of_selectFields h state execution⟩

/-- A model with a JSON object for its instructions and a field with a text. -/
def triageModel : DecisionModel Unit where
  id := lit "structured"
  description := lit "\x7b\"role\":\"triage\"\x7d"
  instructions := ⟨lit "\x7b\"role\":\"triage\"\x7d", .json⟩
  fields := [.binaryField {
    name := lit "approve"
    kind := .noul
    description := lit "Say \"yes\"?"
    policy := ⟨.finite 0, .finite 1⟩
    instructions := ⟨lit "Say \"yes\"?", .text⟩ }]
  nonempty := by decide
  unique := by decide

/-- An object and a text with quotes decode back to the two members. -/
theorem instructions_decode_back_triage :
    ∃ row, (makeSystemOneRequest triageModel ⟨lit "state", .text⟩ {}).requests[0]? = some row ∧
      decode row.instructions.content = some (.obj [(lit "model",
        .obj [(lit "role", .str (lit "triage"))]), (lit "field", .str (lit "Say \"yes\"?"))]) := by
  have hrole : triageModel.metadata.Means (.obj [(lit "role", .str (lit "triage"))]) := by
    let member := plainMember (lit "role") (.str (lit "triage")) (lit "\"triage\"")
    have hplain : (plainMember (lit "triage") .null []).WellFormed :=
      wellFormed_plainMember (by decide) _ _
    have htext : Denotes (.str (lit "triage")) (lit "\"triage\"") := .str hplain.key
    have hobj : Denotes (.obj ([member].map fun m => (m.key, m.value)))
        (0x7b :: [0x2c].intercalate ([member].map Member.render) ++ [0x7d]) := by
      refine denotes_plainMembers (List.cons_ne_nil _ _) (List.forall_mem_singleton.2 ?_)
      exact ⟨_, _, _, rfl, by decide, htext⟩
    exact hobj
  obtain ⟨row, hrow, -, -, hdecode, -⟩ := (instructions_decode_back triageModel
    ⟨lit "state", .text⟩ {}).1 0 _ _ _ rfl hrole rfl (.inl rfl)
  exact ⟨row, hrow, hdecode⟩

end Jevt
