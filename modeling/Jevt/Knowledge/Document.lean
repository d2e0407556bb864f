import Jevt.Knowledge.Context
import Jevt.Library.JsonComplete

/-!
# The input document cannot be forged

What `make_input` writes in string mode is a text of the JSON grammar, and the value it denotes is
`documentValue`: the schema, the observation and the admitted facts, each byte string of the
request being one string of the document (`decode_makeInput`). No content of a fact can therefore
end its string early or add a member, and two requests with different contents get different
documents.
-/

namespace Jevt

open Library Library.Json

/-! ## What a document says -/

/-- What the model sees of a fact. -/
def visibleContent (fact : KnowledgeFact) : Bytes × Bytes × Bytes × Bytes × Bytes :=
  (fact.subject, fact.relation, fact.object, evidenceLabel fact.evidence, fact.attributesJson)

/-- The JSON value of a fact: its content, the attributes only if there are any. -/
def factValue (fact : KnowledgeFact) : Json :=
  .obj ([(lit "subject", .str fact.subject), (lit "relation", .str fact.relation),
      (lit "object", .str fact.object), (lit "evidence", .str (evidenceLabel fact.evidence))] ++
    if fact.attributesJson = [] then [] else [(lit "attributes", .str fact.attributesJson)])

/-- The JSON value of a document. -/
def documentValue (schemaId observation : Bytes) (admitted : List KnowledgeFact) : Json :=
  .obj [(lit "schema", .str schemaId), (lit "observation", .str observation),
    (lit "knowledge", .arr (admitted.map factValue))]

/-! ## Escaping -/

/-- A control byte may be written as a code unit. -/
theorem piece_control {c : UInt8} (h : c < 0x20) :
    Piece [c] (lit "\\u00" ++ [hexDigit (c.toNat / 16), hexDigit (c.toNat % 16)]) := by
  have hunits : ∀ n < 32, hexUnit 0x30 0x30 (hexDigit (n / 16)) (hexDigit (n % 16)) = some n ∧
      isHigh n = false ∧ isLow n = false ∧ utf8 n = [UInt8.ofNat n] := by decide
  obtain ⟨hunit, hhigh, hlow, hutf8⟩ := hunits c.toNat h
  have hpiece := Piece.unit hunit hhigh hlow
  rwa [hutf8, UInt8.ofNat_toNat] at hpiece

/-- The escape of a byte stands for that byte. -/
theorem piece_escapeByte (c : UInt8) : Piece [c] (escapeByte c) := by
  unfold escapeByte
  split_ifs with hquote hslash hb hf hn hr ht hcontrol
  · subst hquote
    exact .short rfl
  · subst hslash
    exact .short rfl
  · subst hb
    exact .short rfl
  · subst hf
    exact .short rfl
  · subst hn
    exact .short rfl
  · subst hr
    exact .short rfl
  · subst ht
    exact .short rfl
  · exact piece_control hcontrol
  · exact .raw hquote hslash (UInt8.not_lt.1 hcontrol)

/-- An escaped text is a string literal. -/
theorem denotes_escape (text : Bytes) : Denotes (.str text) (escape text) :=
  .str (stringText_flatMap piece_escapeByte text)

/-! ## The document -/

/-- A member whose key is written as it is. -/
def plainMember (key : Bytes) (value : Json) (text : Bytes) : Member :=
  ⟨[], key, key, [], value, text⟩

/-- The text of a plain member. -/
theorem render_plainMember (key : Bytes) (value : Json) (text : Bytes) :
    (plainMember key value text).render = lit "\"" ++ key ++ lit "\":" ++ text := by
  simp [plainMember, Member.render, lit]

/-- A key that has nothing to escape. -/
def isPlain (key : Bytes) : Bool :=
  key.all fun b => b ≠ 0x22 ∧ b ≠ 0x5c ∧ 0x20 ≤ b

/-- A plain member is well formed when its key has nothing to escape. -/
theorem wellFormed_plainMember {key : Bytes} (h : isPlain key = true)
    (value : Json) (text : Bytes) : (plainMember key value text).WellFormed :=
  ⟨nofun, .raw fun b hb => of_decide_eq_true (List.all_eq_true.1 h b hb), nofun⟩

/-- Plain members with nothing to escape in their keys, each with the text of its value, are an
object. -/
theorem denotes_plainMembers {members : List Member} (hne : members ≠ [])
    (h : ∀ m ∈ members, ∃ key value text, m = plainMember key value text ∧ isPlain key = true ∧
      Denotes value text) :
    Denotes (.obj (members.map fun m => (m.key, m.value)))
      (0x7b :: [0x2c].intercalate (members.map Member.render) ++ [0x7d]) := by
  refine .obj hne (fun m hm => ?_) (fun m hm => ?_)
  · obtain ⟨key, value, text, rfl, hkey, -⟩ := h m hm
    exact wellFormed_plainMember hkey value text
  · obtain ⟨key, value, text, rfl, -, hvalue⟩ := h m hm
    exact hvalue

/-- A member that holds a text: its key as it is, its value escaped. -/
def textMember (key text : Bytes) : Member :=
  plainMember key (.str text) (escape text)

/-- The members `make_input` writes for a fact. -/
def factMembers (fact : KnowledgeFact) : List Member :=
  [textMember (lit "subject") fact.subject, textMember (lit "relation") fact.relation,
    textMember (lit "object") fact.object,
    textMember (lit "evidence") (evidenceLabel fact.evidence)] ++
  if fact.attributesJson = [] then [] else [textMember (lit "attributes") fact.attributesJson]

/-- Every member of a fact holds a text, under one of five keys. -/
theorem mem_factMembers {fact : KnowledgeFact} {m : Member} (h : m ∈ factMembers fact) :
    ∃ key text, m = textMember key text ∧
      key ∈ [lit "subject", lit "relation", lit "object", lit "evidence", lit "attributes"] := by
  unfold factMembers at h
  rcases List.mem_append.1 h with h | h
  · simp only [List.mem_cons, List.not_mem_nil, or_false] at h
    rcases h with rfl | rfl | rfl | rfl <;> exact ⟨_, _, rfl, by simp⟩
  · split at h
    · cases h
    · exact ⟨_, _, List.mem_singleton.1 h, by simp⟩

/-- The text of a fact is an object with its content. -/
theorem denotes_renderFact (fact : KnowledgeFact) : Denotes (factValue fact) (renderFact fact) := by
  have hkeys : ∀ key ∈ [lit "subject", lit "relation", lit "object", lit "evidence",
      lit "attributes"], isPlain key = true := by decide
  have hobj : Denotes (.obj ((factMembers fact).map fun m => (m.key, m.value)))
      (0x7b :: [0x2c].intercalate ((factMembers fact).map Member.render) ++ [0x7d]) := by
    refine denotes_plainMembers (by simp [factMembers]) fun m hm => ?_
    obtain ⟨key, text, rfl, hkey⟩ := mem_factMembers hm
    exact ⟨key, _, _, rfl, hkeys key hkey, denotes_escape text⟩
  have hvalue : (.obj ((factMembers fact).map fun m => (m.key, m.value))) = factValue fact := by
    unfold factMembers factValue
    split <;> rfl
  have htext : 0x7b :: [0x2c].intercalate ((factMembers fact).map Member.render) ++ [0x7d] =
      renderFact fact := by
    unfold factMembers renderFact textMember
    split
    · simp [render_plainMember, List.intercalate, lit]
    · simp [render_plainMember, List.intercalate, lit]
  rwa [hvalue, htext] at hobj

/-- The list of admitted facts is an array. -/
theorem denotes_renderFacts (admitted : List KnowledgeFact) :
    Denotes (.arr (admitted.map factValue))
      (0x5b :: (lit ",").intercalate (admitted.map renderFact) ++ [0x5d]) := by
  cases admitted with
  | nil => exact .emptyArr nofun
  | cons fact rest =>
    have hitems : ∀ i ∈ (fact :: rest).map fun f => (factValue f, renderFact f),
        Denotes i.1 i.2 := by
      intro i hi
      obtain ⟨f, -, rfl⟩ := List.mem_map.1 hi
      exact denotes_renderFact f
    have harr := Denotes.arr (by simp) hitems
    rwa [List.map_map, List.map_map] at harr

/-- The members `make_input` writes for a document. -/
def documentMembers (schemaId observation : Bytes) (admitted : List KnowledgeFact) : List Member :=
  [textMember (lit "schema") schemaId, textMember (lit "observation") observation,
    plainMember (lit "knowledge") (.arr (admitted.map factValue))
      (0x5b :: (lit ",").intercalate (admitted.map renderFact) ++ [0x5d])]

/-- The document is an object with the schema, the observation and the facts. -/
theorem denotes_makeInput (schemaId observation : Bytes) (admitted : List KnowledgeFact) :
    Denotes (documentValue schemaId observation admitted)
      (makeInput schemaId observation false admitted) := by
  have hobj : Denotes
      (.obj ((documentMembers schemaId observation admitted).map fun m => (m.key, m.value)))
      (0x7b :: [0x2c].intercalate
        ((documentMembers schemaId observation admitted).map Member.render) ++ [0x7d]) := by
    refine denotes_plainMembers (by simp [documentMembers]) fun m hm => ?_
    simp only [documentMembers, List.mem_cons, List.not_mem_nil, or_false] at hm
    rcases hm with rfl | rfl | rfl
    · exact ⟨_, _, _, rfl, by decide, denotes_escape schemaId⟩
    · exact ⟨_, _, _, rfl, by decide, denotes_escape observation⟩
    · exact ⟨_, _, _, rfl, by decide, denotes_renderFacts admitted⟩
  have htext : 0x7b :: [0x2c].intercalate
      ((documentMembers schemaId observation admitted).map Member.render) ++ [0x7d] =
      makeInput schemaId observation false admitted := by
    simp [documentMembers, textMember, render_plainMember, makeInput, List.intercalate, lit]
  rwa [htext] at hobj

/-! ## Decoding -/

/-- The value of a fact determines what the model sees of it. -/
theorem visibleContent_eq_of_factValue_eq {f h : KnowledgeFact} (heq : factValue f = factValue h) :
    visibleContent f = visibleContent h := by
  unfold factValue at heq
  unfold visibleContent
  split at heq <;> split at heq <;> simp_all

/-- The value of a document determines its contents. -/
theorem documentValue_inj {schemaId schemaId' observation observation' : Bytes}
    {admitted admitted' : List KnowledgeFact}
    (h : documentValue schemaId observation admitted =
      documentValue schemaId' observation' admitted') :
    schemaId = schemaId' ∧ observation = observation' ∧
      admitted.map visibleContent = admitted'.map visibleContent := by
  simp only [documentValue, Json.obj.injEq, List.cons.injEq, Prod.mk.injEq, true_and, and_true,
    Json.str.injEq, Json.arr.injEq] at h
  obtain ⟨hschema, hobservation, hfacts⟩ := h
  refine ⟨hschema, hobservation, ?_⟩
  clear hschema hobservation
  induction admitted generalizing admitted' with
  | nil =>
    cases admitted' with
    | nil => rfl
    | cons f' rest' => cases hfacts
  | cons f rest ih =>
    cases admitted' with
    | nil => cases hfacts
    | cons f' rest' =>
      obtain ⟨hhead, htail⟩ := List.cons.inj hfacts
      rw [List.map_cons, List.map_cons, visibleContent_eq_of_factValue_eq hhead, ih htail]

/-- **The document cannot be forged by its contents.** In string mode the document is one
well-formed JSON text, decoding it gives back the schema, the observation and what the model sees
of each admitted fact, in order, and requests with different contents get different documents. -/
theorem decode_makeInput (schemaId observation : Bytes) (admitted : List KnowledgeFact) :
    Denotes (documentValue schemaId observation admitted)
      (makeInput schemaId observation false admitted) ∧
    decode (makeInput schemaId observation false admitted) =
      some (documentValue schemaId observation admitted) ∧
    ∀ (schemaId' observation' : Bytes) (admitted' : List KnowledgeFact),
      makeInput schemaId observation false admitted =
        makeInput schemaId' observation' false admitted' →
      schemaId = schemaId' ∧ observation = observation' ∧
        admitted.map visibleContent = admitted'.map visibleContent := by
  have hdecode : ∀ (s o : Bytes) (l : List KnowledgeFact),
      decode (makeInput s o false l) = some (documentValue s o l) := fun s o l =>
    decode_eq_of_denotes (denotes_makeInput s o l)
  refine ⟨denotes_makeInput schemaId observation admitted, hdecode _ _ _, ?_⟩
  intro schemaId' observation' admitted' heq
  have hvalue : some (documentValue schemaId observation admitted) =
      some (documentValue schemaId' observation' admitted') := by
    rw [← hdecode, ← hdecode, heq]
  exact documentValue_inj (Option.some.inj hvalue)

end Jevt
