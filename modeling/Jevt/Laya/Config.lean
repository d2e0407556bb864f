import Jevt.Laya.Head
import Jevt.Laya.Search
import Jevt.Library.Keyed

/-!
# Configurations

An `AgentConfig` is a file `rl_agent_config.json`: its members in any order, with any white space
between any two tokens, and with members of other names and values, which the searches for the
temperatures have to pass. Texts in quotes have no escapes.

What the searches of the ONNX adapter find in its text is what stands under the name in the file
(`temperatureText_text`, `numberText_text`), except that a name with a `+` is never found.
-/

namespace Jevt

open Library

/-- Elements with commas between them and a mark at the end, which has white space in front of it
also where there are none. -/
def enclosed (close : UInt8) (gap : Bytes) : List (List Spaced × Bytes) → List Spaced
  | [] => [(gap, .mark close)]
  | [item] => item.1 ++ [(item.2, .mark close)]
  | item :: next :: rest =>
    item.1 ++ (item.2, .mark 0x2c) :: enclosed close gap (next :: rest)

/-- An entry of `temperature_by_options`. -/
structure ConfigEntry where
  name : Bytes
  numeral : Numeral
  before : Bytes := []
  beforeColon : Bytes := []
  beforeNumeral : Bytes := []
  after : Bytes := []

/-- A numeral of `temperature`. -/
structure ConfigNumeral where
  numeral : Numeral
  before : Bytes := []
  after : Bytes := []

/-- What a member of a configuration is about. -/
inductive ConfigField where
  | temperature (numerals : List ConfigNumeral)
  | byOptions (entries : List ConfigEntry) (gap : Bytes)
  | other (name : Bytes) (value : List Spaced)

/-- A member of a configuration. -/
structure ConfigMember where
  field : ConfigField
  before : Bytes := []
  beforeColon : Bytes := []
  beforeValue : Bytes := []
  after : Bytes := []

/-- The contents of `rl_agent_config.json`. -/
structure AgentConfig where
  members : List ConfigMember
  before : Bytes := []
  trailing : Bytes := []

/-- The tokens of an entry. -/
def ConfigEntry.tokens (entry : ConfigEntry) : List Spaced :=
  [(entry.before, .quoted entry.name), (entry.beforeColon, .mark 0x3a),
    (entry.beforeNumeral, .word entry.numeral.text)]

/-- The tokens of a numeral. -/
def ConfigNumeral.tokens (item : ConfigNumeral) : List Spaced :=
  [(item.before, .word item.numeral.text)]

/-- The bytes of a numeral and the white space around it. -/
def ConfigNumeral.text (item : ConfigNumeral) : Bytes :=
  item.before ++ item.numeral.text ++ item.after

/-- The name of a member. -/
def ConfigField.name : ConfigField → Bytes
  | temperature _ => lit "temperature"
  | byOptions _ _ => lit "temperature_by_options"
  | other name _ => name

/-- The tokens of the value of a member. -/
def ConfigField.tokens (gap : Bytes) : ConfigField → List Spaced
  | temperature numerals =>
    (gap, .mark 0x5b) :: enclosed 0x5d [] (numerals.map fun item => (item.tokens, item.after))
  | byOptions entries inner =>
    (gap, .mark 0x7b) :: enclosed 0x7d inner (entries.map fun entry => (entry.tokens, entry.after))
  | other _ value => value

/-- The tokens of a member. -/
def ConfigMember.tokens (member : ConfigMember) : List Spaced :=
  (member.before, .quoted member.field.name) :: (member.beforeColon, .mark 0x3a) ::
    member.field.tokens member.beforeValue

/-- The tokens of a configuration. -/
def AgentConfig.tokens (config : AgentConfig) : List Spaced :=
  (config.before, .mark 0x7b) :: enclosed 0x7d []
    (config.members.map fun member => (member.tokens, member.after))

/-- The text of a configuration. -/
def AgentConfig.text (config : AgentConfig) : Bytes :=
  render config.tokens ++ config.trailing

/-- `config.value`, without its default. -/
def AgentConfig.value? (config : AgentConfig) (name : Bytes) : Option ConfigField :=
  (config.members.find? fun member => member.field.name = name).map ConfigMember.field

/-- The numerals of `temperature`. -/
def AgentConfig.numerals (config : AgentConfig) : List ConfigNumeral :=
  match config.value? (lit "temperature") with
  | some (.temperature numerals) => numerals
  | _ => []

/-- The entries of `temperature_by_options`. -/
def AgentConfig.entries (config : AgentConfig) : List ConfigEntry :=
  match config.value? (lit "temperature_by_options") with
  | some (.byOptions entries _) => entries
  | _ => []

/-- The numeral of an entry. -/
def AgentConfig.entry? (config : AgentConfig) (name : Bytes) : Option Numeral :=
  (config.entries.find? fun entry => entry.name = name).map ConfigEntry.numeral

/-- The numeral of an entry, but none under a name with a `+`. -/
def AgentConfig.found? (config : AgentConfig) (name : Bytes) : Option Numeral :=
  if 0x2b ∈ name then none else config.entry? name

/-! ## Well-formed configurations -/

/-- The names of entries: a question kind, a colon and a bucket. -/
def optionNames : List Bytes :=
  [QuestionKind.choice, .score, .noul].flatMap fun kind =>
    [lit "2", lit "3-5", lit "6-10", lit "11+"].map (kind.typeName ++ lit ":" ++ ·)

/-- A text that a search takes for the name of `temperature` or of an entry. -/
def Sought (text : Bytes) : Prop :=
  ∃ name ∈ lit "temperature" :: bucketNames, (pattern name).Accepts text

/-- An entry with one of the names. -/
structure ConfigEntry.Proper (entry : ConfigEntry) : Prop where
  name : entry.name ∈ optionNames
  numeral : entry.numeral.Proper
  before : Gap entry.before
  beforeColon : Gap entry.beforeColon
  beforeNumeral : Gap entry.beforeNumeral
  after : Gap entry.after

/-- A numeral with white space around it. -/
structure ConfigNumeral.Proper (item : ConfigNumeral) : Prop where
  numeral : item.numeral.Proper
  before : Gap item.before
  after : Gap item.after

/-- A member that is not looked at has no text in quotes that is searched for. -/
structure Unsought (name : Bytes) (value : List Spaced) : Prop where
  distinct : name ≠ lit "temperature_by_options"
  noQuote : 0x22 ∉ name
  plain : ∀ token ∈ value, Plain token
  followed : ∀ gap b rest, Followed rest → Followed (value ++ (gap, .mark b) :: rest)
  unsought : ∀ text ∈ name :: quotedTexts value, ¬Sought text

/-- There are three temperatures, and entries with distinct names. -/
def ConfigField.Proper : ConfigField → Prop
  | temperature numerals => numerals.length = 3 ∧ ∀ numeral ∈ numerals, numeral.Proper
  | byOptions entries gap => (∀ entry ∈ entries, entry.Proper) ∧
    (entries.map ConfigEntry.name).Nodup ∧ Gap gap
  | other name value => Unsought name value

/-- A member with white space between its tokens. -/
structure ConfigMember.Proper (member : ConfigMember) : Prop where
  field : member.field.Proper
  before : Gap member.before
  beforeColon : Gap member.beforeColon
  beforeValue : Gap member.beforeValue
  after : Gap member.after

/-- A configuration with temperatures whose members have distinct names. -/
structure AgentConfig.Proper (config : AgentConfig) : Prop where
  members : ∀ member ∈ config.members, member.Proper
  names : (config.members.map fun member => member.field.name).Nodup
  temperature : ∃ member ∈ config.members, ∃ numerals, member.field = .temperature numerals
  before : Gap config.before
  trailing : Gap config.trailing

/-! ## Elements between marks -/

/-- Elements that can stand in front of a mark. -/
structure Enclosable (item : List Spaced × Bytes) : Prop where
  plain : ∀ token ∈ item.1, Plain token
  followed : ∀ gap b rest, Followed rest → Followed (item.1 ++ (gap, .mark b) :: rest)
  gap : Gap item.2

/-- Elements with a comma behind each. -/
def separated (items : List (List Spaced × Bytes)) : List Spaced :=
  items.flatMap fun item => item.1 ++ [(item.2, .mark 0x2c)]

section Enclosed

variable (close : UInt8) (gap : Bytes)

/-- The elements in front of an element have a comma behind each, and it has a mark. -/
theorem enclosed_append (pre : List (List Spaced × Bytes)) (item : List Spaced × Bytes)
    (rest : List (List Spaced × Bytes)) :
    ∃ b more, (b = 0x2c ∨ b = close) ∧ enclosed close gap (pre ++ item :: rest) =
      separated pre ++ (item.1 ++ (item.2, .mark b) :: more) := by
  induction pre with
  | nil =>
    cases rest with
    | nil => exact ⟨close, [], .inr rfl, rfl⟩
    | cons next rest => exact ⟨0x2c, enclosed close gap (next :: rest), .inl rfl, rfl⟩
  | cons first pre ih =>
    obtain ⟨b, more, hb, heq⟩ := ih
    refine ⟨b, more, hb, ?_⟩
    have hcons : enclosed close gap (first :: (pre ++ item :: rest)) =
        first.1 ++ (first.2, .mark 0x2c) :: enclosed close gap (pre ++ item :: rest) := by
      cases pre <;> rfl
    have hseparated : separated (first :: pre) =
        first.1 ++ (first.2, .mark 0x2c) :: separated pre := by
      rw [separated, List.flatMap_cons, List.append_assoc]
      rfl
    rw [List.cons_append, hcons, heq, hseparated, List.append_assoc, List.cons_append]

variable {close gap} {items : List (List Spaced × Bytes)}

/-- A sequence of plain elements is plain. -/
theorem plain_enclosed (hclose : isMark close = true) (hgap : Gap gap)
    (h : ∀ item ∈ items, Enclosable item) :
    ∀ token ∈ enclosed close gap items, Plain token := by
  have hmark : ∀ {gap b}, Gap gap → isMark b = true → Plain (gap, .mark b) := fun hgap hb =>
    ⟨hgap, hb⟩
  induction items using enclosed.induct with
  | case1 => exact List.forall_mem_singleton.2 (hmark hgap hclose)
  | case2 item =>
    have hitem := h _ (.head _)
    exact List.forall_mem_append.2
      ⟨hitem.plain, List.forall_mem_singleton.2 (hmark hitem.gap hclose)⟩
  | case3 item next rest ih =>
    obtain ⟨hitem, h⟩ := List.forall_mem_cons.1 h
    exact List.forall_mem_append.2 ⟨hitem.plain, List.forall_mem_cons.2
      ⟨hmark hitem.gap (by decide), ih h⟩⟩

/-- In a sequence every text in quotes is followed by a mark. -/
theorem followed_enclosed (h : ∀ item ∈ items, Enclosable item) {rest : List Spaced}
    (hrest : Followed rest) : Followed (enclosed close gap items ++ rest) := by
  induction items using enclosed.induct with
  | case1 => exact hrest
  | case2 item =>
    rw [enclosed, List.append_assoc]
    exact (h _ (.head _)).followed item.2 close rest hrest
  | case3 item next more ih =>
    obtain ⟨hitem, h⟩ := List.forall_mem_cons.1 h
    rw [enclosed, List.append_assoc]
    exact hitem.followed item.2 0x2c _ (ih h)

/-- The texts in quotes of a sequence are those of its elements. -/
theorem mem_quotedTexts_enclosed {text : Bytes}
    (h : text ∈ quotedTexts (enclosed close gap items)) :
    ∃ item ∈ items, text ∈ quotedTexts item.1 := by
  induction items using enclosed.induct with
  | case1 => cases h
  | case2 item =>
    rw [enclosed, quotedTexts, List.filterMap_append] at h
    rcases List.mem_append.1 h with h | h
    · exact ⟨_, .head _, h⟩
    · cases h
  | case3 item next rest ih =>
    rw [enclosed, quotedTexts, List.filterMap_append] at h
    rcases List.mem_append.1 h with h | h
    · exact ⟨_, .head _, h⟩
    · obtain ⟨other, hother, hmem⟩ := ih h
      exact ⟨other, .tail _ hother, hmem⟩

/-- The texts in quotes of elements with commas are those of the elements. -/
theorem mem_quotedTexts_separated {text : Bytes} (h : text ∈ quotedTexts (separated items)) :
    ∃ item ∈ items, text ∈ quotedTexts item.1 := by
  obtain ⟨token, htoken, htext⟩ := List.mem_filterMap.1 h
  obtain ⟨item, hitem, hmem⟩ := List.mem_flatMap.1 htoken
  refine ⟨item, hitem, List.mem_filterMap.2 ⟨token, ?_, htext⟩⟩
  rcases List.mem_append.1 hmem with hmem | hmem
  · exact hmem
  · obtain rfl := List.mem_singleton.1 hmem
    cases htext

end Enclosed

/-! ## The tokens of a configuration -/

/-- A mark behind white space is plain. -/
theorem plain_mark {gap : Bytes} {b : UInt8} (hgap : Gap gap) (hb : isMark b = true) :
    Plain (gap, .mark b) := ⟨hgap, hb⟩

/-- A numeral can stand in front of a mark. -/
theorem ConfigNumeral.Proper.enclosable {item : ConfigNumeral} (h : item.Proper) :
    Enclosable (item.tokens, item.after) where
  plain := List.forall_mem_singleton.2 ⟨h.before, h.numeral.not_mem (by decide) (by decide)⟩
  followed _ _ _ hrest := hrest
  gap := h.after

/-- The bytes of a numeral and the white space around it are no others. -/
theorem ConfigNumeral.Proper.not_mem_text {item : ConfigNumeral} (h : item.Proper) {b : UInt8}
    (hgap : isGap b = false) (hdigit : isDigit b = false)
    (hb : b ∉ [0x2e, 0x65, 0x45, 0x2b, 0x2d]) : b ∉ item.text := by
  intro hmem
  rw [ConfigNumeral.text, List.mem_append, List.mem_append] at hmem
  rcases hmem with (hmem | hmem) | hmem
  · exact absurd ((h.before b hmem).symm.trans hgap) (by decide)
  · exact h.numeral.not_mem hdigit hb hmem
  · exact absurd ((h.after b hmem).symm.trans hgap) (by decide)

/-- The name of an entry has no quote. -/
theorem ConfigEntry.Proper.noQuote {entry : ConfigEntry} (h : entry.Proper) :
    0x22 ∉ entry.name := by
  have hnames : ∀ name ∈ optionNames, 0x22 ∉ name := by decide
  exact hnames _ h.name

/-- An entry can stand in front of a mark. -/
theorem ConfigEntry.Proper.enclosable {entry : ConfigEntry} (h : entry.Proper) :
    Enclosable (entry.tokens, entry.after) where
  plain := by
    refine List.forall_mem_cons.2 ⟨⟨h.before, h.noQuote⟩, List.forall_mem_cons.2
      ⟨plain_mark h.beforeColon (by decide), List.forall_mem_singleton.2 ⟨h.beforeNumeral, ?_⟩⟩⟩
    exact h.numeral.not_mem (by decide) (by decide)
  followed _ _ _ hrest := ⟨⟨_, _, _, rfl⟩, hrest⟩
  gap := h.after

/-- The elements of a list of numerals can stand in front of marks. -/
theorem enclosable_numerals {numerals : List ConfigNumeral} (h : ∀ item ∈ numerals, item.Proper) :
    ∀ item ∈ numerals.map fun item => (item.tokens, item.after), Enclosable item :=
  List.forall_mem_map.2 fun item hitem => (h item hitem).enclosable

/-- The elements of a list of entries can stand in front of marks. -/
theorem enclosable_entries {entries : List ConfigEntry} (h : ∀ entry ∈ entries, entry.Proper) :
    ∀ item ∈ entries.map fun entry => (entry.tokens, entry.after), Enclosable item :=
  List.forall_mem_map.2 fun entry hentry => (h entry hentry).enclosable

/-- The value of a member can stand in front of a mark. -/
theorem ConfigField.Proper.enclosable {field : ConfigField} (h : field.Proper) {gap after : Bytes}
    (hgap : Gap gap) (hafter : Gap after) : Enclosable (field.tokens gap, after) where
  plain := by
    cases field with
    | temperature numerals =>
      exact List.forall_mem_cons.2 ⟨plain_mark hgap (by decide),
        plain_enclosed (by decide) (fun _ hb => nomatch hb) (enclosable_numerals h.2)⟩
    | byOptions entries inner =>
      exact List.forall_mem_cons.2 ⟨plain_mark hgap (by decide),
        plain_enclosed (by decide) h.2.2 (enclosable_entries h.1)⟩
    | other name value => exact h.plain
  followed := by
    intro gap b rest hrest
    cases field with
    | temperature numerals => exact followed_enclosed (enclosable_numerals h.2) hrest
    | byOptions entries inner => exact followed_enclosed (enclosable_entries h.1) hrest
    | other name value => exact h.followed gap b rest hrest
  gap := hafter

/-- The name of a member has no quote. -/
theorem ConfigField.Proper.noQuote {field : ConfigField} (h : field.Proper) :
    0x22 ∉ field.name := by
  have hnames : 0x22 ∉ lit "temperature" ∧ 0x22 ∉ lit "temperature_by_options" := by decide
  cases field with
  | temperature numerals => exact hnames.1
  | byOptions entries inner => exact hnames.2
  | other name value => exact Unsought.noQuote h

/-- A member can stand in front of a mark. -/
theorem ConfigMember.Proper.enclosable {member : ConfigMember} (h : member.Proper) :
    Enclosable (member.tokens, member.after) where
  plain := List.forall_mem_cons.2 ⟨⟨h.before, h.field.noQuote⟩, List.forall_mem_cons.2
    ⟨plain_mark h.beforeColon (by decide), (h.field.enclosable h.beforeValue h.after).plain⟩⟩
  followed gap b rest hrest :=
    ⟨⟨_, _, _, rfl⟩, (h.field.enclosable h.beforeValue h.after).followed gap b rest hrest⟩
  gap := h.after

section Config

variable {config : AgentConfig}

/-- The members of a configuration can stand in front of marks. -/
theorem AgentConfig.Proper.enclosable (h : config.Proper) :
    ∀ item ∈ config.members.map fun member => (member.tokens, member.after), Enclosable item :=
  List.forall_mem_map.2 fun member hmember => (h.members member hmember).enclosable

/-- The tokens of a configuration are plain. -/
theorem AgentConfig.Proper.plain (h : config.Proper) : ∀ token ∈ config.tokens, Plain token :=
  List.forall_mem_cons.2 ⟨plain_mark h.before (by decide),
    plain_enclosed (by decide) (fun _ hb => nomatch hb) h.enclosable⟩

/-- In a configuration every text in quotes is followed by a mark. -/
theorem AgentConfig.Proper.followed (h : config.Proper) : Followed config.tokens := by
  have hend := @followed_enclosed 0x7d [] _ h.enclosable [] trivial
  rw [List.append_nil] at hend
  exact hend

end Config

/-! ## Searching the text of a configuration -/

/-- A list of numerals has no text in quotes. -/
theorem not_mem_quotedTexts_numerals {numerals : List ConfigNumeral} {text : Bytes} :
    text ∉ quotedTexts (enclosed 0x5d [] (numerals.map fun item => (item.tokens, item.after))) := by
  intro htext
  obtain ⟨item, hitem, hmem⟩ := mem_quotedTexts_enclosed htext
  obtain ⟨numeral, -, rfl⟩ := List.mem_map.1 hitem
  cases hmem

/-- The texts in quotes of entries with commas are their names. -/
theorem mem_quotedTexts_entry {entries : List ConfigEntry} {text : Bytes}
    (h : ∃ item ∈ entries.map fun entry => (entry.tokens, entry.after), text ∈ quotedTexts item.1) :
    ∃ entry ∈ entries, text = entry.name := by
  obtain ⟨item, hitem, hmem⟩ := h
  obtain ⟨entry, hentry, rfl⟩ := List.mem_map.1 hitem
  exact ⟨entry, hentry, List.mem_singleton.1 hmem⟩

/-- Each name that is searched for can be. -/
theorem isSought_of_mem {name : Bytes} (h : name ∈ lit "temperature" :: bucketNames) :
    isSought name = true := by
  have hall : ∀ name ∈ lit "temperature" :: bucketNames, isSought name = true := by decide
  exact hall name h

/-- **A member is skipped by the searches for the names of other members and entries.** -/
theorem ConfigMember.Proper.not_accepts {member : ConfigMember} (h : member.Proper) {name : Bytes}
    (hname : name ∈ lit "temperature" :: bucketNames)
    (hother : name = lit "temperature" → member.field.name ≠ name)
    (hentries : ∀ entries gap, member.field = .byOptions entries gap →
      ∀ entry ∈ entries, ¬(pattern name).Accepts entry.name) :
    ∀ text ∈ quotedTexts member.tokens, ¬(pattern name).Accepts text := by
  have hmembers : ∀ name ∈ lit "temperature" :: bucketNames,
      ((pattern name).Accepts (lit "temperature") → name = lit "temperature") ∧
        ¬(pattern name).Accepts (lit "temperature_by_options") := by decide
  obtain ⟨htemperature, hbyOptions⟩ := hmembers name hname
  obtain ⟨hfield, -, -, -, -⟩ := h
  obtain ⟨field, before, beforeColon, beforeValue, after⟩ := member
  dsimp only at hfield hother hentries
  intro text htext
  cases field with
  | temperature numerals =>
    rcases List.mem_cons.1 htext with rfl | htext
    · exact fun haccepts => hother (htemperature haccepts) (htemperature haccepts).symm
    · exact absurd htext not_mem_quotedTexts_numerals
  | byOptions entries gap =>
    rcases List.mem_cons.1 htext with rfl | htext
    · exact hbyOptions
    · obtain ⟨entry, hentry, rfl⟩ := mem_quotedTexts_entry (mem_quotedTexts_enclosed htext)
      exact hentries entries gap rfl entry hentry
  | other own value => exact fun haccepts => hfield.unsought text htext ⟨name, hname, haccepts⟩

section Config

variable {config : AgentConfig}

/-- The entries of a configuration are those of a member, if it has any. -/
theorem AgentConfig.exists_member {entry : ConfigEntry} (hentry : entry ∈ config.entries) :
    ∃ member ∈ config.members, ∃ gap, member.field = .byOptions config.entries gap := by
  rw [AgentConfig.entries] at hentry ⊢
  cases hfind : config.members.find? fun member =>
      member.field.name = lit "temperature_by_options" with
  | none =>
    rw [AgentConfig.value?, hfind] at hentry
    cases hentry
  | some member =>
    refine ⟨member, List.mem_of_find?_eq_some hfind, ?_⟩
    rw [AgentConfig.value?, hfind, Option.map_some] at hentry ⊢
    cases hfield : member.field with
    | temperature numerals =>
      rw [hfield] at hentry
      cases hentry
    | byOptions entries gap => exact ⟨gap, rfl⟩
    | other name value =>
      rw [hfield] at hentry
      cases hentry

variable (h : config.Proper)

include h

/-- What a configuration has under the name of a member is the member. -/
theorem AgentConfig.Proper.value?_eq {member : ConfigMember} (hmember : member ∈ config.members) :
    config.value? member.field.name = some member.field := by
  have hfind := find?_eq_of_key h.names hmember
  rw [AgentConfig.value?, hfind, Option.map_some]

/-- The entries of a configuration are those of its member. -/
theorem AgentConfig.Proper.entries_eq {member : ConfigMember} (hmember : member ∈ config.members)
    {entries : List ConfigEntry} {gap : Bytes} (hfield : member.field = .byOptions entries gap) :
    config.entries = entries := by
  have hvalue := h.value?_eq hmember
  rw [hfield] at hvalue
  rw [AgentConfig.entries]
  exact congrArg (fun value : Option ConfigField => match value with
    | some (.byOptions entries _) => entries
    | _ => []) hvalue

/-- The entries of a configuration are well formed and have distinct names. -/
theorem AgentConfig.Proper.entries : (∀ entry ∈ config.entries, entry.Proper) ∧
    (config.entries.map ConfigEntry.name).Nodup := by
  cases hentries : config.entries with
  | nil => exact ⟨fun _ hentry => absurd hentry List.not_mem_nil, List.nodup_nil⟩
  | cons entry rest =>
    obtain ⟨member, hmember, gap, hfield⟩ :=
      AgentConfig.exists_member (hentries ▸ .head _ : entry ∈ config.entries)
    have hproper := (h.members member hmember).field
    rw [hfield, hentries] at hproper
    exact ⟨hproper.1, hproper.2.1⟩

/-- A configuration has entries under their name, or nothing. -/
theorem AgentConfig.Proper.value?_byOptions :
    config.value? (lit "temperature_by_options") = none ∨
      ∃ gap,
        config.value? (lit "temperature_by_options") = some (.byOptions config.entries gap) := by
  cases hvalue : config.value? (lit "temperature_by_options") with
  | none => exact .inl rfl
  | some field =>
    obtain ⟨member, hfind, rfl⟩ := Option.map_eq_some_iff.1 hvalue
    have hname : member.field.name = lit "temperature_by_options" := by
      simpa using List.find?_some hfind
    have hproper := (h.members member (List.mem_of_find?_eq_some hfind)).field
    refine .inr ?_
    cases hfield : member.field with
    | temperature numerals =>
      rw [hfield] at hname
      exact absurd hname (by decide : lit "temperature" ≠ lit "temperature_by_options")
    | byOptions entries gap =>
      rw [h.entries_eq (List.mem_of_find?_eq_some hfind) hfield]
      exact ⟨gap, rfl⟩
    | other name value =>
      rw [hfield] at hname hproper
      exact absurd hname (Unsought.distinct hproper)

/-- A search for the name of a member passes the members in front of it. -/
theorem AgentConfig.Proper.tokens_eq {pre post : List ConfigMember} {member : ConfigMember}
    (hmembers : config.members = pre ++ member :: post) {name : Bytes}
    (hname : name ∈ lit "temperature" :: bucketNames)
    (hother : ∀ other ∈ pre, name = lit "temperature" → other.field.name ≠ name)
    (hentries : ∀ other ∈ pre, ∀ entries gap, other.field = .byOptions entries gap →
      ∀ entry ∈ entries, ¬(pattern name).Accepts entry.name) :
    ∃ before b more, config.tokens = before ++ (member.tokens ++ (member.after, .mark b) :: more) ∧
      ∀ text ∈ quotedTexts before, ¬(pattern name).Accepts text := by
  obtain ⟨b, more, -, heq⟩ := enclosed_append 0x7d []
    (pre.map fun member => (member.tokens, member.after)) (member.tokens, member.after)
    (post.map fun member => (member.tokens, member.after))
  refine ⟨(config.before, .mark 0x7b) :: separated (pre.map fun member =>
    (member.tokens, member.after)), b, more, ?_, ?_⟩
  · rw [AgentConfig.tokens, hmembers, List.map_append, List.map_cons, heq]
    rfl
  · intro text htext
    obtain ⟨item, hitem, hmem⟩ := mem_quotedTexts_separated htext
    obtain ⟨other, hpre, rfl⟩ := List.mem_map.1 hitem
    have hproper := h.members other (hmembers ▸ List.mem_append_left _ hpre)
    exact hproper.not_accepts hname (hother other hpre) (hentries other hpre) text hmem

/-- A search for the name of an entry passes everything in front of it. -/
theorem AgentConfig.Proper.tokens_entry {entry : ConfigEntry} (hentry : entry ∈ config.entries)
    (hname : entry.name ∈ bucketNames) (hplus : 0x2b ∉ entry.name) :
    ∃ before c more, isMark c = true ∧
      config.tokens = before ++ (entry.tokens ++ (entry.after, .mark c) :: more) ∧
      ∀ text ∈ quotedTexts before, ¬(pattern entry.name).Accepts text := by
  have hbuckets : lit "temperature" ∉ bucketNames ∧
      ∀ name ∈ bucketNames, ¬(pattern name).Accepts (lit "temperature_by_options") := by decide
  obtain ⟨member, hmember, gap, hfield⟩ := AgentConfig.exists_member hentry
  obtain ⟨pre, post, hmembers⟩ := List.append_of_mem hmember
  obtain ⟨epre, epost, hentries⟩ := List.append_of_mem hentry
  have hother : ∀ other ∈ pre, entry.name = lit "temperature" → other.field.name ≠ entry.name :=
    fun _ _ heq => absurd (heq ▸ hname) hbuckets.1
  have hone : ∀ other ∈ pre, ∀ entries gap, other.field = .byOptions entries gap →
      ∀ other ∈ entries, ¬(pattern entry.name).Accepts other.name := by
    intro other hpre entries gap' hfield'
    refine absurd ?_ (key_ne_of_append (hmembers ▸ h.names) hpre)
    rw [hfield, hfield']
    rfl
  obtain ⟨before, b, more, htokens, hbefore⟩ := h.tokens_eq hmembers (.tail _ hname) hother hone
  obtain ⟨c, inner, hc, hinner⟩ := enclosed_append 0x7d gap
    (epre.map fun entry => (entry.tokens, entry.after)) (entry.tokens, entry.after)
    (epost.map fun entry => (entry.tokens, entry.after))
  have hmember : member.tokens = (member.before, .quoted (lit "temperature_by_options")) ::
      (member.beforeColon, .mark 0x3a) :: (member.beforeValue, .mark 0x7b) ::
        (separated (epre.map fun entry => (entry.tokens, entry.after)) ++
          (entry.tokens ++ (entry.after, .mark c) :: inner)) := by
    rw [ConfigMember.tokens, hfield, ConfigField.tokens, hentries, List.map_append, List.map_cons,
      hinner]
    rfl
  refine ⟨before ++ (member.before, .quoted (lit "temperature_by_options")) ::
    (member.beforeColon, .mark 0x3a) :: (member.beforeValue, .mark 0x7b) ::
      separated (epre.map fun entry => (entry.tokens, entry.after)), c,
    inner ++ (member.after, .mark b) :: more, ?_, ?_, ?_⟩
  · rcases hc with rfl | rfl <;> decide
  · rw [htokens, hmember]
    simp only [List.append_assoc, List.cons_append]
  · intro text htext
    rw [quotedTexts, List.filterMap_append] at htext
    rcases List.mem_append.1 htext with htext | htext
    · exact hbefore text htext
    · rcases List.mem_cons.1 htext with rfl | htext
      · exact hbuckets.2 _ hname
      · obtain ⟨other, hepre, rfl⟩ := mem_quotedTexts_entry (mem_quotedTexts_separated htext)
        rw [accepts_pattern_iff hplus]
        exact key_ne_of_append (hentries ▸ h.entries.2) hepre

/-- A search for the name of an entry finds its numeral. -/
theorem AgentConfig.Proper.numberText_of_mem {entry : ConfigEntry} (hentry : entry ∈ config.entries)
    (hname : entry.name ∈ bucketNames) (hplus : 0x2b ∉ entry.name) :
    numberText config.text entry.name = some entry.numeral.text := by
  obtain ⟨before, c, more, hc, htokens, hbefore⟩ := h.tokens_entry hentry hname hplus
  have hproper := h.entries.1 entry hentry
  rw [numberText, AgentConfig.text, htokens, search_skip colon numberRegex .empty
    (isSought_of_mem (.tail _ hname)) (htokens ▸ h.plain) (htokens ▸ h.followed) hbefore]
  have hrender : render (entry.tokens ++ (entry.after, .mark c) :: more) ++ config.trailing =
      entry.before ++ 0x22 :: (entry.name ++ 0x22 :: (entry.beforeColon ++ 0x3a ::
        (entry.beforeNumeral ++ (entry.numeral.text ++
          (entry.after ++ c :: (render more ++ config.trailing)))))) := by
    simp only [render_cons, ConfigEntry.tokens, Token.text, List.cons_append, List.nil_append,
      List.append_assoc]
  rw [hrender]
  exact search_number hplus hproper.before hproper.beforeColon hproper.beforeNumeral
    hproper.numeral fun b hb => endsNumeral_of_gap_mark (head?_gap_mark hproper.after hc hb)

/-- A search for a name without an entry finds nothing. -/
theorem AgentConfig.Proper.numberText_eq_none {name : Bytes} (hname : name ∈ bucketNames)
    (hentries : ∀ entry ∈ config.entries, ¬(pattern name).Accepts entry.name) :
    numberText config.text name = none := by
  have htemperature : lit "temperature" ∉ bucketNames := by decide
  refine search_eq_none (isSought_of_mem (.tail _ hname)) h.plain h.followed ?_ h.trailing
  intro text htext
  obtain ⟨item, hitem, hmem⟩ := mem_quotedTexts_enclosed htext
  obtain ⟨member, hmember, rfl⟩ := List.mem_map.1 hitem
  refine (h.members member hmember).not_accepts (.tail _ hname)
    (fun heq => absurd (heq ▸ hname) htemperature) ?_ text hmem
  intro entries gap hfield entry hentry
  exact hentries entry (h.entries_eq hmember hfield ▸ hentry)

/-- **A search finds the numeral of an entry, but not under a name with a `+`.** -/
theorem AgentConfig.Proper.numberText_text {name : Bytes} (hname : name ∈ bucketNames) :
    numberText config.text name = (config.found? name).map Numeral.text := by
  have hnames : ∀ name ∈ bucketNames, ∀ text ∈ optionNames,
      (pattern name).Accepts text → text = name ∧ 0x2b ∉ name := by decide
  have haccepts := fun entry (hentry : entry ∈ config.entries) =>
    hnames name hname entry.name (h.entries.1 entry hentry).name
  rw [AgentConfig.found?]
  split
  · next hplus =>
    exact h.numberText_eq_none hname fun entry hentry hacc => (haccepts entry hentry hacc).2 hplus
  · next hplus =>
    rw [AgentConfig.entry?]
    cases hfind : config.entries.find? fun entry => entry.name = name with
    | none =>
      refine h.numberText_eq_none hname fun entry hentry hacc => ?_
      have hne := List.find?_eq_none.1 hfind entry hentry
      exact hne (decide_eq_true (haccepts entry hentry hacc).1)
    | some entry =>
      obtain rfl : entry.name = name := by simpa using List.find?_some hfind
      exact h.numberText_of_mem (List.mem_of_find?_eq_some hfind) hname hplus

/-- The numerals of entries are numerals. -/
theorem AgentConfig.Proper.found?_proper {name : Bytes} {numeral : Numeral}
    (hfound : numeral ∈ config.found? name) : numeral.Proper := by
  rw [AgentConfig.found?] at hfound
  split at hfound
  · cases hfound
  · obtain ⟨entry, hentry, rfl⟩ := Option.map_eq_some_iff.1 hfound
    exact (h.entries.1 entry (List.mem_of_find?_eq_some hentry)).numeral

/-- The temperatures of a configuration are those of a member. -/
theorem AgentConfig.Proper.exists_numerals :
    ∃ member ∈ config.members, member.field = .temperature config.numerals := by
  obtain ⟨member, hmember, numerals, hfield⟩ := h.temperature
  have hvalue := h.value?_eq hmember
  rw [hfield] at hvalue
  have hnumerals : config.numerals = numerals := by
    rw [AgentConfig.numerals]
    exact congrArg (fun value : Option ConfigField => match value with
      | some (.temperature numerals) => numerals
      | _ => []) hvalue
  exact ⟨member, hmember, hnumerals ▸ hfield⟩

/-- A configuration has three temperatures. -/
theorem AgentConfig.Proper.numerals :
    config.numerals.length = 3 ∧ ∀ item ∈ config.numerals, item.Proper := by
  obtain ⟨member, hmember, hfield⟩ := h.exists_numerals
  have hproper := (h.members member hmember).field
  rw [hfield] at hproper
  exact hproper

omit h in
/-- The text of numerals has commas between them. -/
theorem render_numerals {numerals : List ConfigNumeral} (hne : numerals ≠ []) :
    render (enclosed 0x5d [] (numerals.map fun item => (item.tokens, item.after))) =
      [0x2c].intercalate (numerals.map ConfigNumeral.text) ++ [0x5d] := by
  induction numerals with
  | nil => exact absurd rfl hne
  | cons item rest ih =>
    cases rest with
    | nil =>
      have hend : render [] = [] := rfl
      simp only [render_cons, hend, enclosed, ConfigNumeral.tokens, ConfigNumeral.text,
        Token.text, List.map_cons, List.map_nil, List.cons_append, List.nil_append,
        List.append_nil, List.append_assoc, List.intercalate_singleton]
    | cons next rest =>
      have hfirst : render (enclosed 0x5d [] ((item :: next :: rest).map fun item =>
          (item.tokens, item.after))) = item.text ++ 0x2c :: render (enclosed 0x5d []
            ((next :: rest).map fun item => (item.tokens, item.after))) := by
        simp only [render_cons, enclosed, ConfigNumeral.tokens, ConfigNumeral.text, Token.text,
          List.map_cons, List.append_assoc, List.cons_append, List.nil_append]
      rw [hfirst, ih (List.cons_ne_nil next rest)]
      simp only [List.map_cons, List.intercalate_cons_cons, List.append_assoc, List.cons_append,
        List.nil_append]

/-- A search passes everything in front of the temperatures. -/
theorem AgentConfig.Proper.tokens_temperature :
    ∃ before beforeName beforeColon beforeValue more,
      Gap beforeName ∧ Gap beforeColon ∧ Gap beforeValue ∧
      config.tokens = before ++ ((beforeName, .quoted (lit "temperature")) ::
        (beforeColon, .mark 0x3a) :: (beforeValue, .mark 0x5b) ::
          (enclosed 0x5d [] (config.numerals.map fun item => (item.tokens, item.after)) ++ more)) ∧
      ∀ text ∈ quotedTexts before, ¬(pattern (lit "temperature")).Accepts text := by
  have hoptions : ∀ name ∈ optionNames, ¬(pattern (lit "temperature")).Accepts name := by decide
  obtain ⟨member, hmember, hfield⟩ := h.exists_numerals
  obtain ⟨pre, post, hmembers⟩ := List.append_of_mem hmember
  have hname : lit "temperature" = member.field.name := by
    rw [hfield]
    rfl
  have hother : ∀ other ∈ pre, lit "temperature" = lit "temperature" →
      other.field.name ≠ lit "temperature" := by
    intro other hpre _
    have hne : other.field.name ≠ member.field.name := key_ne_of_append
      (k := fun member : ConfigMember => member.field.name) (hmembers ▸ h.names) hpre
    rwa [← hname] at hne
  have hentries : ∀ other ∈ pre, ∀ entries gap, other.field = .byOptions entries gap →
      ∀ entry ∈ entries, ¬(pattern (lit "temperature")).Accepts entry.name := by
    intro other hpre entries gap hbyOptions entry hentry
    have hproper := (h.members other (hmembers ▸ List.mem_append_left _ hpre)).field
    rw [hbyOptions] at hproper
    exact hoptions entry.name (hproper.1 entry hentry).name
  obtain ⟨before, b, more, htokens, hbefore⟩ := h.tokens_eq hmembers (.head _) hother hentries
  have hproper := h.members member hmember
  refine ⟨before, member.before, member.beforeColon, member.beforeValue,
    (member.after, .mark b) :: more, hproper.before, hproper.beforeColon, hproper.beforeValue, ?_,
    hbefore⟩
  rw [htokens, ConfigMember.tokens, hfield]
  rfl

/-- **A search finds the text of the temperatures.** -/
theorem AgentConfig.Proper.temperatureText_text :
    temperatureText config.text =
      some ([0x2c].intercalate (config.numerals.map ConfigNumeral.text)) := by
  obtain ⟨before, beforeName, beforeColon, beforeValue, more, hgap, hcolon, hvalue, htokens,
    hbefore⟩ := h.tokens_temperature
  obtain ⟨hlength, hnumerals⟩ := h.numerals
  have hne : config.numerals ≠ [] := by
    intro hnil
    rw [hnil] at hlength
    cases hlength
  rw [temperatureText, AgentConfig.text, htokens, search_skip _ _ _
    (isSought_of_mem (.head _)) (htokens ▸ h.plain) (htokens ▸ h.followed) hbefore]
  have hrender : render ((beforeName, .quoted (lit "temperature")) ::
      (beforeColon, .mark 0x3a) :: (beforeValue, .mark 0x5b) ::
        (enclosed 0x5d [] (config.numerals.map fun item => (item.tokens, item.after)) ++ more)) ++
          config.trailing =
      beforeName ++ 0x22 :: (lit "temperature" ++ 0x22 :: (beforeColon ++ 0x3a ::
        (beforeValue ++ 0x5b :: ([0x2c].intercalate (config.numerals.map ConfigNumeral.text) ++
          0x5d :: (render more ++ config.trailing))))) := by
    simp only [render_cons, render_append, render_numerals hne, Token.text, List.cons_append,
      List.append_assoc, List.nil_append]
  rw [hrender]
  refine search_brackets (by decide) hgap hcolon hvalue ?_ ?_
  · obtain ⟨first, second, third, hthree⟩ := List.length_eq_three.1 hlength
    rw [hthree, List.map_cons, List.map_cons, List.intercalate_cons_cons]
    intro hnil
    exact List.cons_ne_nil 0x2c [] (List.append_eq_nil_iff.1 (List.append_eq_nil_iff.1 hnil).1).2
  · intro hmem
    rcases mem_intercalate hmem with hmem | ⟨text, htext, hmem⟩
    · exact absurd hmem (by decide)
    · obtain ⟨item, hitem, rfl⟩ := List.mem_map.1 htext
      exact (hnumerals item hitem).not_mem_text (by decide) (by decide) (by decide) hmem

end Config

end Jevt
