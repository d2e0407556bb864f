import Mathlib.Data.UInt
import Jevt.Core.Floating
import Jevt.Library.Ordered
import Jevt.Text

/-!
# JSON values

What the remote backend uses of `nlohmann::json`: values, the accessors that throw, and a parser and
a serializer that are inverse to each other (`JsonCodec`). An object is a `std::map`, so its members
are in the order of their keys.

Whether two values are equal is decidable (`same_iff`), and whether a value is one that there is can
be checked (`valid_of_wellFormed`); so a table of texts and their values is a parser and a
serializer (`JsonCodec.ofTable`).
-/

namespace Jevt

open Library

/-- `nlohmann::json`. -/
inductive JsonValue where
  | null
  | boolean (value : Bool)
  | string (value : Bytes)
  | unsigned (value : UInt64)
  | integer (value : Int)
  | float (value : Floating)
  | array (items : List JsonValue)
  | object (members : List (Bytes × JsonValue))

namespace JsonValue

/-- An object with the given members, assigned one after the other. -/
def ofMembers (members : List (Bytes × JsonValue)) : JsonValue :=
  .object (ofEntries members)

/-- `is_null`. -/
def isNull : JsonValue → Bool
  | null => true
  | _ => false

/-- Whether a value is text, an object or an array. -/
def isContent : JsonValue → Bool
  | string _ | object _ | array _ => true
  | _ => false

/-- `at` with a key, which throws when there is no such member. -/
def member (key : Bytes) : JsonValue → Option JsonValue
  | object members => members.lookup key
  | _ => none

/-- `get<std::string>`. -/
def getString : JsonValue → Option Bytes
  | string value => some value
  | _ => none

/-- `get<double>`. -/
def getDouble (arith : Arithmetic) : JsonValue → Option Floating
  | unsigned value => some (arith.double value.toNat)
  | integer value => some (arith.double value)
  | float value => some value
  | _ => none

/-- The members of an object, of which there must be a given number. -/
def getMembers (size : Nat) : JsonValue → Option (List (Bytes × JsonValue))
  | object members => if members.length = size then some members else none
  | _ => none

/-- The values there are: the members of an object are in the order of their keys, an integer that
is not negative is unsigned, and there are no other numbers than finite ones. -/
inductive Valid : JsonValue → Prop
  | null : Valid null
  | boolean (value : Bool) : Valid (boolean value)
  | string (value : Bytes) : Valid (string value)
  | unsigned (value : UInt64) : Valid (unsigned value)
  | integer {value : Int} (negative : value < 0) (bound : -2 ^ 63 ≤ value) : Valid (integer value)
  | float (value : ℚ) : Valid (float (.finite value))
  | array {items : List JsonValue} (valid : ∀ item ∈ items, Valid item) : Valid (array items)
  | object {members : List (Bytes × JsonValue)}
      (ordered : (members.map Prod.fst).Pairwise (· < ·))
      (valid : ∀ key value, (key, value) ∈ members → Valid value) : Valid (object members)

/-! ## Comparing and checking values -/

mutual

/-- Whether two values are the same. -/
def same : JsonValue → JsonValue → Bool
  | null, null => true
  | boolean a, boolean b => decide (a = b)
  | string a, string b => decide (a = b)
  | unsigned a, unsigned b => decide (a = b)
  | integer a, integer b => decide (a = b)
  | float a, float b => decide (a = b)
  | array a, array b => sameItems a b
  | object a, object b => sameMembers a b
  | _, _ => false

/-- Whether two arrays have the same items. -/
def sameItems : List JsonValue → List JsonValue → Bool
  | [], [] => true
  | a :: items, b :: items' => same a b && sameItems items items'
  | _, _ => false

/-- Whether two objects have the same members. -/
def sameMembers : List (Bytes × JsonValue) → List (Bytes × JsonValue) → Bool
  | [], [] => true
  | (key, a) :: members, (key', b) :: members' =>
    decide (key = key') && (same a b && sameMembers members members')
  | _, _ => false

end

mutual

/-- Values that are the same are equal. -/
theorem same_iff : ∀ {a b : JsonValue}, same a b = true ↔ a = b
  | null, b => by cases b <;> simp [same]
  | boolean _, b => by cases b <;> simp [same]
  | string _, b => by cases b <;> simp [same]
  | unsigned _, b => by cases b <;> simp [same]
  | integer _, b => by cases b <;> simp [same]
  | float _, b => by cases b <;> simp [same]
  | array _, b => by cases b <;> simp [same, sameItems_iff]
  | object _, b => by cases b <;> simp [same, sameMembers_iff]

/-- Arrays with the same items are equal. -/
theorem sameItems_iff : ∀ {items items' : List JsonValue},
    sameItems items items' = true ↔ items = items'
  | [], items' => by cases items' <;> simp [sameItems]
  | _ :: _, items' => by cases items' <;> simp [sameItems, same_iff, sameItems_iff]

/-- Objects with the same members are equal. -/
theorem sameMembers_iff : ∀ {members members' : List (Bytes × JsonValue)},
    sameMembers members members' = true ↔ members = members'
  | [], members' => by cases members' <;> simp [sameMembers]
  | (_, _) :: _, [] => by simp [sameMembers]
  | (_, _) :: _, (_, _) :: _ => by
    simp [sameMembers, same_iff, sameMembers_iff, and_assoc]

end

instance : DecidableEq JsonValue := fun _ _ => decidable_of_iff _ same_iff

mutual

/-- Whether a value is one that there is. -/
def wellFormed : JsonValue → Bool
  | integer value => decide (value < 0 ∧ -2 ^ 63 ≤ value)
  | float value => value.isFinite
  | array items => wellFormedItems items
  | object members =>
    decide ((members.map Prod.fst).Pairwise (· < ·)) && wellFormedMembers members
  | _ => true

/-- Whether the items of an array are values that there are. -/
def wellFormedItems : List JsonValue → Bool
  | [] => true
  | item :: items => wellFormed item && wellFormedItems items

/-- Whether the members of an object are values that there are. -/
def wellFormedMembers : List (Bytes × JsonValue) → Bool
  | [] => true
  | (_, value) :: members => wellFormed value && wellFormedMembers members

end

mutual

/-- A value that passes the check is one that there is. -/
theorem valid_of_wellFormed : ∀ {value : JsonValue}, wellFormed value = true → value.Valid
  | null, _ => .null
  | boolean value, _ => .boolean value
  | string value, _ => .string value
  | unsigned value, _ => .unsigned value
  | integer value, h => by
    rw [wellFormed, decide_eq_true_eq] at h
    exact .integer h.1 h.2
  | float value, h => by
    rw [wellFormed] at h
    cases value with
    | finite q => exact .float q
    | infinite => cases h
    | nan => cases h
  | array items, h => .array (valid_of_wellFormedItems (by rwa [wellFormed] at h))
  | object members, h => by
    rw [wellFormed, Bool.and_eq_true, decide_eq_true_eq] at h
    exact .object h.1 (valid_of_wellFormedMembers h.2)

/-- So are the items of an array. -/
theorem valid_of_wellFormedItems : ∀ {items : List JsonValue},
    wellFormedItems items = true → ∀ item ∈ items, item.Valid
  | [], _ => List.forall_mem_nil _
  | item :: items, h => by
    rw [wellFormedItems, Bool.and_eq_true] at h
    exact List.forall_mem_cons.2 ⟨valid_of_wellFormed h.1, valid_of_wellFormedItems h.2⟩

/-- So are the members of an object. -/
theorem valid_of_wellFormedMembers : ∀ {members : List (Bytes × JsonValue)},
    wellFormedMembers members = true → ∀ key value, (key, value) ∈ members → value.Valid
  | [], _ => fun _ _ hmem => absurd hmem List.not_mem_nil
  | (key, value) :: members, h => by
    rw [wellFormedMembers, Bool.and_eq_true] at h
    intro key' value' hmem
    rcases List.mem_cons.1 hmem with heq | hmem
    · obtain ⟨-, rfl⟩ := Prod.mk.inj heq
      exact valid_of_wellFormed h.1
    · exact valid_of_wellFormedMembers h.2 key' value' hmem

end

/-- An object of valid members is valid. -/
theorem valid_ofMembers {members : List (Bytes × JsonValue)}
    (hkeys : (members.map Prod.fst).Nodup)
    (hvalid : ∀ key value, (key, value) ∈ members → value.Valid) : (ofMembers members).Valid :=
  .object (pairwise_ofEntries members) fun key value hmem =>
    hvalid key value ((ofEntries_perm hkeys).mem_iff.1 hmem)

/-- A member of an object with distinct keys is found. -/
theorem member_ofMembers {members : List (Bytes × JsonValue)} (hkeys : (members.map Prod.fst).Nodup)
    {key : Bytes} {value : JsonValue} (hmem : (key, value) ∈ members) :
    (ofMembers members).member key = some value :=
  lookup_ofEntries hkeys hmem

end JsonValue

/-- `json::parse` and `dump`, either of which may throw: what is parsed is a value, and a value is
what its text parses to. -/
structure JsonCodec where
  parse : Bytes → Option JsonValue
  dump : JsonValue → Option Bytes
  valid_of_parse : ∀ {text : Bytes} {value : JsonValue}, parse text = some value → value.Valid
  parse_of_dump : ∀ {value : JsonValue} {text : Bytes}, value.Valid → dump value = some text →
    parse text = some value

/-- The parser and the serializer that know the texts of a table. -/
def JsonCodec.ofTable (entries : List (Bytes × JsonValue))
    (hkeys : (entries.map Prod.fst).Nodup)
    (hvalues : entries.all (fun entry => entry.2.wellFormed) = true) : JsonCodec where
  parse := fun text => entries.lookup text
  dump := fun value => (entries.find? fun entry => entry.2 = value).map Prod.fst
  valid_of_parse := fun h =>
    JsonValue.valid_of_wellFormed (List.all_eq_true.1 hvalues _ (mem_of_lookup h))
  parse_of_dump := by
    intro value text _ h
    obtain ⟨⟨text', value'⟩, hfound, rfl⟩ := Option.map_eq_some_iff.1 h
    obtain rfl : value' = value := by simpa using List.find?_some hfound
    exact lookup_of_mem hkeys (List.mem_of_find?_eq_some hfound)

end Jevt
