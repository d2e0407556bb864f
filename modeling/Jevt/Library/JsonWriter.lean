import Jevt.Library.JsonComplete
import Jevt.Library.Utf8

/-!
# Writing JSON

The text of a value without white space, for any way of escaping single bytes (`Json.write`). When
an escape stands for its byte, the text denotes the value (`denotes_write`). An escape is then ASCII
for ASCII bytes and nothing for all others (`keepsUtf8_of_piece`), so that the text is UTF-8 as soon
as the strings of the value are (`utf8_write`), and only then (`utf8_of_occurs`).
-/

namespace Jevt.Library.Json

variable {esc : UInt8 → List UInt8}

/-- A string literal. -/
def quote (esc : UInt8 → List UInt8) (s : List UInt8) : List UInt8 :=
  0x22 :: s.flatMap esc ++ [0x22]

mutual

/-- The text of a value. -/
def write (esc : UInt8 → List UInt8) : Json → List UInt8
  | null => [0x6e, 0x75, 0x6c, 0x6c]
  | bool true => [0x74, 0x72, 0x75, 0x65]
  | bool false => [0x66, 0x61, 0x6c, 0x73, 0x65]
  | number lexeme => lexeme
  | str s => quote esc s
  | arr items => 0x5b :: [0x2c].intercalate (writeItems esc items) ++ [0x5d]
  | obj members => 0x7b :: [0x2c].intercalate (writeMembers esc members) ++ [0x7d]

/-- The texts of the items of an array. -/
def writeItems (esc : UInt8 → List UInt8) : List Json → List (List UInt8)
  | [] => []
  | item :: items => write esc item :: writeItems esc items

/-- The texts of the members of an object. -/
def writeMembers (esc : UInt8 → List UInt8) : List (List UInt8 × Json) → List (List UInt8)
  | [] => []
  | (key, value) :: members =>
    (quote esc key ++ 0x3a :: write esc value) :: writeMembers esc members

end

/-- The items are written one by one. -/
theorem writeItems_eq (items : List Json) : writeItems esc items = items.map (write esc) := by
  induction items with
  | nil => rfl
  | cons item items ih => rw [writeItems, ih, List.map_cons]

/-- The members are written one by one. -/
theorem writeMembers_eq (members : List (List UInt8 × Json)) : writeMembers esc members =
    members.map fun member => quote esc member.1 ++ 0x3a :: write esc member.2 := by
  induction members with
  | nil => rfl
  | cons member members ih => rw [writeMembers, ih, List.map_cons]

/-! ## What a value is made of -/

/-- Every string of a value, keys included, has a property, and every lexeme is a number. -/
inductive Holds (P : List UInt8 → Prop) : Json → Prop
  | null : Holds P null
  | bool {b : Bool} : Holds P (bool b)
  | number {lexeme : List UInt8} (h : isNumber lexeme = true) : Holds P (number lexeme)
  | str {s : List UInt8} (h : P s) : Holds P (str s)
  | arr {items : List Json} (h : ∀ item ∈ items, Holds P item) : Holds P (arr items)
  | obj {members : List (List UInt8 × Json)} (hkeys : ∀ member ∈ members, P member.1)
      (h : ∀ member ∈ members, Holds P member.2) : Holds P (obj members)

/-- A string occurs in a value, not as a key. -/
inductive Occurs (s : List UInt8) : Json → Prop
  | str : Occurs s (str s)
  | arr {items : List Json} {item : Json} (hitem : item ∈ items) (h : Occurs s item) :
    Occurs s (arr items)
  | obj {members : List (List UInt8 × Json)} {member : List UInt8 × Json}
      (hmember : member ∈ members) (h : Occurs s member.2) : Occurs s (obj members)

/-! ## The grammar -/

variable {P : List UInt8 → Prop} {v : Json}

/-- **The text of a value denotes it.** -/
theorem denotes_write (hesc : ∀ c, Piece [c] (esc c)) (h : Holds P v) :
    Denotes v (write esc v) := by
  induction h with
  | null => exact .null
  | @bool b => cases b <;> constructor
  | number h => exact .number h
  | str _ => exact .str (stringText_flatMap hesc _)
  | @arr items _ ih =>
    rw [write, writeItems_eq]
    by_cases hnil : items = []
    · subst hnil
      exact .emptyArr nofun
    · have hitems : Denotes
          (.arr ((items.map fun item => (item, write esc item)).map Prod.fst)) _ :=
        .arr (by simpa using hnil) (by simpa using ih)
      simpa [Function.comp_def] using hitems
  | @obj members _ _ ih =>
    rw [write, writeMembers_eq]
    by_cases hnil : members = []
    · subst hnil
      exact .emptyObj nofun
    · let written := members.map fun member =>
        Member.mk [] member.1 (member.1.flatMap esc) [] member.2 (write esc member.2)
      have hwritten : Denotes (.obj (written.map fun m => (m.key, m.value))) _ :=
        .obj (by simpa [written] using hnil)
          (by
            intro m hm
            obtain ⟨member, -, rfl⟩ := List.mem_map.1 hm
            exact ⟨nofun, stringText_flatMap hesc _, nofun⟩)
          (by
            intro m hm
            obtain ⟨member, hmember, rfl⟩ := List.mem_map.1 hm
            exact ih member hmember)
      simpa [written, Function.comp_def, Member.render, quote] using hwritten

/-! ## UTF-8 -/

/-- A hexadecimal digit is ASCII. -/
theorem lt_of_hexValue {b : UInt8} {n : Nat} (h : hexValue b = some n) : b < 0x80 := by
  simp only [hexValue, isDigit, Bool.and_eq_true, decide_eq_true_eq] at h
  split_ifs at h with hdigit hlower hupper
  · exact UInt8.lt_of_le_of_lt hdigit.2 (by decide)
  · exact UInt8.lt_of_le_of_lt hlower.2 (by decide)
  · exact UInt8.lt_of_le_of_lt hupper.2 (by decide)

/-- A code unit is written in ASCII. -/
theorem lt_of_hexUnit {a b c d : UInt8} {u : Nat} (h : hexUnit a b c d = some u) :
    ∀ x ∈ [a, b, c, d], x < 0x80 := by
  simp only [hexUnit, Option.pure_def, Option.bind_eq_bind, Option.bind_eq_some_iff] at h
  obtain ⟨_, ha, _, hb, _, hc, _, hd, _⟩ := h
  simp [lt_of_hexValue ha, lt_of_hexValue hb, lt_of_hexValue hc, lt_of_hexValue hd]

/-- A short escape is ASCII for ASCII. -/
theorem lt_of_shortEscape {b c : UInt8} (h : shortEscape c = some b) : b < 0x80 ∧ c < 0x80 := by
  unfold shortEscape at h
  split_ifs at h with hself hb hf hn hr ht
  · obtain rfl := Option.some.inj h
    obtain rfl | rfl | rfl := hself <;> decide
  all_goals
    obtain rfl := Option.some.inj h
    subst_vars
    decide

/-- A code point of one byte is ASCII. -/
theorem lt_of_utf8 {u : Nat} {c : UInt8} (h : utf8 u = [c]) : c < 0x80 := by
  unfold utf8 at h
  split_ifs at h with hu
  · obtain rfl := (List.cons.inj h).1
    rw [UInt8.lt_iff_toNat_lt, UInt8.toNat_ofNat']
    exact lt_of_le_of_lt (Nat.mod_le _ _) hu
  all_goals cases h

/-- A surrogate pair is a code point of more than one byte. -/
theorem utf8_pairPoint_ne (u v : Nat) (c : UInt8) : utf8 (pairPoint u v) ≠ [c] := by
  have hlarge : 0x10000 ≤ pairPoint u v := by
    unfold pairPoint
    omega
  have hone : ¬pairPoint u v < 0x80 := by omega
  have htwo : ¬pairPoint u v < 0x800 := by omega
  rw [utf8, if_neg hone, if_neg htwo, if_neg (Nat.not_lt.2 hlarge)]
  intro h
  cases h

/-- A text of a byte from `0x80` on is the byte itself, and a text of an ASCII byte is ASCII. -/
theorem Piece.ascii {c : UInt8} {text : List UInt8} (h : Piece [c] text) :
    (0x80 ≤ c → text = [c]) ∧ (c < 0x80 → ∀ b ∈ text, b < 0x80) := by
  generalize hbytes : [c] = bytes at h
  cases h with
  | raw =>
    obtain rfl := (List.cons.inj hbytes).1
    exact ⟨fun _ => rfl, fun hlow b hb => List.mem_singleton.1 hb ▸ hlow⟩
  | @short mark _ hshort =>
    obtain rfl := (List.cons.inj hbytes).1
    obtain ⟨hlow, hmark⟩ := lt_of_shortEscape hshort
    refine ⟨fun hhigh => absurd hlow (UInt8.not_lt.2 hhigh), fun _ b hb => ?_⟩
    obtain rfl | hb := List.mem_cons.1 hb
    · decide
    · exact List.mem_singleton.1 hb ▸ hmark
  | unit hunit =>
    refine ⟨fun hhigh => absurd (lt_of_utf8 hbytes.symm) (UInt8.not_lt.2 hhigh), fun _ b hb => ?_⟩
    obtain rfl | hb := List.mem_cons.1 hb
    · decide
    obtain rfl | hb := List.mem_cons.1 hb
    · decide
    · exact lt_of_hexUnit hunit b hb
  | pair => exact absurd hbytes.symm (utf8_pairPoint_ne _ _ c)

/-- Texts joined by commas are UTF-8. -/
theorem utf8_intercalate {texts : List (List UInt8)} (h : ∀ text ∈ texts, Utf8 text) :
    Utf8 ([0x2c].intercalate texts) := by
  induction texts with
  | nil => exact .nil
  | cons text texts ih =>
    obtain ⟨htext, htexts⟩ := List.forall_mem_cons.1 h
    cases texts with
    | nil => rwa [List.intercalate_singleton]
    | cons next texts =>
      rw [List.intercalate_cons_cons, List.append_assoc]
      exact htext.append (.one (by decide) (ih htexts))

/-- One of several texts stands in their join. -/
theorem infix_intercalate {text : List UInt8} {texts : List (List UInt8)} (h : text ∈ texts) :
    text <:+: [0x2c].intercalate texts := by
  induction texts with
  | nil => cases h
  | cons first texts ih =>
    cases texts with
    | nil =>
      obtain rfl := List.mem_singleton.1 h
      rw [List.intercalate_singleton]
    | cons next texts =>
      rw [List.intercalate_cons_cons, List.append_assoc]
      rcases List.mem_cons.1 h with rfl | h
      · exact (List.prefix_append _ _).isInfix
      · rw [← List.append_assoc]
        exact (ih h).trans (List.suffix_append _ _).isInfix

/-- Escapes that stand for their bytes and leave UTF-8 alone: ASCII for ASCII bytes, and nothing to
escape in all others. -/
structure KeepsUtf8 (esc : UInt8 → List UInt8) : Prop where
  piece : ∀ c, Piece [c] (esc c)
  low : ∀ b < 0x80, ∀ c ∈ esc b, c < 0x80
  high : ∀ b, 0x80 ≤ b → esc b = [b]

/-- Escapes that stand for their bytes leave UTF-8 alone. -/
theorem keepsUtf8_of_piece (h : ∀ c, Piece [c] (esc c)) : KeepsUtf8 esc :=
  ⟨h, fun b hb => (h b).ascii.2 hb, fun b hb => (h b).ascii.1 hb⟩

/-- Escaping keeps a text what it is. -/
theorem KeepsUtf8.utf8_flatMap_iff (hesc : KeepsUtf8 esc) {s : List UInt8} :
    Utf8 (s.flatMap esc) ↔ Utf8 s := by
  refine Library.utf8_flatMap_iff (fun b hb => ⟨fun hnil => ?_, hesc.low b hb⟩) hesc.high
  obtain ⟨c, tail, htext, -⟩ := (hesc.piece b).starts
  rw [hnil] at htext
  cases htext

/-- A string literal is UTF-8 when its string is. -/
theorem KeepsUtf8.utf8_quote (hesc : KeepsUtf8 esc) {s : List UInt8} (h : Utf8 s) :
    Utf8 (quote esc s) :=
  .one (by decide) ((hesc.utf8_flatMap_iff.2 h).append (.one (by decide) .nil))

/-- A number is ASCII. -/
theorem utf8_of_isNumber {lexeme : List UInt8} (h : isNumber lexeme = true) : Utf8 lexeme := by
  refine utf8_of_lt fun b hb => ?_
  simp only [isNumber, Bool.and_eq_true] at h
  have hbyte := List.all_eq_true.1 h.1.1.1 b hb
  simp only [isNumberByte, isDigit, Bool.or_eq_true, Bool.and_eq_true, decide_eq_true_eq] at hbyte
  grind

/-- **The text of a value is UTF-8 when its strings are.** -/
theorem utf8_write (hesc : KeepsUtf8 esc) (h : Holds Utf8 v) : Utf8 (write esc v) := by
  induction h with
  | null => exact utf8_of_lt (by simp [write])
  | @bool b => cases b <;> exact utf8_of_lt (by simp [write])
  | number h => exact utf8_of_isNumber h
  | str h => exact hesc.utf8_quote h
  | @arr items _ ih =>
    rw [write, writeItems_eq]
    have hitems : ∀ text ∈ items.map (write esc), Utf8 text := by
      intro text htext
      obtain ⟨item, hitem, rfl⟩ := List.mem_map.1 htext
      exact ih item hitem
    exact .one (by decide) ((utf8_intercalate hitems).append (.one (by decide) .nil))
  | @obj members hkeys _ ih =>
    rw [write, writeMembers_eq]
    have hmembers : ∀ text ∈ members.map fun member =>
        quote esc member.1 ++ 0x3a :: write esc member.2, Utf8 text := by
      intro text htext
      obtain ⟨member, hmember, rfl⟩ := List.mem_map.1 htext
      exact (hesc.utf8_quote (hkeys member hmember)).append (.one (by decide) (ih member hmember))
    exact .one (by decide) ((utf8_intercalate hmembers).append (.one (by decide) .nil))

/-- A string that occurs in a value stands in its text as a literal. -/
theorem Occurs.infix_write (esc : UInt8 → List UInt8) {s : List UInt8} (h : Occurs s v) :
    quote esc s <:+: write esc v := by
  have hclosed : ∀ (first last : UInt8) (text : List UInt8), text <:+: first :: text ++ [last] :=
    fun first last text => ⟨[first], [last], rfl⟩
  induction h with
  | str => exact List.infix_rfl
  | arr hitem _ ih =>
    rw [write, writeItems_eq]
    exact ih.trans ((infix_intercalate (List.mem_map_of_mem hitem)).trans (hclosed _ _ _))
  | @obj members member hmember _ ih =>
    rw [write, writeMembers_eq]
    have hvalue : write esc member.2 <:+: quote esc member.1 ++ 0x3a :: write esc member.2 :=
      ⟨quote esc member.1 ++ [0x3a], [], by simp⟩
    have hwritten : quote esc member.1 ++ 0x3a :: write esc member.2 ∈ members.map fun member =>
        quote esc member.1 ++ 0x3a :: write esc member.2 := List.mem_map_of_mem hmember
    exact ih.trans (hvalue.trans ((infix_intercalate hwritten).trans (hclosed _ _ _)))

/-- **The text of a value is UTF-8 only if its strings are.** -/
theorem utf8_of_occurs {s : List UInt8} (hesc : KeepsUtf8 esc) (htext : Utf8 (write esc v))
    (h : Occurs s v) : Utf8 s := by
  obtain ⟨before, after, hsplit⟩ := h.infix_write esc
  have hquotes : before ++ 0x22 :: (s.flatMap esc ++ 0x22 :: after) = write esc v := by
    rw [← hsplit, quote]
    simp
  rw [← hquotes, utf8_append_cons_iff (by decide), utf8_append_cons_iff (by decide)] at htext
  exact hesc.utf8_flatMap_iff.1 htext.2.1

end Jevt.Library.Json
