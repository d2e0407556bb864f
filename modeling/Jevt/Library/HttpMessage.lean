import Jevt.Library.Decimal

/-!
# HTTP/1.1 messages

A message is a start line, a list of fields and a body, written with `\r\n` behind every line and an
empty line in front of the body (`Message.text`). The reader (`readMessage`) cuts the lines up to
the empty one, splits each field at its first colon, drops the blanks around its value, and takes as
many bytes for the body as the one field `Content-Length` says.

A well-formed message is read back from the text in front of anything that follows
(`Message.WellFormed.reads`), and from no part of the text that ends earlier
(`Message.WellFormed.cut`): a reader that has been cut off knows it.
-/

namespace Jevt.Library.Http

/-- A message. -/
structure Message where
  start : List UInt8
  fields : List (List UInt8 × List UInt8)
  body : List UInt8
  deriving DecidableEq

/-! ## Writing -/

/-- The text of a field. -/
def fieldText (field : List UInt8 × List UInt8) : List UInt8 :=
  field.1 ++ 0x3a :: 0x20 :: field.2

/-- Lines, each with its end, and the empty line. -/
def linesText (lines : List (List UInt8)) : List UInt8 :=
  lines.flatMap (· ++ [0x0d, 0x0a]) ++ [0x0d, 0x0a]

/-- The lines of the head of a message. -/
def Message.lines (m : Message) : List (List UInt8) :=
  m.start :: m.fields.map fieldText

/-- The text of a message. -/
def Message.text (m : Message) : List UInt8 :=
  linesText m.lines ++ m.body

/-! ## Reading -/

/-- The lines up to the first empty one, and what follows it. `line` is what has been read of the
line the text begins in. -/
def readLines : List UInt8 → List UInt8 → Option (List (List UInt8) × List UInt8)
  | line, b :: c :: rest =>
    if b = 0x0d ∧ c = 0x0a then
      if line = [] then some ([], rest)
      else (readLines [] rest).map fun read => (line :: read.1, read.2)
    else readLines (line ++ [b]) (c :: rest)
  | _, _ => none

/-- A space or a tab. -/
def isBlank (b : UInt8) : Bool :=
  b = 0x20 || b = 0x09

/-- A text without the blanks around it. -/
def trim (s : List UInt8) : List UInt8 :=
  ((s.dropWhile isBlank).reverse.dropWhile isBlank).reverse

/-- A field, split at its first colon. Nothing stands between its name and the colon. -/
def readField (line : List UInt8) : Option (List UInt8 × List UInt8) :=
  let name := line.takeWhile (· ≠ 0x3a)
  if name = [] ∨ name.any isBlank = true ∨ name = line then none
  else some (name, trim (line.drop (name.length + 1)))

/-- An ASCII letter in lower case. -/
def lowerByte (b : UInt8) : UInt8 :=
  if 0x41 ≤ b ∧ b ≤ 0x5a then b + 0x20 else b

/-- A decimal number. -/
def readDecimal (s : List UInt8) : Option Nat :=
  if s ≠ [] ∧ s.all (fun b => decide (0x30 ≤ b ∧ b ≤ 0x39)) = true then
    some (Nat.ofDigitChars 10 (s.map fun b => Char.ofNat b.toNat) 0)
  else none

/-- The bytes of `content-length`. -/
def contentLengthName : List UInt8 :=
  [0x63, 0x6f, 0x6e, 0x74, 0x65, 0x6e, 0x74, 0x2d, 0x6c, 0x65, 0x6e, 0x67, 0x74, 0x68]

/-- The bytes of `HTTP/1.1` and a space. -/
def version : List UInt8 :=
  [0x48, 0x54, 0x54, 0x50, 0x2f, 0x31, 0x2e, 0x31, 0x20]

/-- The status and the reason of the start line of a response. -/
def readStatus (start : List UInt8) : Option (Nat × List UInt8) :=
  if version <+: start then
    let status := (start.drop 9).takeWhile (· ≠ 0x20)
    (readDecimal status).map fun n => (n, start.drop (9 + status.length + 1))
  else none

/-- The length of the body, from the one field that says it. -/
def contentLength (fields : List (List UInt8 × List UInt8)) : Option Nat :=
  match fields.filter fun field => field.1.map lowerByte = contentLengthName with
  | [field] => readDecimal field.2
  | _ => none

/-- A message, and what follows it. -/
def readMessage (text : List UInt8) : Option (Message × List UInt8) :=
  match readLines [] text with
  | some (start :: lines, rest) => do
    let fields ← lines.mapM readField
    let length ← contentLength fields
    if length ≤ rest.length then
      some ({ start, fields, body := rest.take length }, rest.drop length)
    else none
  | _ => none

/-! ## Lines -/

variable {line text rest : List UInt8} {lines : List (List UInt8)}

/-- A byte other than the first of a line end belongs to the line. -/
theorem readLines_cons {b : UInt8} (hb : b ≠ 0x0d) (line rest : List UInt8) :
    readLines line (b :: rest) = readLines (line ++ [b]) rest := by
  cases rest with
  | nil => rfl
  | cons c rest => rw [readLines, if_neg fun h => hb h.1]

/-- A line is read up to its end. -/
theorem readLines_line (htext : (0x0d : UInt8) ∉ text) :
    readLines line (text ++ 0x0d :: 0x0a :: rest) =
      if line ++ text = [] then some ([], rest)
      else (readLines [] rest).map fun read => ((line ++ text) :: read.1, read.2) := by
  induction text generalizing line with
  | nil => simp [readLines]
  | cons b text ih =>
    obtain ⟨hb, htext'⟩ := not_or.1 (mt List.mem_cons.2 htext)
    rw [List.cons_append, readLines_cons (Ne.symm hb), ih htext', List.append_assoc,
      List.singleton_append]

/-- **Lines are read back**, in front of anything. -/
theorem readLines_linesText (h : ∀ line ∈ lines, line ≠ [] ∧ (0x0d : UInt8) ∉ line) :
    readLines [] (linesText lines ++ rest) = some (lines, rest) := by
  induction lines with
  | nil => rfl
  | cons line lines ih =>
    obtain ⟨⟨hne, hline⟩, hlines⟩ := List.forall_mem_cons.1 h
    have htext : linesText (line :: lines) ++ rest =
        line ++ 0x0d :: 0x0a :: (linesText lines ++ rest) := by
      simp [linesText]
    rw [htext, readLines_line hline, List.nil_append, if_neg hne, ih hlines]
    rfl

/-- What has been read does not depend on what follows. -/
theorem readLines_append {read : List (List UInt8) × List UInt8}
    (h : readLines line text = some read) (more : List UInt8) :
    readLines line (text ++ more) = some (read.1, read.2 ++ more) := by
  fun_induction readLines line text generalizing read with
  | case1 b c rest hend =>
    obtain rfl := Option.some.inj h
    rw [List.cons_append, List.cons_append, readLines, if_pos hend, if_pos rfl]
  | case2 line b c rest hend hne ih =>
    obtain ⟨inner, hinner, rfl⟩ := Option.map_eq_some_iff.1 h
    rw [List.cons_append, List.cons_append, readLines, if_pos hend, if_neg hne, ih hinner]
    rfl
  | case3 line b c rest hend ih =>
    rw [List.cons_append, List.cons_append, readLines, if_neg hend]
    exact ih h
  | case4 => cases h

/-! ## Fields -/

variable {field : List UInt8 × List UInt8} {m : Message}

/-- A field whose text is read back: its name has no colon, blank or line end, and its value no line
end and no blanks around it. -/
structure IsField (field : List UInt8 × List UInt8) : Prop where
  name_ne : field.1 ≠ []
  name : ∀ b ∈ field.1, b ≠ 0x3a ∧ b ≠ 0x0d ∧ isBlank b = false
  value : (0x0d : UInt8) ∉ field.2
  trimmed : trim field.2 = field.2

/-- Whether a field is one. -/
def checkField (field : List UInt8 × List UInt8) : Bool :=
  !field.1.isEmpty && field.1.all (fun b => b != 0x3a && b != 0x0d && !isBlank b) &&
    !field.2.contains 0x0d && trim field.2 == field.2

/-- The check finds out whether a field is one. -/
theorem isField_iff : checkField field = true ↔ IsField field := by
  simp only [checkField, Bool.and_eq_true, Bool.not_eq_true', List.isEmpty_eq_false_iff,
    List.all_eq_true, bne_iff_ne, List.contains_eq_mem, decide_eq_false_iff_not, beq_iff_eq]
  constructor
  · rintro ⟨⟨⟨hne, hname⟩, hvalue⟩, htrim⟩
    exact ⟨hne, fun b hb => ⟨(hname b hb).1.1, (hname b hb).1.2, (hname b hb).2⟩, hvalue, htrim⟩
  · rintro ⟨hne, hname, hvalue, htrim⟩
    exact ⟨⟨⟨hne, fun b hb => ⟨⟨(hname b hb).1, (hname b hb).2.1⟩, (hname b hb).2.2⟩⟩, hvalue⟩,
      htrim⟩

instance (field : List UInt8 × List UInt8) : Decidable (IsField field) :=
  decidable_of_iff (checkField field = true) isField_iff

/-- A field stays one with another value. -/
theorem IsField.of_value {name value value' : List UInt8} (h : IsField (name, value))
    (hvalue : (0x0d : UInt8) ∉ value') (htrim : trim value' = value') : IsField (name, value') :=
  ⟨h.name_ne, h.name, hvalue, htrim⟩

/-- A text without blanks is trimmed. -/
theorem trim_eq_self {s : List UInt8} (h : ∀ b ∈ s, isBlank b = false) : trim s = s := by
  have hkeep : ∀ {t : List UInt8}, (∀ b ∈ t, isBlank b = false) → t.dropWhile isBlank = t := by
    intro t ht
    cases t with
    | nil => rfl
    | cons b t => exact List.dropWhile_cons_of_neg (by simp [ht b List.mem_cons_self])
  rw [trim, hkeep h, hkeep fun b hb => h b (List.mem_reverse.1 hb), List.reverse_reverse]

/-- The name ends at the colon. -/
theorem IsField.takeWhile_eq (h : IsField field) :
    (fieldText field).takeWhile (· ≠ 0x3a) = field.1 := by
  unfold fieldText
  rw [List.takeWhile_append_of_pos fun b hb => decide_eq_true (h.name b hb).1]
  simp

/-- **A field is read back.** -/
theorem IsField.reads (h : IsField field) : readField (fieldText field) = some field := by
  have hblank : field.1.any isBlank = false :=
    List.any_eq_false.2 fun b hb => by simp [(h.name b hb).2.2]
  have hshort : field.1 ≠ fieldText field := fun heq => by
    have hlength := congrArg List.length heq
    simp [fieldText] at hlength
  have hdrop : (fieldText field).drop (field.1.length + 1) = 0x20 :: field.2 := by
    unfold fieldText
    rw [← List.drop_drop, List.drop_left, List.drop_one, List.tail_cons]
  have htrim : trim (0x20 :: field.2) = trim field.2 := by
    rw [trim, trim, List.dropWhile_cons_of_pos (by decide)]
  unfold readField
  simp only [h.takeWhile_eq]
  rw [if_neg, hdrop, htrim, h.trimmed]
  rintro (hnil | hany | heq)
  · exact h.name_ne hnil
  · exact absurd (hblank.symm.trans hany) nofun
  · exact hshort heq

/-- A field is one line. -/
theorem IsField.oneLine (h : IsField field) :
    fieldText field ≠ [] ∧ (0x0d : UInt8) ∉ fieldText field := by
  refine ⟨by simp [fieldText], fun hmem => ?_⟩
  rcases List.mem_append.1 hmem with hname | hvalue
  · exact (h.name _ hname).2.1 rfl
  · simp only [List.mem_cons] at hvalue
    rcases hvalue with hcolon | hspace | hvalue
    · cases hcolon
    · cases hspace
    · exact h.value hvalue

/-- Fields are read back. -/
theorem mapM_readField {fields : List (List UInt8 × List UInt8)}
    (h : ∀ field ∈ fields, IsField field) :
    (fields.map fieldText).mapM readField = some fields := by
  induction fields with
  | nil => rfl
  | cons field fields ih =>
    obtain ⟨hfield, hfields⟩ := List.forall_mem_cons.1 h
    rw [List.map_cons, List.mapM_cons, hfield.reads, ih hfields]
    rfl

/-- A numeral is read back. -/
theorem readDecimal_decimal (n : Nat) : readDecimal (decimal n) = some n := by
  have hne : decimal n ≠ [] := by simp [decimal]
  have hall : (decimal n).all (fun b => decide (0x30 ≤ b ∧ b ≤ 0x39)) = true :=
    List.all_eq_true.2 fun b hb => decide_eq_true (isDigit_of_mem_decimal hb)
  rw [readDecimal, if_pos ⟨hne, hall⟩, map_decimal]
  simp

/-- A digit is neither a blank nor the end of a line. -/
theorem plain_of_mem_decimal {n : Nat} {b : UInt8} (h : b ∈ decimal n) :
    b ≠ 0x0d ∧ isBlank b = false := by
  obtain ⟨hlow, -⟩ := isDigit_of_mem_decimal h
  have hne : ∀ c : UInt8, c < 0x30 → b ≠ c := fun c hc heq =>
    absurd (heq ▸ hlow) (UInt8.not_le.2 hc)
  refine ⟨hne _ (by decide), ?_⟩
  simp [isBlank, hne 0x20 (by decide), hne 0x09 (by decide)]

/-- A numeral is the value of a field. -/
theorem IsField.decimal {name value : List UInt8} (h : IsField (name, value)) (n : Nat) :
    IsField (name, decimal n) :=
  h.of_value (fun hmem => (plain_of_mem_decimal hmem).1 rfl)
    (trim_eq_self fun _ hb => (plain_of_mem_decimal hb).2)

/-- The start line of a response is read back. -/
theorem readStatus_start (n : Nat) (reason : List UInt8) :
    readStatus (version ++ Library.decimal n ++ 0x20 :: reason) = some (n, reason) := by
  have hspace : ∀ b ∈ Library.decimal n, b ≠ 0x20 := fun b hb heq => by
    have hblank := (plain_of_mem_decimal hb).2
    rw [heq] at hblank
    cases hblank
  have hdrop : (version ++ Library.decimal n ++ 0x20 :: reason).drop 9 =
      Library.decimal n ++ 0x20 :: reason := by
    rw [List.append_assoc]
    rfl
  have htake : (Library.decimal n ++ 0x20 :: reason).takeWhile (· ≠ 0x20) = Library.decimal n := by
    rw [List.takeWhile_append_of_pos fun b hb => decide_eq_true (hspace b hb)]
    simp
  unfold readStatus
  rw [if_pos (by rw [List.append_assoc]; exact List.prefix_append _ _)]
  simp only [hdrop, htake, readDecimal_decimal, Option.map_some]
  rw [Nat.add_assoc, ← List.drop_drop, hdrop, ← List.drop_drop, List.drop_left, List.drop_one,
    List.tail_cons]

/-- A byte in lower case stays as it is. -/
theorem lowerByte_lowerByte (b : UInt8) : lowerByte (lowerByte b) = lowerByte b := by
  by_cases hb : 0x41 ≤ b ∧ b ≤ 0x5a
  · have hlower : lowerByte b = b + 0x20 := if_pos hb
    rw [hlower, lowerByte, if_neg]
    rintro ⟨-, hhigh⟩
    obtain ⟨hlow, hle⟩ := hb
    rw [UInt8.le_iff_toNat_le] at hlow hle hhigh
    rw [UInt8.toNat_add] at hhigh
    simp only [UInt8.reduceToNat] at hlow hle hhigh
    omega
  · have hlower : lowerByte b = b := if_neg hb
    rw [hlower, hlower]

/-! ## Messages -/

/-- A message whose text is read back: its lines are lines, and one field says how long its body
is. -/
structure Message.WellFormed (m : Message) : Prop where
  start_ne : m.start ≠ []
  start : (0x0d : UInt8) ∉ m.start
  fields : ∀ field ∈ m.fields, IsField field
  length : contentLength m.fields = some m.body.length

/-- The lines of a message are read back. -/
theorem Message.WellFormed.readLines (h : m.WellFormed) (rest : List UInt8) :
    readLines [] (linesText m.lines ++ rest) = some (m.lines, rest) := by
  refine readLines_linesText fun line hline => ?_
  rcases List.mem_cons.1 hline with rfl | hline
  · exact ⟨h.start_ne, h.start⟩
  · obtain ⟨field, hfield, rfl⟩ := List.mem_map.1 hline
    exact (h.fields field hfield).oneLine

/-- **A message is read back** in front of anything that follows it. -/
theorem Message.WellFormed.reads (h : m.WellFormed) (more : List UInt8) :
    readMessage (m.text ++ more) = some (m, more) := by
  have hlines := h.readLines (m.body ++ more)
  rw [← List.append_assoc] at hlines
  unfold readMessage Message.text
  rw [hlines, Message.lines]
  simp [mapM_readField h.fields, h.length]

/-- **A message that has been cut off is never taken for a whole one.** -/
theorem Message.WellFormed.cut (h : m.WellFormed) {part : List UInt8} (hpart : part <+: m.text)
    (hne : part ≠ m.text) : readMessage part = none := by
  obtain ⟨more, hmore⟩ := hpart
  have hnil : more ≠ [] := fun hnil => hne (by rw [← hmore, hnil, List.append_nil])
  unfold readMessage
  cases hread : Http.readLines [] part with
  | none => rfl
  | some read =>
    -- the lines are those of the message, and the body is what is missing
    have hall := readLines_append hread more
    rw [hmore, Message.text, h.readLines] at hall
    obtain ⟨hlines, hbody⟩ := Prod.mk.inj (Option.some.inj hall)
    obtain ⟨lines, rest⟩ := read
    dsimp only at hlines hbody
    subst hlines
    have hshort : ¬m.body.length ≤ rest.length := by
      have hpos := List.length_pos_iff.2 hnil
      rw [hbody, List.length_append]
      omega
    simp [Message.lines, mapM_readField h.fields, h.length, hshort]

end Jevt.Library.Http
