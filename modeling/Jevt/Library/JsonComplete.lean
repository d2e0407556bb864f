import Jevt.Library.Joined
import Jevt.Library.Json

/-!
# The JSON decoder reads every text of the grammar

Each reader is shown to take exactly the text of its own construct off the front of its input,
whatever follows (`Reads`). Two things leave their mark on the statement: a number ends only where
no further byte can belong to it, so what follows must not start with such a byte (`Stops`), and a
padded value leaves the white space after it to the reader that comes next, so the remainder is
fixed up to leading white space only. The result is `decode_eq_of_denotes`.
-/

namespace Jevt.Library.Json

variable {s t w rest : List UInt8} {v : Json}

/-! ## White space and strings -/

/-- Skipping passes over white space put in front. -/
theorem skipSpace_append (hw : Space w) (s : List UInt8) : skipSpace (w ++ s) = skipSpace s :=
  List.dropWhile_append_of_pos hw

/-- Skipping stops at a byte that is not white space. -/
theorem skipSpace_cons {b : UInt8} (h : isSpace b = false) : skipSpace (b :: s) = b :: s :=
  List.dropWhile_cons_of_neg (by simp [h])

/-- Where skipping stops inside a text, it stops there whatever comes after the text. -/
theorem skipSpace_append_right {b : UInt8} {tail : List UInt8} (h : skipSpace s = b :: tail)
    (t : List UInt8) : skipSpace (s ++ t) = b :: tail ++ t := by
  unfold skipSpace at h ⊢
  rw [List.dropWhile_append, h]
  rfl

/-- A text without quotes, backslashes and control bytes stands for itself. -/
theorem StringText.raw (h : ∀ b ∈ s, b ≠ 0x22 ∧ b ≠ 0x5c ∧ 0x20 ≤ b) : StringText s s := by
  induction s with
  | nil => exact .nil
  | cons b s ih =>
    obtain ⟨hquote, hslash, hcontrol⟩ := h b List.mem_cons_self
    exact .cons (.raw hquote hslash hcontrol) (ih fun c hc => h c (List.mem_cons_of_mem _ hc))

/-- A string literal holds the text it is written for. -/
theorem stringText_flatMap {esc : UInt8 → List UInt8} (hesc : ∀ c, Piece [c] (esc c))
    (s : List UInt8) : StringText s (s.flatMap esc) := by
  induction s with
  | nil => exact .nil
  | cons c s ih => exact .cons (hesc c) ih

/-- A character is read off the front. -/
theorem readPiece_of_piece {bytes text : List UInt8} (h : Piece bytes text) (rest : List UInt8) :
    readPiece (text ++ rest) = some (bytes, rest) := by
  cases h with
  | raw hquote hslash hcontrol =>
    simp [readPiece, hslash, UInt8.not_lt.2 hcontrol]
  | short h =>
    have hu : ∀ {c b : UInt8}, shortEscape c = some b → c ≠ 0x75 := by
      rintro c b hc rfl
      simp [shortEscape] at hc
    simp [readPiece, hu h, h]
  | unit h hhigh hlow => simp [readPiece, readUnicode, h, hhigh, hlow]
  | pair h hhigh h' hlow => simp [readPiece, readUnicode, h, hhigh, h', hlow]

/-- A character does not start like the end of its string. -/
theorem Piece.starts {bytes text : List UInt8} (h : Piece bytes text) :
    ∃ b tail, text = b :: tail ∧ b ≠ 0x22 := by
  cases h with
  | raw hquote _ _ => exact ⟨_, _, rfl, hquote⟩
  | short _ | unit _ _ _ | pair _ _ _ _ => exact ⟨_, _, rfl, by decide⟩

/-- A string literal is read off the front, up to and with its closing quote. -/
theorem readString_of_text (h : StringText s t) :
    ∀ {n : Nat}, t.length < n → readString n (t ++ 0x22 :: rest) = some (s, rest) := by
  induction h with
  | nil =>
    intro n hn
    obtain ⟨n, rfl⟩ := Nat.exists_eq_succ_of_ne_zero (Nat.ne_zero_of_lt hn)
    simp [readString]
  | @cons bytes text s t hd tl ih =>
    intro n hn
    obtain ⟨n, rfl⟩ := Nat.exists_eq_succ_of_ne_zero (Nat.ne_zero_of_lt hn)
    obtain ⟨b, tail, rfl, hb⟩ := hd.starts
    have hpiece := readPiece_of_piece hd (t ++ 0x22 :: rest)
    have hrest := ih (n := n) (by
      rw [List.cons_append, List.length_cons, List.length_append] at hn
      omega)
    rw [List.cons_append] at hpiece
    rw [List.append_assoc, List.cons_append]
    simp [readString, hb, hpiece, hrest]

/-! ## Values -/

/-- What may follow a number: nothing that could belong to it. -/
def Stops (s : List UInt8) : Prop :=
  ∀ b ∈ s.head?, isNumberByte b = false

/-- `read` takes the text `t` off the front of its input as `a`. -/
def Reads {α : Type} (read : List UInt8 → Option (α × List UInt8)) (a : α) (t : List UInt8) :
    Prop :=
  ∀ s, Stops s → ∃ r, read (t ++ s) = some (a, r) ∧ skipSpace r = skipSpace s

/-- White space may precede a value. -/
theorem readValue_append (hw : Space w) (n : Nat) (s : List UInt8) :
    readValue n (w ++ s) = readValue n s := by
  cases n with
  | zero => rfl
  | succ n => simp only [readValue, skipSpace_append hw]

/-- White space may follow a value that stops. -/
theorem Stops.append (hw : Space w) (hs : Stops s) : Stops (w ++ s) := by
  cases w with
  | nil => exact hs
  | cons b w =>
    intro c hc
    obtain rfl : b = c := by simpa using hc
    have hspace := hw b List.mem_cons_self
    revert hspace
    simp only [isSpace, isNumberByte, isDigit]
    intro hspace
    rcases (by simpa [or_assoc] using hspace : b = 0x20 ∨ b = 0x09 ∨ b = 0x0a ∨ b = 0x0d) with
      rfl | rfl | rfl | rfl <;> rfl

/-- Every text of a joined list is shorter than the join. -/
theorem length_le_intercalate {sep : List UInt8} :
    ∀ {ts : List (List UInt8)}, t ∈ ts → t.length ≤ (sep.intercalate ts).length
  | [x], h => by
      obtain rfl := List.mem_singleton.1 h
      simp [List.intercalate]
  | x :: y :: ts, h => by
      have hjoin : sep.intercalate (x :: y :: ts) = x ++ sep ++ sep.intercalate (y :: ts) := by
        simp [List.intercalate]
      rw [hjoin, List.length_append, List.length_append]
      rcases List.mem_cons.1 h with rfl | h
      · omega
      · have hrest : t.length ≤ (sep.intercalate (y :: ts)).length := length_le_intercalate h
        omega

/-- Joining with a comma writes a comma between any two texts. -/
theorem length_le_length_intercalate (b : UInt8) :
    ∀ ts : List (List UInt8), ts.length ≤ ([b].intercalate ts).length + 1
  | [] => Nat.zero_le _
  | [_] => by simp
  | x :: y :: ts => by
      have hjoin : [b].intercalate (x :: y :: ts) = x ++ b :: [b].intercalate (y :: ts) := by
        simp [List.intercalate]
      have := length_le_length_intercalate b (y :: ts)
      rw [hjoin, List.length_append, List.length_cons (a := x), List.length_cons (a := b)]
      omega

section Sequence

variable {α : Type} {read : List UInt8 → Option (α × List UInt8)} {close : UInt8}

/-- A sequence ends at the byte that closes it. -/
theorem readSequence_close {a : α} {r : List UInt8} (n : Nat) (hread : read s = some (a, r))
    (hr : skipSpace r = close :: rest) :
    readSequence read close (n + 1) s = some ([a], rest) := by
  simp [readSequence, hread, hr]

/-- A sequence goes on after a comma. -/
theorem readSequence_comma {a : α} {as : List α} {r t : List UInt8} {n : Nat}
    (hcomma : close ≠ 0x2c) (hread : read s = some (a, r)) (hr : skipSpace r = 0x2c :: t)
    (hrest : readSequence read close n t = some (as, rest)) :
    readSequence read close (n + 1) s = some (a :: as, rest) := by
  simp [readSequence, hread, hr, hcomma.symm, hrest]

/-- A sequence of items that are read one by one is read as a whole. -/
theorem readSequence_of_items (hspace : isSpace close = false) (hstop : isNumberByte close = false)
    (hcomma : close ≠ 0x2c) :
    ∀ {items : List (α × List UInt8)}, items ≠ [] → (∀ i ∈ items, Reads read i.1 i.2) →
      ∀ {n : Nat}, items.length ≤ n →
        readSequence read close n
          ([0x2c].intercalate (items.map Prod.snd) ++ close :: rest) =
        some (items.map Prod.fst, rest)
  | [i], _, h, n, hn => by
      obtain ⟨n, rfl⟩ := Nat.exists_eq_succ_of_ne_zero (Nat.ne_zero_of_lt hn)
      obtain ⟨r, hread, hr⟩ := h i List.mem_cons_self (close :: rest) (by simpa [Stops])
      rw [skipSpace_cons hspace] at hr
      have hjoin : [0x2c].intercalate ([i].map Prod.snd) = i.2 := by simp [List.intercalate]
      rw [hjoin]
      exact readSequence_close n hread hr
  | i :: j :: items, _, h, n, hn => by
      obtain ⟨n, rfl⟩ := Nat.exists_eq_succ_of_ne_zero (Nat.ne_zero_of_lt hn)
      have hjoin : [0x2c].intercalate ((i :: j :: items).map Prod.snd) ++ close :: rest =
          i.2 ++ 0x2c :: ([0x2c].intercalate ((j :: items).map Prod.snd) ++ close :: rest) := by
        simp [List.intercalate]
      obtain ⟨r, hread, hr⟩ := h i List.mem_cons_self
        (0x2c :: ([0x2c].intercalate ((j :: items).map Prod.snd) ++ close :: rest))
        (by simp [Stops, isNumberByte, isDigit])
      rw [skipSpace_cons (by decide)] at hr
      have hrest := readSequence_of_items hspace hstop hcomma (List.cons_ne_nil j items)
        (fun i hi => h i (List.mem_cons_of_mem _ hi)) (Nat.le_of_succ_le_succ hn)
      rw [hjoin]
      exact readSequence_comma hcomma hread hr hrest

/-- A bracketed sequence of items is read as a whole, if its first item does not start like the
closing byte. -/
theorem readBracketed_of_items (hspace : isSpace close = false)
    (hstop : isNumberByte close = false) (hcomma : close ≠ 0x2c) {items : List (α × List UInt8)}
    (hne : items ≠ []) (h : ∀ i ∈ items, Reads read i.1 i.2)
    (hfirst : ∀ i ∈ items, ∃ b tail, skipSpace i.2 = b :: tail ∧ b ≠ close) :
    readBracketed read close ([0x2c].intercalate (items.map Prod.snd) ++ close :: rest) =
      some (items.map Prod.fst, rest) := by
  have hhead : (skipSpace ([0x2c].intercalate (items.map Prod.snd) ++ close :: rest)).head? ≠
      some close := by
    obtain ⟨i, items, rfl⟩ := List.exists_cons_of_ne_nil hne
    obtain ⟨b, tail, hi, hb⟩ := hfirst i List.mem_cons_self
    obtain ⟨more, hmore⟩ : ∃ more, [0x2c].intercalate ((i :: items).map Prod.snd) ++ close :: rest =
        i.2 ++ more := by
      cases items with
      | nil => exact ⟨close :: rest, by simp [List.intercalate]⟩
      | cons j items => exact ⟨_, by simp [List.intercalate]; rfl⟩
    rw [hmore, skipSpace_append_right hi]
    simpa using hb
  rw [readBracketed, if_neg hhead]
  refine readSequence_of_items hspace hstop hcomma hne h ?_
  have := length_le_length_intercalate 0x2c (items.map Prod.snd)
  rw [List.length_map] at this
  rw [List.length_append, List.length_cons]
  omega

/-- An empty bracketed sequence is read. -/
theorem readBracketed_of_space (hw : Space w) (hspace : isSpace close = false) :
    readBracketed read close (w ++ close :: rest) = some ([], rest) := by
  simp [readBracketed, skipSpace_append hw, skipSpace_cons hspace]

end Sequence

/-- A member is read when its value is. -/
theorem reads_member {read : List UInt8 → Option (Json × List UInt8)} {m : Member}
    (hm : m.WellFormed) (h : Reads read m.value m.text) :
    Reads (readMember read) (m.key, m.value) m.render := by
  intro s hs
  obtain ⟨r, hread, hr⟩ := h s hs
  refine ⟨r, ?_, hr⟩
  have hrender : m.render ++ s =
      m.before ++ 0x22 :: (m.keyText ++ 0x22 :: (m.after ++ 0x3a :: (m.text ++ s))) := by
    simp [Member.render]
  have hkey : readString (m.keyText ++ 0x22 :: (m.after ++ 0x3a :: (m.text ++ s))).length
      (m.keyText ++ 0x22 :: (m.after ++ 0x3a :: (m.text ++ s))) =
      some (m.key, m.after ++ 0x3a :: (m.text ++ s)) :=
    readString_of_text hm.key (by rw [List.length_append, List.length_cons]; omega)
  rw [hrender, readMember, skipSpace_append hm.before, skipSpace_cons (by decide)]
  simp only [if_true, hkey, Option.bind_eq_bind, Option.bind_some, skipSpace_append hm.after,
    skipSpace_cons (show isSpace 0x3a = false by decide), hread]

/-- A number is read as far as it goes. -/
theorem readNumber_of_isNumber (h : isNumber t = true) (hs : Stops s) :
    readNumber (t ++ s) = some (.number t, s) := by
  have hall : ∀ b ∈ t, isNumberByte b = true := by
    simp only [isNumber, Bool.and_eq_true] at h
    exact List.all_eq_true.1 h.1.1.1
  obtain ⟨htake, hdrop⟩ := span_append hall hs
  rw [readNumber, htake, hdrop, if_pos h]

/-- A number starts with a byte of a number. -/
theorem starts_of_isNumber (h : isNumber t = true) : ∃ b tail, t = b :: tail ∧
    isNumberByte b = true := by
  cases t with
  | nil => simp [isNumber] at h
  | cons b tail =>
    simp only [isNumber, Bool.and_eq_true] at h
    exact ⟨b, tail, rfl, List.all_eq_true.1 h.1.1.1 b List.mem_cons_self⟩

/-- A byte of a number is none of the bytes the decoder looks for first. -/
theorem isNumberByte_ne {b : UInt8} (h : isNumberByte b = true) :
    isSpace b = false ∧ b ≠ 0x22 ∧ b ≠ 0x5b ∧ b ≠ 0x7b ∧ b ≠ 0x5d := by
  have hne : ∀ c, isNumberByte c = false → b ≠ c := by
    rintro c hc rfl
    rw [hc] at h
    cases h
  refine ⟨?_, hne _ rfl, hne _ rfl, hne _ rfl, hne _ rfl⟩
  simp [isSpace, hne 0x20 rfl, hne 0x09 rfl, hne 0x0a rfl, hne 0x0d rfl]

/-- No value starts like the end of an array. -/
theorem Denotes.starts (h : Denotes v t) : ∃ b tail, skipSpace t = b :: tail ∧ b ≠ 0x5d := by
  induction h with
  | null | true | false => exact ⟨_, _, rfl, by decide⟩
  | number h =>
    obtain ⟨b, tail, rfl, hb⟩ := starts_of_isNumber h
    obtain ⟨hspace, -, -, -, hclose⟩ := isNumberByte_ne hb
    exact ⟨b, tail, skipSpace_cons hspace, hclose⟩
  | str _ | emptyArr _ | arr _ _ _ | emptyObj _ | obj _ _ _ _ =>
    exact ⟨_, _, skipSpace_cons (by decide), by decide⟩
  | @pad v w t w' hw h hw' ih =>
    obtain ⟨b, tail, ht, hb⟩ := ih
    refine ⟨b, tail ++ w', ?_, hb⟩
    rw [List.append_assoc, skipSpace_append hw, skipSpace_append_right ht]
    rfl

/-- The text of a member starts with the quote of its key. -/
theorem Member.WellFormed.starts {m : Member} (hm : m.WellFormed) :
    ∃ b tail, skipSpace m.render = b :: tail ∧ b ≠ 0x7d := by
  refine ⟨0x22, m.keyText ++ 0x22 :: m.after ++ 0x3a :: m.text, ?_, by decide⟩
  rw [Member.render, List.append_assoc, List.append_assoc, skipSpace_append hm.before,
    List.cons_append, skipSpace_cons (by decide), List.append_assoc]

/-- A quote starts a string. -/
theorem readValue_quote (n : Nat) (s : List UInt8) :
    readValue (n + 1) (0x22 :: s) = (readString s.length s).map fun r => (.str r.1, r.2) := rfl

/-- A square bracket starts an array. -/
theorem readValue_bracket (n : Nat) (s : List UInt8) :
    readValue (n + 1) (0x5b :: s) =
      (readBracketed (readValue n) 0x5d s).map fun r => (.arr r.1, r.2) := rfl

/-- A brace starts an object. -/
theorem readValue_brace (n : Nat) (s : List UInt8) :
    readValue (n + 1) (0x7b :: s) =
      (readBracketed (readMember (readValue n)) 0x7d s).map fun r => (.obj r.1, r.2) := rfl

/-- The value of a member is shorter than the member. -/
theorem Member.length_text_le (m : Member) : m.text.length ≤ m.render.length := by
  rw [Member.render, List.length_append, List.length_cons]
  omega

/-- **The decoder reads every text of the grammar.** -/
theorem reads_of_denotes (h : Denotes v t) :
    ∀ {n : Nat}, t.length ≤ n → Reads (readValue (n + 1)) v t := by
  induction h with
  | null | true | false =>
    intro n _ s _
    exact ⟨s, rfl, rfl⟩
  | number h =>
    intro n _ s hs
    obtain ⟨b, tail, rfl, hb⟩ := starts_of_isNumber h
    obtain ⟨hspace, hquote, harr, hobj, -⟩ := isNumberByte_ne hb
    refine ⟨s, ?_, rfl⟩
    have hread := readNumber_of_isNumber h hs
    rw [List.cons_append] at hread ⊢
    simp only [readValue, skipSpace_cons hspace, if_neg hquote, if_neg harr, if_neg hobj, if_pos hb,
      hread]
  | @str bytes t h =>
    intro n _ s _
    refine ⟨s, ?_, rfl⟩
    have hread : readString (t ++ 0x22 :: s).length (t ++ 0x22 :: s) = some (bytes, s) :=
      readString_of_text h (by rw [List.length_append, List.length_cons]; omega)
    rw [List.cons_append, List.cons_append, List.append_assoc, List.singleton_append,
      readValue_quote, hread, Option.map_some]
  | emptyArr hw =>
    intro n _ s _
    refine ⟨s, ?_, rfl⟩
    rw [List.cons_append, List.cons_append, List.append_assoc, List.singleton_append,
      readValue_bracket, readBracketed_of_space hw (by decide), Option.map_some]
  | @arr items hne h ih =>
    intro n hn s _
    refine ⟨s, ?_, rfl⟩
    rw [List.cons_append, List.length_cons, List.length_append] at hn
    obtain ⟨n, rfl⟩ := Nat.exists_eq_succ_of_ne_zero (Nat.ne_zero_of_lt hn)
    have hitems : ∀ i ∈ items, Reads (readValue (n + 1)) i.1 i.2 := fun i hi => by
      have hle : i.2.length ≤ ([0x2c].intercalate (items.map Prod.snd)).length :=
        length_le_intercalate (List.mem_map_of_mem hi)
      exact ih i hi (by omega)
    rw [List.cons_append, List.cons_append, List.append_assoc, List.singleton_append,
      readValue_bracket, readBracketed_of_items (by decide) (by decide) (by decide) hne hitems
        (fun i hi => (h i hi).starts), Option.map_some]
  | emptyObj hw =>
    intro n _ s _
    refine ⟨s, ?_, rfl⟩
    rw [List.cons_append, List.cons_append, List.append_assoc, List.singleton_append,
      readValue_brace, readBracketed_of_space hw (by decide), Option.map_some]
  | @obj members hne hkeys _ ih =>
    intro n hn s _
    refine ⟨s, ?_, rfl⟩
    rw [List.cons_append, List.length_cons, List.length_append] at hn
    obtain ⟨n, rfl⟩ := Nat.exists_eq_succ_of_ne_zero (Nat.ne_zero_of_lt hn)
    set items := members.map fun m => ((m.key, m.value), m.render) with hitems
    have htexts : members.map Member.render = items.map Prod.snd := by simp [hitems]
    have hvalues : members.map (fun m => (m.key, m.value)) = items.map Prod.fst := by simp [hitems]
    have hreads : ∀ i ∈ items, Reads (readMember (readValue (n + 1))) i.1 i.2 := by
      intro i hi
      obtain ⟨m, hm, rfl⟩ := List.mem_map.1 hi
      have hle : m.render.length ≤ ([0x2c].intercalate (members.map Member.render)).length :=
        length_le_intercalate (List.mem_map_of_mem hm)
      have htext := m.length_text_le
      exact reads_member (hkeys m hm) (ih m hm (by omega))
    have hfirst : ∀ i ∈ items, ∃ b tail, skipSpace i.2 = b :: tail ∧ b ≠ 0x7d := by
      intro i hi
      obtain ⟨m, hm, rfl⟩ := List.mem_map.1 hi
      exact (hkeys m hm).starts
    rw [List.cons_append, List.cons_append, List.append_assoc, List.singleton_append,
      readValue_brace, htexts, hvalues, readBracketed_of_items (by decide) (by decide) (by decide)
        (by simpa [hitems] using hne) hreads hfirst, Option.map_some]
  | @pad v w t w' hw h hw' ih =>
    intro n hn s hs
    rw [List.length_append, List.length_append] at hn
    obtain ⟨r, hread, hr⟩ := ih (n := n) (by omega) (w' ++ s) (hs.append hw')
    refine ⟨r, ?_, by rw [hr, skipSpace_append hw']⟩
    rw [List.append_assoc, List.append_assoc, readValue_append hw, hread]

/-- Decoding a text of the grammar gives the value it denotes. -/
theorem decode_eq_of_denotes (h : Denotes v t) : decode t = some v := by
  obtain ⟨r, hread, hr⟩ := reads_of_denotes h (Nat.le_refl _) [] (by simp [Stops])
  rw [List.append_nil] at hread
  rw [decode, hread]
  exact if_pos hr

end Jevt.Library.Json
