import Jevt.Library.Joined
import Jevt.Library.Regex
import Jevt.Text

/-!
# Searching a configuration with regular expressions

The ONNX adapter does not parse `rl_agent_config.json`: it searches the text of the file for a name
in quotes, a colon and a value (`numberText`, `temperatureText`). A name goes into the expression as
it is, so that the `+` of `11+` is a quantifier (`pattern`).

A search goes through the tokens of a JSON text without escapes and skips those that are not the
name (`search_skip`). The expression for a number takes all of a numeral (`Numeral.Proper.leads`).
-/

namespace Jevt

open Library

/-! ## Searching a text -/

/-- `[0-9]`. -/
def isDigit (b : UInt8) : Bool :=
  decide (0x30 ≤ b) && decide (b ≤ 0x39)

/-- `\s`. -/
def isSpace (b : UInt8) : Bool :=
  decide (b = 0x20) || (decide (0x09 ≤ b) && decide (b ≤ 0x0d))

/-- The expression that a character stands for. -/
def literal (b : UInt8) : Regex UInt8 :=
  .char (decide <| · = b)

/-- The expression that a name is when it is put into an expression, for names without other special
characters than `+`. -/
def pattern : Bytes → Regex UInt8
  | [] => .empty
  | b :: 0x2b :: rest => .seq (.plus (decide <| · = b)) (pattern rest)
  | b :: rest => .seq (literal b) (pattern rest)

/-- A name in quotes and what follows it. -/
def quoted (name : Bytes) (tail : Regex UInt8) : Regex UInt8 :=
  .seq (literal 0x22) (.seq (pattern name) (.seq (literal 0x22) tail))

/-- `\s*:\s*`. -/
def colon : Regex UInt8 :=
  .seq (.many isSpace) (.seq (literal 0x3a) (.many isSpace))

/-- `\.[0-9]+`. -/
def fractionRegex : Regex UInt8 :=
  .seq (literal 0x2e) (.plus isDigit)

/-- `[eE][+-]?[0-9]+`. -/
def exponentRegex : Regex UInt8 :=
  .seq (.char fun b => decide (b = 0x65) || decide (b = 0x45))
    (.seq (.opt (.char fun b => decide (b = 0x2b) || decide (b = 0x2d))) (.plus isDigit))

/-- `-?[0-9]+(?:\.[0-9]+)?(?:[eE][+-]?[0-9]+)?`. -/
def numberRegex : Regex UInt8 :=
  .seq (.opt (literal 0x2d)) (.seq (.plus isDigit)
    (.seq (.opt fractionRegex) (.opt exponentRegex)))

/-- The names for which the ONNX adapter searches a number. -/
def bucketNames : List Bytes :=
  [lit "choice:", lit "noul:"].flatMap fun start =>
    [lit "2", lit "3-5", lit "6-10", lit "11+"].map (start ++ ·)

/-- The match of `json_number`. -/
def numberText (text name : Bytes) : Option Bytes :=
  search (captureAt (quoted name colon) numberRegex .empty) text

/-- The match of `json_temperatures`. -/
def temperatureText (text : Bytes) : Option Bytes :=
  search (captureAt (quoted (lit "temperature") (.seq colon (literal 0x5b)))
    (.plus fun b => decide (b ≠ 0x5d)) (literal 0x5d)) text

/-! ## Tokens -/

/-- The exponent of a numeral: its letter, its sign and its digits. -/
structure Exponent where
  letter : UInt8
  sign : Option UInt8 := none
  digits : Bytes
  deriving DecidableEq

/-- The text of an exponent. -/
def Exponent.text (exponent : Exponent) : Bytes :=
  exponent.letter :: (exponent.sign.toList ++ exponent.digits)

/-- A numeral without a sign: its digits, those of its fraction, and its exponent. -/
structure Numeral where
  whole : Bytes
  fraction : Option Bytes := none
  exponent : Option Exponent := none
  deriving DecidableEq

/-- The text of a fraction and its point. -/
def Numeral.fractionText (numeral : Numeral) : Bytes :=
  numeral.fraction.elim [] (0x2e :: ·)

/-- The text of an exponent, if there is one. -/
def Numeral.exponentText (numeral : Numeral) : Bytes :=
  numeral.exponent.elim [] Exponent.text

/-- The text of a numeral. -/
def Numeral.text (numeral : Numeral) : Bytes :=
  numeral.whole ++ (numeral.fractionText ++ numeral.exponentText)

/-- A token of a JSON text without escapes: a mark, a text in quotes, or anything else. -/
inductive Token where
  | mark (b : UInt8)
  | quoted (text : Bytes)
  | word (text : Bytes)

/-- The bytes of a token. -/
def Token.text : Token → Bytes
  | mark b => [b]
  | quoted text => 0x22 :: text ++ [0x22]
  | word text => text

/-- A token behind white space. -/
abbrev Spaced := Bytes × Token

/-- The text of some tokens. -/
def render (tokens : List Spaced) : Bytes :=
  tokens.flatMap fun token => token.1 ++ token.2.text

/-- The text of tokens one after another. -/
theorem render_append (tokens rest : List Spaced) :
    render (tokens ++ rest) = render tokens ++ render rest :=
  List.flatMap_append

/-- The text of tokens starts with the white space in front of the first. -/
theorem render_cons (gap : Bytes) (token : Token) (rest : List Spaced) :
    render ((gap, token) :: rest) = gap ++ (token.text ++ render rest) := by
  rw [render, List.flatMap_cons, List.append_assoc]
  rfl

/-! ## Numerals -/

/-- Digits, at least one. -/
def Digits (digits : Bytes) : Prop :=
  digits ≠ [] ∧ ∀ b ∈ digits, isDigit b = true

/-- An exponent as JSON has it. -/
structure Exponent.Proper (exponent : Exponent) : Prop where
  letter : exponent.letter = 0x65 ∨ exponent.letter = 0x45
  sign : ∀ sign ∈ exponent.sign, sign = 0x2b ∨ sign = 0x2d
  digits : Digits exponent.digits

/-- A numeral as JSON has it, leading zeros not excluded. -/
structure Numeral.Proper (numeral : Numeral) : Prop where
  whole : Digits numeral.whole
  fraction : ∀ digits ∈ numeral.fraction, Digits digits
  exponent : ∀ exponent ∈ numeral.exponent, exponent.Proper

/-- A byte that ends a numeral. -/
def EndsNumeral (b : UInt8) : Prop :=
  isDigit b = false ∧ b ≠ 0x2e ∧ b ≠ 0x65 ∧ b ≠ 0x45

/-- A character is matched as it is. -/
theorem leads_literal (b : UInt8) (rest : Bytes) : (literal b).Leads (b :: rest) rest := by
  refine Regex.leads_char ?_ rest
  exact decide_eq_true rfl

/-- A digit is no other byte. -/
theorem ne_of_isDigit {b c : UInt8} (hb : isDigit b = true) (hc : isDigit c = false) : b ≠ c := by
  rintro rfl
  rw [hb] at hc
  cases hc

/-- A digit is not white space. -/
theorem isSpace_of_isDigit {b : UInt8} (h : isDigit b = true) : isSpace b = false := by
  rw [isSpace, Bool.or_eq_false_iff, Bool.and_eq_false_iff]
  refine ⟨decide_eq_false (ne_of_isDigit h (by decide)), .inr (decide_eq_false fun hle => ?_)⟩
  rw [isDigit, Bool.and_eq_true] at h
  have hbounds : (0x30 : UInt8) ≤ 0x0d := UInt8.le_trans (of_decide_eq_true h.1) hle
  exact absurd hbounds (by decide)

/-- Digits start with a digit. -/
theorem Digits.head? {digits : Bytes} (h : Digits digits) {rest : Bytes} {b : UInt8}
    (hb : b ∈ (digits ++ rest).head?) : isDigit b = true := by
  obtain ⟨first, digits, rfl⟩ := List.exists_cons_of_ne_nil h.1
  obtain rfl := Option.some.inj hb
  exact h.2 first (.head _)

/-- A numeral is made of digits, a point, the letter of an exponent, and its sign. -/
theorem Numeral.Proper.mem {numeral : Numeral} (h : numeral.Proper) {b : UInt8}
    (hb : b ∈ numeral.text) : isDigit b = true ∨ b ∈ [0x2e, 0x65, 0x45, 0x2b, 0x2d] := by
  obtain ⟨whole, fraction, exponent⟩ := numeral
  obtain ⟨hwhole, hfraction, hexponent⟩ := h
  rw [Numeral.text, List.mem_append, List.mem_append] at hb
  rcases hb with hb | hb | hb
  · exact .inl (hwhole.2 b hb)
  · cases fraction with
    | none => cases hb
    | some digits =>
      rcases List.mem_cons.1 hb with rfl | hb
      · exact .inr (by decide)
      · exact .inl ((hfraction digits rfl).2 b hb)
  · cases exponent with
    | none => cases hb
    | some exponent =>
      obtain ⟨hletter, hsign, hdigits⟩ := hexponent exponent rfl
      rcases List.mem_cons.1 hb with rfl | hb
      · rcases hletter with hletter | hletter <;> rw [hletter] <;> exact .inr (by decide)
      · rcases List.mem_append.1 hb with hb | hb
        · rcases hsign b (Option.mem_toList.1 hb) with rfl | rfl <;> exact .inr (by decide)
        · exact .inl (hdigits.2 b hb)

/-- A numeral has no other byte. -/
theorem Numeral.Proper.not_mem {numeral : Numeral} (h : numeral.Proper) {b : UInt8}
    (hdigit : isDigit b = false) (hb : b ∉ [0x2e, 0x65, 0x45, 0x2b, 0x2d]) : b ∉ numeral.text := by
  intro hmem
  rcases h.mem hmem with hmem | hmem
  · exact absurd (hmem.symm.trans hdigit) (by decide)
  · exact hb hmem

/-- An expression for one byte does not match at the digits of a numeral. -/
theorem Digits.run_char {p : UInt8 → Bool} (hp : ∀ b, isDigit b = true → p b = false)
    {digits : Bytes} (h : Digits digits) (rest : Bytes) :
    (Regex.char p).run (digits ++ rest) = [] :=
  Regex.run_char_eq_nil fun b hb => hp b (h.head? hb)

/-- The expression for an exponent takes all of it. -/
theorem Exponent.Proper.leads {exponent : Exponent} (h : exponent.Proper) {rest : Bytes}
    (hrest : ∀ b ∈ rest.head?, isDigit b = false) :
    exponentRegex.Leads (exponent.text ++ rest) rest := by
  obtain ⟨letter, sign, digits⟩ := exponent
  obtain ⟨hletter, hsign, hdigits⟩ := h
  dsimp only at hletter hsign hdigits
  have hdigit := Regex.leads_plus hdigits.1 hdigits.2 hrest
  rw [Exponent.text, List.cons_append, List.append_assoc]
  dsimp only
  refine .seq (Regex.leads_char (by rcases hletter with rfl | rfl <;> decide) _) ?_
  cases sign with
  | none =>
    refine .seq (Regex.leads_opt_of_nil (hdigits.run_char (fun b hb => ?_) rest)) hdigit
    rw [Bool.or_eq_false_iff]
    exact ⟨decide_eq_false (ne_of_isDigit hb (by decide)),
      decide_eq_false (ne_of_isDigit hb (by decide))⟩
  | some sign =>
    refine .seq (Regex.Leads.opt (Regex.leads_char ?_ _)) hdigit
    rcases hsign sign rfl with rfl | rfl <;> decide

section Proper

variable {numeral : Numeral} (h : numeral.Proper) {rest : Bytes}

include h

/-- A numeral starts with a digit. -/
theorem Numeral.Proper.head? {b : UInt8} (hb : b ∈ (numeral.text ++ rest).head?) :
    isDigit b = true := by
  rw [Numeral.text, List.append_assoc] at hb
  exact h.whole.head? hb

variable (hrest : ∀ b ∈ rest.head?, EndsNumeral b)

include hrest

/-- What follows the fraction of a numeral does not go on with it. -/
theorem Numeral.Proper.head?_exponent :
    ∀ b ∈ (numeral.exponentText ++ rest).head?, isDigit b = false ∧ b ≠ 0x2e := by
  rw [Numeral.exponentText]
  cases hexponent : numeral.exponent with
  | none => exact fun b hb => ⟨(hrest b hb).1, (hrest b hb).2.1⟩
  | some exponent =>
    intro b hb
    obtain rfl : exponent.letter = b := Option.some.inj hb
    rcases (h.exponent exponent hexponent).letter with hletter | hletter <;> rw [hletter] <;> decide

/-- What follows the digits of a numeral does not go on with them. -/
theorem Numeral.Proper.head?_fraction :
    ∀ b ∈ (numeral.fractionText ++ (numeral.exponentText ++ rest)).head?, isDigit b = false := by
  rw [Numeral.fractionText]
  cases numeral.fraction with
  | none => exact fun b hb => (h.head?_exponent hrest b hb).1
  | some digits =>
    intro b hb
    obtain rfl : 0x2e = b := Option.some.inj hb
    decide

/-- The expression for an exponent that may be missing takes it. -/
theorem Numeral.Proper.leads_exponent :
    (Regex.opt exponentRegex).Leads (numeral.exponentText ++ rest) rest := by
  rw [Numeral.exponentText]
  cases hexponent : numeral.exponent with
  | none =>
    refine Regex.leads_opt_of_nil (Regex.run_seq_eq_nil (Regex.run_char_eq_nil fun b hb => ?_) _)
    rw [Bool.or_eq_false_iff]
    exact ⟨decide_eq_false (hrest b hb).2.2.1, decide_eq_false (hrest b hb).2.2.2⟩
  | some exponent => exact .opt ((h.exponent exponent hexponent).leads fun b hb => (hrest b hb).1)

/-- The expression for a fraction that may be missing takes it. -/
theorem Numeral.Proper.leads_fraction :
    (Regex.opt fractionRegex).Leads (numeral.fractionText ++ (numeral.exponentText ++ rest))
      (numeral.exponentText ++ rest) := by
  have hbehind := h.head?_exponent hrest
  rw [Numeral.fractionText]
  cases hfraction : numeral.fraction with
  | none =>
    exact Regex.leads_opt_of_nil (Regex.run_seq_eq_nil (Regex.run_char_eq_nil fun b hb =>
      decide_eq_false (hbehind b hb).2) _)
  | some digits =>
    obtain ⟨hne, hdigits⟩ := h.fraction digits hfraction
    exact .opt (.seq (leads_literal 0x2e _)
      (Regex.leads_plus hne hdigits fun b hb => (hbehind b hb).1))

/-- **The expression for a number takes all of a numeral.** -/
theorem Numeral.Proper.leads : numberRegex.Leads (numeral.text ++ rest) rest := by
  rw [Numeral.text, List.append_assoc, List.append_assoc]
  have hunsigned : (literal 0x2d).run
      (numeral.whole ++ (numeral.fractionText ++ (numeral.exponentText ++ rest))) = [] :=
    h.whole.run_char (fun b hb => decide_eq_false (ne_of_isDigit hb (by decide))) _
  exact .seq (Regex.leads_opt_of_nil hunsigned)
    (.seq (Regex.leads_plus h.whole.1 h.whole.2 (h.head?_fraction hrest))
      (.seq (h.leads_fraction hrest) (h.leads_exponent hrest)))

end Proper

/-! ## Names -/

/-- A character that no `+` follows stands for itself. -/
theorem pattern_cons {b : UInt8} {rest : Bytes} (h : rest.head? ≠ some 0x2b) :
    pattern (b :: rest) = .seq (literal b) (pattern rest) := by
  cases rest with
  | nil => rfl
  | cons c rest =>
    have hc : c ≠ 0x2b := fun heq => h (congrArg some heq)
    rw [pattern]
    rintro rest' heq
    exact hc (List.cons.inj heq).1

/-- A text without a byte does not start with it. -/
theorem head?_ne_of_not_mem {b : UInt8} {l : Bytes} (h : b ∉ l) : l.head? ≠ some b := fun heq =>
  h (List.mem_of_head? heq)

/-- The start of a name without a `+` stands for itself. -/
theorem accepts_pattern_append {u v w : Bytes} (hu : 0x2b ∉ u) (hv : v.head? ≠ some 0x2b) :
    (pattern (u ++ v)).Accepts w ↔ ∃ w', w = u ++ w' ∧ (pattern v).Accepts w' := by
  induction u generalizing w with
  | nil =>
    constructor
    · exact fun h => ⟨w, rfl, h⟩
    · rintro ⟨w', rfl, h⟩
      exact h
  | cons b u ih =>
    have hnext : (u ++ v).head? ≠ some 0x2b := by
      cases u with
      | nil => exact hv
      | cons c u => exact fun heq => hu (.tail _ (Option.some.inj heq ▸ .head _))
    rw [List.cons_append, pattern_cons hnext]
    constructor
    · rintro ⟨first, rest, rfl, ⟨c, rfl, hc⟩, hrest⟩
      obtain ⟨w', rfl, hw'⟩ := (ih fun hmem => hu (.tail _ hmem)).1 hrest
      obtain rfl : c = b := of_decide_eq_true hc
      exact ⟨w', rfl, hw'⟩
    · rintro ⟨w', rfl, hw'⟩
      exact ⟨[b], u ++ w', rfl, ⟨b, rfl, decide_eq_true rfl⟩,
        (ih fun hmem => hu (.tail _ hmem)).2 ⟨w', rfl, hw'⟩⟩

/-- A name without a `+` stands for itself. -/
theorem accepts_pattern_iff {name w : Bytes} (h : 0x2b ∉ name) :
    (pattern name).Accepts w ↔ w = name := by
  have happend := accepts_pattern_append (v := []) (w := w) h (by decide)
  rw [List.append_nil] at happend
  rw [happend]
  constructor
  · rintro ⟨w', rfl, hw'⟩
    obtain rfl : w' = [] := hw'
    exact List.append_nil name
  · rintro rfl
    exact ⟨[], (List.append_nil w).symm, rfl⟩

/-- A name without a `+` is matched as it is. -/
theorem leads_pattern {name : Bytes} (h : 0x2b ∉ name) (rest : Bytes) :
    (pattern name).Leads (name ++ rest) rest := by
  induction name with
  | nil => rfl
  | cons b name ih =>
    have hname : 0x2b ∉ name := fun hmem => h (.tail _ hmem)
    rw [pattern_cons (head?_ne_of_not_mem hname), List.cons_append]
    exact .seq (leads_literal b _) (ih hname)

/-- A name stands for texts of its own bytes only. -/
theorem mem_of_accepts_pattern {name w : Bytes} (h : (pattern name).Accepts w) :
    ∀ b ∈ w, b ∈ name := by
  induction name using pattern.induct generalizing w with
  | case1 =>
    obtain rfl : w = [] := h
    exact fun _ hb => nomatch hb
  | case2 b rest ih =>
    rw [pattern] at h
    obtain ⟨first, last, rfl, ⟨one, more, rfl, ⟨c, rfl, hc⟩, hmore⟩, hlast⟩ := h
    obtain rfl : c = b := of_decide_eq_true hc
    intro d hd
    rcases List.mem_append.1 hd with hd | hd
    · rcases List.mem_append.1 hd with hd | hd
      · exact List.mem_singleton.1 hd ▸ .head _
      · exact of_decide_eq_true (hmore d hd) ▸ .head _
    · exact .tail _ (.tail _ (ih hlast d hd))
  | case3 b rest hnext ih =>
    rw [pattern] at h
    · obtain ⟨first, last, rfl, ⟨c, rfl, hc⟩, hlast⟩ := h
      obtain rfl : c = b := of_decide_eq_true hc
      intro d hd
      rcases List.mem_append.1 hd with hd | hd
      · exact List.mem_singleton.1 hd ▸ .head _
      · exact .tail _ (ih hlast d hd)
    · exact hnext

/-- A name in quotes is matched as it is. -/
theorem leads_quoted {name : Bytes} (h : 0x2b ∉ name) {tail : Regex UInt8} {l m : Bytes}
    (htail : tail.Leads l m) : (quoted name tail).Leads (0x22 :: (name ++ 0x22 :: l)) m :=
  .seq (leads_literal 0x22 _) (.seq (leads_pattern h _) (.seq (leads_literal 0x22 _) htail))

/-! ## Searching tokens -/

/-- White space of JSON. -/
def isGap (b : UInt8) : Bool :=
  decide (b = 0x20) || decide (b = 0x09) || decide (b = 0x0a) || decide (b = 0x0d)

/-- A text of white space only. -/
def Gap (text : Bytes) : Prop :=
  ∀ b ∈ text, isGap b = true

/-- White space of JSON is white space of an expression. -/
theorem Gap.isSpace {text : Bytes} (h : Gap text) : ∀ b ∈ text, isSpace b = true := by
  intro b hb
  have hgap := h b hb
  simp only [isGap, Bool.or_eq_true, decide_eq_true_eq] at hgap
  rcases hgap with ((rfl | rfl) | rfl) | rfl <;> decide

/-- A colon is matched with all white space around it. -/
theorem leads_colon {before after rest : Bytes} (hbefore : Gap before) (hafter : Gap after)
    (hrest : ∀ b ∈ rest.head?, Jevt.isSpace b = false) :
    colon.Leads (before ++ 0x3a :: (after ++ rest)) rest := by
  refine .seq (Regex.leads_many hbefore.isSpace ?_) (.seq (leads_literal 0x3a _)
    (Regex.leads_many hafter.isSpace hrest))
  intro b hb
  obtain rfl := Option.some.inj hb
  decide

/-- A mark of JSON. -/
def isMark (b : UInt8) : Bool :=
  decide (b ∈ [0x5b, 0x5d, 0x7b, 0x7d, 0x2c, 0x3a])

/-- A name that is searched for: it starts like no mark and has no quote. -/
def isSought (name : Bytes) : Bool :=
  decide (0x22 ∉ name) && match name with
    | [] => false
    | b :: rest =>
      decide (b ≠ 0x2b) && decide (rest.head? ≠ some 0x2b) && !isGap b && !isMark b

/-- A token that ends where it seems to end. -/
structure Plain (token : Spaced) : Prop where
  gap : Gap token.1
  text : match token.2 with
    | .mark b => isMark b = true
    | .quoted text => 0x22 ∉ text
    | .word text => 0x22 ∉ text

/-- Every text in quotes is followed by a mark. -/
def Followed : List Spaced → Prop
  | [] => True
  | (_, .quoted _) :: rest => (∃ gap b more, rest = (gap, .mark b) :: more) ∧ Followed rest
  | _ :: rest => Followed rest

/-- The text of a token, if it is in quotes. -/
def Spaced.quotedText : Spaced → Option Bytes
  | (_, .quoted text) => some text
  | _ => none

/-- The texts in quotes. -/
def quotedTexts (tokens : List Spaced) : List Bytes :=
  tokens.filterMap Spaced.quotedText

section Search

variable {name : Bytes} {tail group after : Regex UInt8}

/-- A text that does not start with a name in quotes is not matched. -/
theorem run_quoted_eq_nil {l : Bytes}
    (h : ∀ w rest, l = 0x22 :: (w ++ 0x22 :: rest) → ¬(pattern name).Accepts w) :
    (quoted name tail).run l = [] := by
  refine Regex.run_eq_nil_iff.2 ?_
  rintro x m rfl ⟨first, x, rfl, ⟨b, rfl, hb⟩, w, x, rfl, hw, last, x, rfl, ⟨c, rfl, hc⟩, -⟩
  obtain rfl : b = 0x22 := of_decide_eq_true hb
  obtain rfl : c = 0x22 := of_decide_eq_true hc
  refine h w (x ++ m) ?_ hw
  simp only [List.append_assoc, List.cons_append, List.nil_append]

/-- A byte that is not a quote does not start a match. -/
theorem captureAt_of_ne {b : UInt8} (hb : b ≠ 0x22) (l : Bytes) :
    captureAt (quoted name tail) group after (b :: l) = none :=
  captureAt_eq_none (run_quoted_eq_nil fun _ _ heq => absurd (List.cons.inj heq).1 hb)

/-- Bytes without a quote are skipped. -/
theorem search_of_no_quote {w : Bytes} (hw : 0x22 ∉ w) (rest : Bytes) :
    search (captureAt (quoted name tail) group after) (w ++ rest) =
      search (captureAt (quoted name tail) group after) rest :=
  search_append (fun _ hb => captureAt_of_ne fun heq => hw (heq ▸ hb)) rest

/-- A name that is searched for matches texts with its first byte only. -/
theorem head?_of_accepts (hname : isSought name = true) {w : Bytes}
    (hw : (pattern name).Accepts w) :
    0x22 ∉ w ∧ ∃ b ∈ w.head?, isGap b = false ∧ isMark b = false := by
  cases name with
  | nil => cases hname
  | cons b rest =>
    simp only [isSought, Bool.and_eq_true, decide_eq_true_eq, Bool.not_eq_true'] at hname
    obtain ⟨hquote, ⟨⟨hplus, hrest⟩, hgap⟩, hmark⟩ := hname
    refine ⟨fun hmem => hquote (mem_of_accepts_pattern hw _ hmem), ?_⟩
    have happend := accepts_pattern_append (u := [b]) (v := rest) (w := w)
      (fun hmem => hplus (List.mem_singleton.1 hmem).symm) hrest
    obtain ⟨w', rfl, -⟩ := happend.1 hw
    exact ⟨b, rfl, hgap, hmark⟩

/-- A quote does not stand in white space. -/
theorem quote_not_mem_gap {gap : Bytes} (h : Gap gap) : 0x22 ∉ gap := fun hmem =>
  absurd (h _ hmem) (by decide)

/-- White space with a mark behind it starts with neither a name nor a quote. -/
theorem head?_gap_mark {gap rest : Bytes} {b c : UInt8} (hgap : Gap gap)
    (hb : isMark b = true) (hc : c ∈ (gap ++ b :: rest).head?) :
    isGap c = true ∨ isMark c = true := by
  cases gap with
  | nil =>
    obtain rfl : b = c := Option.some.inj hc
    exact .inr hb
  | cons d gap =>
    obtain rfl : d = c := Option.some.inj hc
    exact .inl (hgap d (.head _))

/-- White space and marks end a numeral. -/
theorem endsNumeral_of_gap_mark {b : UInt8} (h : isGap b = true ∨ isMark b = true) :
    EndsNumeral b := by
  rcases h with h | h
  · simp only [isGap, Bool.or_eq_true, decide_eq_true_eq] at h
    rcases h with ((rfl | rfl) | rfl) | rfl <;> exact ⟨rfl, by decide, by decide, by decide⟩
  · simp only [isMark, decide_eq_true_eq, List.mem_cons, List.not_mem_nil, or_false] at h
    rcases h with rfl | rfl | rfl | rfl | rfl | rfl <;>
      exact ⟨rfl, by decide, by decide, by decide⟩

/-- A text in quotes that is not the name is skipped. -/
theorem search_quoted (hname : isSought name = true) {text rest : Bytes} (htext : 0x22 ∉ text)
    (hother : ¬(pattern name).Accepts text)
    (hrest : ∀ c ∈ rest.head?, isGap c = true ∨ isMark c = true) :
    search (captureAt (quoted name tail) group after) (0x22 :: (text ++ 0x22 :: rest)) =
      search (captureAt (quoted name tail) group after) rest := by
  have hopen :
      captureAt (quoted name tail) group after (0x22 :: (text ++ 0x22 :: rest)) = none := by
    refine captureAt_eq_none (run_quoted_eq_nil fun w more heq hw => hother ?_)
    obtain ⟨rfl, -⟩ := append_sep_inj htext (head?_of_accepts hname hw).1 (List.cons.inj heq).2
    exact hw
  have hclose : captureAt (quoted name tail) group after (0x22 :: rest) = none := by
    refine captureAt_eq_none (run_quoted_eq_nil fun w more heq hw => ?_)
    obtain ⟨-, b, hb, hgap, hmark⟩ := head?_of_accepts hname hw
    obtain rfl := (List.cons.inj heq).2
    have hhead : b ∈ (w ++ 0x22 :: more).head? := by
      rw [List.head?_append, hb]
      rfl
    rcases hrest b hhead with h | h
    · exact absurd (h.symm.trans hgap) (by decide)
    · exact absurd (h.symm.trans hmark) (by decide)
  rw [search_cons_of_none hopen, search_of_no_quote htext, search_cons_of_none hclose]

variable (tail group after) in
/-- **A search skips tokens without the name.** -/
theorem search_skip (hname : isSought name = true) {pre rest : List Spaced} {trailing : Bytes}
    (hplain : ∀ token ∈ pre ++ rest, Plain token) (hfollowed : Followed (pre ++ rest))
    (hother : ∀ text ∈ quotedTexts pre, ¬(pattern name).Accepts text) :
    search (captureAt (quoted name tail) group after) (render (pre ++ rest) ++ trailing) =
      search (captureAt (quoted name tail) group after) (render rest ++ trailing) := by
  induction pre with
  | nil => rfl
  | cons token pre ih =>
    obtain ⟨gap, token⟩ := token
    obtain ⟨htoken, hplain'⟩ := List.forall_mem_cons.1 hplain
    have hgap := quote_not_mem_gap htoken.gap
    have hrender : render ((gap, token) :: pre ++ rest) ++ trailing =
        gap ++ (token.text ++ (render (pre ++ rest) ++ trailing)) := by
      rw [List.cons_append, render_cons, List.append_assoc, List.append_assoc]
    rw [hrender, search_of_no_quote hgap]
    cases token with
    | mark b =>
      have hb : 0x22 ∉ [b] := by
        intro hmem
        have hmark : isMark b = true := htoken.text
        rw [← List.mem_singleton.1 hmem] at hmark
        exact absurd hmark (by decide)
      rw [Token.text, search_of_no_quote hb, ih hplain' hfollowed hother]
    | word text =>
      have htext : 0x22 ∉ text := htoken.text
      rw [Token.text, search_of_no_quote htext, ih hplain' hfollowed hother]
    | quoted text =>
      obtain ⟨⟨gap', b, more, hmore⟩, hfollowed'⟩ := hfollowed
      have htexts : quotedTexts ((gap, .quoted text) :: pre) = text :: quotedTexts pre := rfl
      rw [htexts] at hother
      obtain ⟨hfirst, hother'⟩ := List.forall_mem_cons.1 hother
      have htext : Token.text (.quoted text) ++ (render (pre ++ rest) ++ trailing) =
          0x22 :: (text ++ 0x22 :: (render (pre ++ rest) ++ trailing)) := by
        simp only [Token.text, List.cons_append, List.append_assoc, List.nil_append]
      have hmark : Plain (gap', .mark b) := hplain' _ (hmore ▸ .head _)
      rw [htext, search_quoted hname htoken.text hfirst, ih hplain' hfollowed' hother']
      have hnext : pre ++ rest = (gap', .mark b) :: more := hmore
      rw [hnext]
      have hafter : render ((gap', .mark b) :: more) ++ trailing =
          gap' ++ b :: (render more ++ trailing) := by
        simp only [render_cons, Token.text, List.append_assoc, List.cons_append, List.nil_append]
      rw [hafter]
      exact fun c hc => head?_gap_mark hmark.gap hmark.text hc

/-- **A search finds a numeral under a name.** -/
theorem search_number (hplus : 0x2b ∉ name) {before beforeColon beforeNumeral rest : Bytes}
    (hbefore : Gap before) (hcolon : Gap beforeColon) (hgap : Gap beforeNumeral)
    {numeral : Numeral} (hnumeral : numeral.Proper) (hrest : ∀ b ∈ rest.head?, EndsNumeral b) :
    search (captureAt (quoted name colon) numberRegex .empty)
      (before ++ 0x22 :: (name ++ 0x22 :: (beforeColon ++ 0x3a ::
        (beforeNumeral ++ (numeral.text ++ rest))))) = some numeral.text := by
  rw [search_of_no_quote (quote_not_mem_gap hbefore)]
  have hdigit : ∀ b ∈ (numeral.text ++ rest).head?, isSpace b = false := fun b hb =>
    isSpace_of_isDigit (hnumeral.head? hb)
  refine search_of_eq_some (captureAt_of_leads
    (leads_quoted hplus (leads_colon hcolon hgap hdigit)) (hnumeral.leads hrest) ?_)
  exact List.cons_ne_nil _ _

/-- **A search finds what is in brackets under a name.** -/
theorem search_brackets (hplus : 0x2b ∉ name) {before beforeColon beforeValue body rest : Bytes}
    (hbefore : Gap before) (hcolon : Gap beforeColon) (hvalue : Gap beforeValue) (hne : body ≠ [])
    (hbody : 0x5d ∉ body) :
    search (captureAt (quoted name (.seq colon (literal 0x5b)))
        (.plus fun b => decide (b ≠ 0x5d)) (literal 0x5d))
      (before ++ 0x22 :: (name ++ 0x22 :: (beforeColon ++ 0x3a ::
        (beforeValue ++ 0x5b :: (body ++ 0x5d :: rest))))) = some body := by
  rw [search_of_no_quote (quote_not_mem_gap hbefore)]
  have hopen : ∀ b ∈ (0x5b :: (body ++ 0x5d :: rest)).head?, isSpace b = false := by
    intro b hb
    obtain rfl := Option.some.inj hb
    decide
  refine search_of_eq_some (captureAt_of_leads (n := 0x5d :: rest)
    (leads_quoted hplus (.seq (leads_colon hcolon hvalue hopen) (leads_literal 0x5b _)))
    (Regex.leads_plus hne (fun b hb => ?_) ?_) ?_)
  · have hb' : b ≠ 0x5d := fun heq => hbody (heq ▸ hb)
    exact decide_eq_true hb'
  · intro b hb
    obtain rfl := Option.some.inj hb
    decide
  · rw [literal, Regex.run, if_pos (decide_eq_true rfl)]
    exact List.cons_ne_nil _ _

/-- A search without the name finds nothing. -/
theorem search_eq_none (hname : isSought name = true) {tokens : List Spaced} {trailing : Bytes}
    (hplain : ∀ token ∈ tokens, Plain token) (hfollowed : Followed tokens)
    (hother : ∀ text ∈ quotedTexts tokens, ¬(pattern name).Accepts text)
    (htrailing : Gap trailing) :
    search (captureAt (quoted name tail) group after) (render tokens ++ trailing) = none := by
  have hskip : search (captureAt (quoted name tail) group after)
      (render (tokens ++ []) ++ trailing) = _ :=
    search_skip tail group after hname (by rwa [List.append_nil]) (by rwa [List.append_nil]) hother
  have hend : search (captureAt (quoted name tail) group after) (trailing ++ []) = _ :=
    search_of_no_quote (quote_not_mem_gap htrailing) []
  rw [List.append_nil] at hskip hend
  rw [hskip, render, List.flatMap_nil, List.nil_append, hend]
  exact captureAt_eq_none (run_quoted_eq_nil fun _ _ heq => nomatch heq)

end Search

end Jevt
