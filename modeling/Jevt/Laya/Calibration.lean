import Jevt.Laya.Config
import Jevt.Laya.Packing
import Jevt.Library.Traverse
import Mathlib.Algebra.Order.Field.Basic
import Mathlib.Algebra.Order.Ring.Rat

/-!
# Calibration

The temperatures that the two adapters read from one `rl_agent_config.json`. The constructor of the
ONNX adapter searches the text of the file (`onnxCalibration`), that of the native adapter goes
through the members that its JSON library found in it (`nativeCalibration`); `number` is what that
library has as a `float` for a numeral.

The ONNX adapter searches for no name of a score, and what it searches for in place of `11+` is not
in the file. Otherwise a row gets the same temperature from both, the one the file has for it, as
far as both read its numbers alike (`calibrate_alike_iff`).
-/

namespace Jevt

open Library

/-! ## Numerals as numbers -/

/-- The number that digits stand for. -/
def digitsValue (digits : Bytes) : Nat :=
  digits.foldl (fun value b => 10 * value + (b.toNat - 0x30)) 0

namespace Numeral

/-- The exponent of a numeral. -/
def power (numeral : Numeral) : Int :=
  match numeral.exponent with
  | none => 0
  | some exponent =>
    if exponent.sign = some 0x2d then -digitsValue exponent.digits else digitsValue exponent.digits

/-- The number that a numeral stands for. -/
def value (numeral : Numeral) : ℚ :=
  let fraction := numeral.fraction.getD []
  digitsValue (numeral.whole ++ fraction) * 10 ^ (numeral.power - fraction.length)

end Numeral

/-! ## `std::stof` -/

/-- An exponent, if there is one. -/
def scanExponent : Bytes → Option Exponent
  | [] => none
  | letter :: rest =>
    if letter = 0x65 ∨ letter = 0x45 then
      let sign := rest.head?.filter fun b => decide (b = 0x2b ∨ b = 0x2d)
      let digits := (rest.drop sign.toList.length).takeWhile isDigit
      if digits = [] then none else some ⟨letter, sign, digits⟩
    else none

/-- A numeral, of which the digits before or behind the point may be missing. -/
def scanNumeral (text : Bytes) : Option Numeral :=
  let whole := text.takeWhile isDigit
  let rest := text.dropWhile isDigit
  if rest.head? = some 0x2e then
    let fraction := rest.tail.takeWhile isDigit
    if whole = [] ∧ fraction = [] then none
    else some ⟨whole, some fraction, scanExponent (rest.tail.dropWhile isDigit)⟩
  else if whole = [] then none
  else some ⟨whole, none, scanExponent rest⟩

/-- The number at the start of a text, behind white space and a sign. -/
def scanNumber (text : Bytes) : Option ℚ :=
  let text := text.dropWhile isSpace
  if text.head? = some 0x2d then (scanNumeral text.tail).map fun numeral => -numeral.value
  else if text.head? = some 0x2b then (scanNumeral text.tail).map Numeral.value
  else (scanNumeral text).map Numeral.value

/-- `FLT_MIN`. -/
def fltMin : ℚ := 2 ^ (-126 : Int)

/-- Whether a number is in the range of `float` when it is rounded to a value: it does not overflow,
and where it underflows the value is exact. -/
def inRange (value : ℚ) : Floating → Bool
  | .finite rounded => decide (fltMin ≤ |rounded|) || decide (rounded = value)
  | _ => false

namespace Arithmetic

/-- `std::stof`, for decimal numbers. -/
def stof (arithmetic : Arithmetic) (text : Bytes) : Except StdException Floating :=
  match scanNumber text with
  | none => .error (.invalidArgument (lit "stof"))
  | some value =>
    if inRange value (arithmetic.float value) then .ok (arithmetic.float value)
    else .error (.outOfRange (lit "stof"))

end Arithmetic

/-! ## The two constructors -/

/-- What the constructor of an adapter reads of the temperatures. -/
structure Calibration where
  temperatures : Fin 3 → Floating
  bucketTemperatures : List (Bytes × Floating)

/-- A bundle with temperatures. -/
def LayaBundle.calibrated (bundle : LayaBundle) (calibration : Calibration) : LayaBundle :=
  { bundle with
    temperatures := calibration.temperatures
    bucketTemperatures := calibration.bucketTemperatures }

/-- The lines that `std::getline` reads up to a delimiter. -/
def getlines (delimiter : UInt8) (text : Bytes) : List Bytes :=
  let lines := text.splitOn delimiter
  if lines.getLast? = some [] then lines.dropLast else lines

namespace Arithmetic

variable (arithmetic : Arithmetic)

/-- `json_temperatures`. -/
def jsonTemperatures (text : Bytes) : Except StdException (Fin 3 → Floating) :=
  match temperatureText text with
  | none => .ok fun _ => .finite 1
  | some items => do
    let values ← ((getlines 0x2c items).take 3).mapM arithmetic.stof
    .ok fun i => values.getD i (.finite 1)

/-- `json_number`. -/
def jsonNumber (text name : Bytes) : Except StdException (Option Floating) :=
  match numberText text name with
  | none => .ok none
  | some number => (arithmetic.stof number).map some

/-- The temperatures that the constructor of the ONNX adapter reads from a text, behind its searches
for `max_len` and `head_max_len`. -/
def onnxCalibration (text : Bytes) : Except StdException Calibration := do
  let temperatures ← arithmetic.jsonTemperatures text
  let entries ← bucketNames.mapM fun name => do
    let value ← arithmetic.jsonNumber text name
    .ok (value.map (name, ·))
  .ok ⟨temperatures, entries.filterMap id⟩

end Arithmetic

/-- `validate_temperature`. -/
def validateTemperature (value : Floating) : Except StdException Floating :=
  if !value.isFinite || value.le .zero then
    .error (.invalidArgument (lit "native temperature must be finite and positive"))
  else .ok value

section Native

variable (number : Numeral → Floating)

/-- The `temperature` of the native adapter. -/
def nativeTemperatures : Option ConfigField → Except StdException (Fin 3 → Floating)
  | none => .ok fun _ => .finite 1
  | some (.temperature numerals) =>
    if numerals.length ≠ 3 then
      .error (.invalidArgument (lit "native temperature must contain three values"))
    else do
      let values ← numerals.mapM fun item => validateTemperature (number item.numeral)
      .ok fun i => values.getD i (.finite 1)
  | some _ => .error (.invalidArgument (lit "native temperature must contain three values"))

/-- The `temperature_by_options` of the native adapter. -/
def nativeEntries : Option ConfigField → Except StdException (List (Bytes × Floating))
  | none => .ok []
  | some (.byOptions entries _) => entries.mapM fun entry => do
    let value ← validateTemperature (number entry.numeral)
    .ok (entry.name, value)
  | some _ => .error (.invalidArgument (lit "native temperature_by_options must be an object"))

/-- What the constructor of the native adapter reads from a configuration. -/
def nativeCalibration (config : AgentConfig) : Except StdException Calibration := do
  let temperatures ← nativeTemperatures number (config.value? (lit "temperature"))
  let entries ← nativeEntries number (config.value? (lit "temperature_by_options"))
  .ok ⟨temperatures, entries⟩

end Native

/-! ## Reading a numeral -/

/-- Where no letter stands there is no exponent. -/
theorem scanExponent_eq_none {rest : Bytes} (h : ∀ b ∈ rest.head?, b ≠ 0x65 ∧ b ≠ 0x45) :
    scanExponent rest = none := by
  cases rest with
  | nil => rfl
  | cons b rest =>
    obtain ⟨hlower, hupper⟩ := h b rfl
    rw [scanExponent, if_neg (not_or.2 ⟨hlower, hupper⟩)]

/-- An exponent is read back. -/
theorem Exponent.Proper.scanExponent {exponent : Exponent} (h : exponent.Proper) {rest : Bytes}
    (hrest : ∀ b ∈ rest.head?, isDigit b = false) :
    Jevt.scanExponent (exponent.text ++ rest) = some exponent := by
  obtain ⟨letter, sign, digits⟩ := exponent
  obtain ⟨hletter, hsign, hdigits⟩ := h
  dsimp only at hletter hsign hdigits
  have hspan := (span_append hdigits.2 hrest).1
  have hread : ((sign.toList ++ digits ++ rest).head?.filter fun b =>
      decide (b = 0x2b ∨ b = 0x2d)) = sign := by
    cases sign with
    | none =>
      refine Option.filter_eq_none_iff.2 fun b hb => ?_
      have hdigit := hdigits.head? hb
      rw [decide_eq_true_eq, not_or]
      exact ⟨ne_of_isDigit hdigit (by decide), ne_of_isDigit hdigit (by decide)⟩
    | some sign => exact Option.filter_some_pos (decide_eq_true (hsign sign rfl))
  have hdrop : (sign.toList ++ digits ++ rest).drop sign.toList.length = digits ++ rest := by
    rw [List.append_assoc, List.drop_left]
  rw [Exponent.text, List.cons_append, Jevt.scanExponent, if_pos hletter]
  dsimp only
  rw [hread, hdrop, hspan, if_neg hdigits.1]

section Proper

variable {numeral : Numeral} (h : numeral.Proper) {rest : Bytes}
  (hrest : ∀ b ∈ rest.head?, EndsNumeral b)

include h hrest

/-- The exponent of a numeral is read back. -/
theorem Numeral.Proper.scanExponent :
    Jevt.scanExponent (numeral.exponentText ++ rest) = numeral.exponent := by
  rw [Numeral.exponentText]
  cases hexponent : numeral.exponent with
  | none => exact scanExponent_eq_none fun b hb => (hrest b hb).2.2
  | some exponent => exact (h.exponent exponent hexponent).scanExponent fun b hb => (hrest b hb).1

/-- **A numeral is read back.** -/
theorem Numeral.Proper.scanNumeral : Jevt.scanNumeral (numeral.text ++ rest) = some numeral := by
  have hbehind := h.head?_exponent hrest
  have hexponent := h.scanExponent hrest
  obtain ⟨htake, hdrop⟩ := span_append h.whole.2 (h.head?_fraction hrest)
  rw [Jevt.scanNumeral, Numeral.text, List.append_assoc, List.append_assoc, htake, hdrop,
    Numeral.fractionText]
  cases hfraction : numeral.fraction with
  | none =>
    have hpoint : (numeral.exponentText ++ rest).head? ≠ some 0x2e := fun heq =>
      (hbehind _ heq).2 rfl
    rw [Option.elim_none, List.nil_append, if_neg hpoint, if_neg h.whole.1, hexponent, ← hfraction]
  | some digits =>
    obtain ⟨htake', hdrop'⟩ :=
      span_append (h.fraction digits hfraction).2 fun b hb => (hbehind b hb).1
    rw [Option.elim_some, List.cons_append, List.head?_cons, if_pos rfl, List.tail_cons, htake',
      hdrop', if_neg fun hempty => h.whole.1 hempty.1, hexponent, ← hfraction]

/-- The number of a numeral behind white space is read. -/
theorem Numeral.Proper.scanNumber {before : Bytes} (hbefore : Gap before) :
    Jevt.scanNumber (before ++ (numeral.text ++ rest)) = some numeral.value := by
  have hdrop := (span_append hbefore.isSpace
    fun b (hb : b ∈ (numeral.text ++ rest).head?) => isSpace_of_isDigit (h.head? hb)).2
  have hsign : ∀ c, isDigit c = false → (numeral.text ++ rest).head? ≠ some c := by
    intro c hc heq
    have hdigit := h.head? heq
    rw [hc] at hdigit
    cases hdigit
  rw [Jevt.scanNumber, hdrop, if_neg (hsign _ (by decide)), if_neg (hsign _ (by decide)),
    h.scanNumeral hrest, Option.map_some]

end Proper

/-! ## What the constructors read -/

section Calibrations

variable {arithmetic : Arithmetic} {number : Numeral → Floating}

/-- A numeral in the range of `std::stof`. -/
def Numeral.InRange (arithmetic : Arithmetic) (numeral : Numeral) : Prop :=
  inRange numeral.value (arithmetic.float numeral.value) = true

/-- A numeral that is a positive `float` for the JSON library. -/
def Numeral.Positive (number : Numeral → Floating) (numeral : Numeral) : Prop :=
  ∃ x, number numeral = .finite x ∧ 0 < x

/-- A configuration of positive numbers. -/
structure AgentConfig.Positive (number : Numeral → Floating) (config : AgentConfig) : Prop where
  numerals : ∀ item ∈ config.numerals, item.numeral.Positive number
  entries : ∀ entry ∈ config.entries, entry.numeral.Positive number

/-- What the ONNX adapter reads from a configuration in range. -/
def AgentConfig.onnx (arithmetic : Arithmetic) (config : AgentConfig) : Calibration where
  temperatures := fun i =>
    (config.numerals.map fun item => arithmetic.float item.numeral.value).getD i (.finite 1)
  bucketTemperatures := bucketNames.filterMap fun name =>
    ((config.found? name).map fun numeral => arithmetic.float numeral.value).map (name, ·)

/-- What the native adapter reads from a configuration of positive numbers. -/
def AgentConfig.native (number : Numeral → Floating) (config : AgentConfig) : Calibration where
  temperatures := fun i =>
    (config.numerals.map fun item => number item.numeral).getD i (.finite 1)
  bucketTemperatures := config.entries.map fun entry => (entry.name, number entry.numeral)

/-- A configuration whose numbers, as far as the ONNX adapter finds them, are in the range of
`std::stof`. -/
structure AgentConfig.InRange (arithmetic : Arithmetic) (config : AgentConfig) : Prop where
  numerals : ∀ item ∈ config.numerals, item.numeral.InRange arithmetic
  entries : ∀ name ∈ bucketNames, ∀ numeral ∈ config.found? name, numeral.InRange arithmetic

/-- A numeral is read by `std::stof` when it is in range. -/
theorem Numeral.Proper.stof_eq_ok_iff {numeral : Numeral} (h : numeral.Proper)
    {before rest : Bytes} (hbefore : Gap before) (hrest : ∀ b ∈ rest.head?, EndsNumeral b)
    (value : Floating) :
    arithmetic.stof (before ++ (numeral.text ++ rest)) = .ok value ↔
      numeral.InRange arithmetic ∧ value = arithmetic.float numeral.value := by
  rw [Arithmetic.stof, h.scanNumber hrest hbefore, Numeral.InRange]
  dsimp only
  split_ifs with hrange
  · exact ⟨fun heq => ⟨hrange, (Except.ok.inj heq).symm⟩, fun heq => heq.2 ▸ rfl⟩
  · exact ⟨nofun, fun heq => absurd heq.1 hrange⟩

/-- A positive number is valid. -/
theorem Numeral.Positive.validate {numeral : Numeral} (h : numeral.Positive number) :
    validateTemperature (number numeral) = .ok (number numeral) := by
  obtain ⟨x, hx, hpos⟩ := h
  have hle : Floating.le (.finite x) .zero = false := by
    rw [Bool.eq_false_iff, ne_eq, Floating.zero, Floating.finite_le_iff, not_le]
    exact hpos
  rw [hx, validateTemperature, hle]
  rfl

variable {config : AgentConfig} (h : config.Proper)

include h

/-- The lines of the temperatures are their texts. -/
theorem AgentConfig.Proper.getlines_eq :
    getlines 0x2c ([0x2c].intercalate (config.numerals.map ConfigNumeral.text)) =
      config.numerals.map ConfigNumeral.text := by
  obtain ⟨hlength, hnumerals⟩ := h.numerals
  have hcomma : ∀ text ∈ config.numerals.map ConfigNumeral.text, 0x2c ∉ text := by
    intro text htext
    obtain ⟨item, hitem, rfl⟩ := List.mem_map.1 htext
    exact (hnumerals item hitem).not_mem_text (by decide) (by decide) (by decide)
  have hne : config.numerals.map ConfigNumeral.text ≠ [] := by
    intro hnil
    rw [List.map_eq_nil_iff.1 hnil] at hlength
    cases hlength
  have hlast : (config.numerals.map ConfigNumeral.text).getLast? ≠ some [] := by
    intro heq
    obtain ⟨item, hitem, htext⟩ := List.mem_map.1 (List.mem_of_getLast? heq)
    rw [ConfigNumeral.text, List.append_eq_nil_iff, List.append_eq_nil_iff, Numeral.text,
      List.append_eq_nil_iff] at htext
    exact (hnumerals item hitem).numeral.whole.1 htext.1.2.1
  rw [getlines, List.splitOn_intercalate 0x2c hcomma hne, if_neg hlast]

/-- `json_temperatures` reads the three temperatures when they are in range. -/
theorem AgentConfig.Proper.jsonTemperatures_eq_ok_iff (temperatures : Fin 3 → Floating) :
    arithmetic.jsonTemperatures config.text = .ok temperatures ↔
      (∀ item ∈ config.numerals, item.numeral.InRange arithmetic) ∧ temperatures = fun i : Fin 3 =>
        (config.numerals.map fun item => arithmetic.float item.numeral.value).getD i
          (.finite 1) := by
  obtain ⟨hlength, hnumerals⟩ := h.numerals
  have hthree : (config.numerals.map ConfigNumeral.text).take 3 =
      config.numerals.map ConfigNumeral.text :=
    List.take_of_length_le (List.length_map ConfigNumeral.text ▸ hlength.le)
  have hread : ∀ values, (config.numerals.map ConfigNumeral.text).mapM arithmetic.stof =
      .ok values ↔ (∀ item ∈ config.numerals, item.numeral.InRange arithmetic) ∧
        values = config.numerals.map fun item => arithmetic.float item.numeral.value := by
    intro values
    rw [List.mapM_map]
    refine mapM_eq_ok_iff_map fun item hitem value => ?_
    have hproper := hnumerals item hitem
    rw [Function.comp_apply, ConfigNumeral.text, List.append_assoc]
    refine hproper.numeral.stof_eq_ok_iff hproper.before (fun b hb => ?_) value
    exact endsNumeral_of_gap_mark (.inl (hproper.after b (List.mem_of_head? hb)))
  rw [Arithmetic.jsonTemperatures, h.temperatureText_text]
  dsimp only
  rw [h.getlines_eq, hthree, bind_eq_ok_iff]
  constructor
  · rintro ⟨values, hvalues, heq⟩
    obtain ⟨hrange, rfl⟩ := (hread values).1 hvalues
    exact ⟨hrange, (Except.ok.inj heq).symm⟩
  · rintro ⟨hrange, rfl⟩
    exact ⟨_, (hread _).2 ⟨hrange, rfl⟩, rfl⟩

/-- `json_number` reads the number of an entry that it finds when it is in range. -/
theorem AgentConfig.Proper.jsonNumber_eq_ok_iff {name : Bytes} (hname : name ∈ bucketNames)
    (value : Option Floating) :
    arithmetic.jsonNumber config.text name = .ok value ↔
      (∀ numeral ∈ config.found? name, numeral.InRange arithmetic) ∧
        value = (config.found? name).map fun numeral => arithmetic.float numeral.value := by
  rw [Arithmetic.jsonNumber, h.numberText_text hname]
  cases hfound : config.found? name with
  | none => exact ⟨fun heq => ⟨nofun, (Except.ok.inj heq).symm⟩, fun heq => heq.2 ▸ rfl⟩
  | some numeral =>
    have hread : ∀ value, arithmetic.stof ([] ++ (numeral.text ++ [])) = .ok value ↔ _ :=
      (h.found?_proper hfound).stof_eq_ok_iff (fun _ hb => absurd hb List.not_mem_nil)
        fun _ hb => by cases hb
    rw [List.nil_append, List.append_nil] at hread
    rw [Option.map_some, Option.map_some]
    dsimp only
    cases hstof : arithmetic.stof numeral.text with
    | error failure =>
      refine ⟨nofun, fun heq => ?_⟩
      rw [(hread _).2 ⟨heq.1 numeral rfl, rfl⟩] at hstof
      cases hstof
    | ok read =>
      obtain ⟨hrange, rfl⟩ := (hread read).1 hstof
      exact ⟨fun heq => ⟨fun _ hmem => Option.some.inj hmem ▸ hrange, (Except.ok.inj heq).symm⟩,
        fun heq => heq.2 ▸ rfl⟩

/-- **The ONNX adapter reads the temperatures, and the entries that it finds, when they are in
range.** -/
theorem AgentConfig.Proper.onnxCalibration_eq_ok_iff (onnx : Calibration) :
    arithmetic.onnxCalibration config.text = .ok onnx ↔
      config.InRange arithmetic ∧ onnx = config.onnx arithmetic := by
  have hentry : ∀ name ∈ bucketNames, ∀ entry, (do
      let value ← arithmetic.jsonNumber config.text name
      .ok (value.map (name, ·))) = Except.ok entry ↔
        (∀ numeral ∈ config.found? name, numeral.InRange arithmetic) ∧ entry =
          ((config.found? name).map fun numeral => arithmetic.float numeral.value).map
            (name, ·) := by
    intro name hname entry
    rw [bind_eq_ok_iff]
    constructor
    · rintro ⟨value, hvalue, heq⟩
      obtain ⟨hrange, rfl⟩ := (h.jsonNumber_eq_ok_iff hname value).1 hvalue
      exact ⟨hrange, (Except.ok.inj heq).symm⟩
    · rintro ⟨hrange, rfl⟩
      exact ⟨_, (h.jsonNumber_eq_ok_iff hname _).2 ⟨hrange, rfl⟩, rfl⟩
  have hentries : ∀ names : List Bytes, (names.map fun name => ((config.found? name).map
      fun numeral => arithmetic.float numeral.value).map (name, ·)).filterMap id =
        names.filterMap fun name => ((config.found? name).map
          fun numeral => arithmetic.float numeral.value).map (name, ·) := by
    intro names
    rw [List.filterMap_map]
    rfl
  rw [Arithmetic.onnxCalibration, bind_eq_ok_iff]
  constructor
  · rintro ⟨temperatures, htemperatures, hrest⟩
    obtain ⟨entries, hread, heq⟩ := bind_eq_ok_iff.1 hrest
    obtain ⟨hnumerals, rfl⟩ := (h.jsonTemperatures_eq_ok_iff temperatures).1 htemperatures
    obtain ⟨hfound, rfl⟩ := (mapM_eq_ok_iff_map hentry).1 hread
    rw [hentries] at heq
    exact ⟨⟨hnumerals, hfound⟩, (Except.ok.inj heq).symm⟩
  · rintro ⟨hrange, rfl⟩
    refine ⟨_, (h.jsonTemperatures_eq_ok_iff _).2 ⟨hrange.numerals, rfl⟩, bind_eq_ok_iff.2
      ⟨_, (mapM_eq_ok_iff_map hentry).2 ⟨hrange.entries, rfl⟩, ?_⟩⟩
    rw [hentries]
    rfl

variable (hpos : config.Positive number)

include hpos

/-- **The native adapter reads the temperatures and all entries.** -/
theorem AgentConfig.Proper.nativeCalibration_eq :
    nativeCalibration number config = .ok (config.native number) := by
  have htemperatures : nativeTemperatures number (config.value? (lit "temperature")) =
      .ok fun i => (config.numerals.map fun item => number item.numeral).getD i (.finite 1) := by
    obtain ⟨member, hmember, hfield⟩ := h.exists_numerals
    have hvalue := h.value?_eq hmember
    rw [hfield] at hvalue
    rw [show lit "temperature" = (ConfigField.temperature config.numerals).name from rfl, hvalue,
      nativeTemperatures, if_neg (not_not.2 h.numerals.1),
      mapM_eq_ok_map fun item hitem => (hpos.numerals item hitem).validate]
    rfl
  have hentries : nativeEntries number (config.value? (lit "temperature_by_options")) =
      .ok (config.entries.map fun entry => (entry.name, number entry.numeral)) := by
    rcases h.value?_byOptions with hvalue | ⟨gap, hvalue⟩
    · rw [AgentConfig.entries, hvalue]
      rfl
    · rw [hvalue, nativeEntries]
      refine mapM_eq_ok_map fun entry hentry => ?_
      rw [(hpos.entries entry hentry).validate]
      rfl
  exact bind_eq_ok_iff.2 ⟨_, htemperatures, bind_eq_ok_iff.2 ⟨_, hentries, rfl⟩⟩

end Calibrations

/-! ## Rows -/

/-- The name of the entry for a row. -/
def rowName (kind : QuestionKind) (count : Nat) : Bytes :=
  kind.typeName ++ lit ":" ++ bucket count

/-- The numeral of the base temperature of a kind. -/
def AgentConfig.base (config : AgentConfig) (kind : QuestionKind) : Option Numeral :=
  config.numerals[kind.qtype.val]?.map ConfigNumeral.numeral

/-- The numeral that a configuration has for a row: the one of its entry, or the base temperature of
its kind. -/
def AgentConfig.numeral (config : AgentConfig) (kind : QuestionKind) (count : Nat) :
    Option Numeral :=
  (config.entry? (rowName kind count)).or (config.base kind)

/-- The last bucket is that of more than ten options. -/
theorem bucket_mem (count : Nat) : bucket count ∈ [lit "2", lit "3-5", lit "6-10", lit "11+"] ∧
    (bucket count ≠ lit "11+" ↔ count ≤ 10) := by
  have hmem : lit "2" ∈ [lit "2", lit "3-5", lit "6-10", lit "11+"] ∧
      lit "3-5" ∈ [lit "2", lit "3-5", lit "6-10", lit "11+"] ∧
      lit "6-10" ∈ [lit "2", lit "3-5", lit "6-10", lit "11+"] := by decide
  have hne : lit "2" ≠ lit "11+" ∧ lit "3-5" ≠ lit "11+" ∧ lit "6-10" ≠ lit "11+" := by decide
  unfold bucket
  split_ifs with htwo hfive hten
  · exact ⟨hmem.1, iff_of_true hne.1 (by omega)⟩
  · exact ⟨hmem.2.1, iff_of_true hne.2.1 (by omega)⟩
  · exact ⟨hmem.2.2, iff_of_true hne.2.2 hten⟩
  · exact ⟨.tail _ (.tail _ (.tail _ (.head _))), iff_of_false (not_not.2 rfl) hten⟩

/-- The ONNX adapter finds the entries of choices and nouls with at most ten options. -/
theorem rowName_found (kind : QuestionKind) (count : Nat) :
    rowName kind count ∈ bucketNames ∧ 0x2b ∉ rowName kind count ↔ kind ≠ .score ∧ count ≤ 10 := by
  have hnames : ∀ suffix ∈ [lit "2", lit "3-5", lit "6-10", lit "11+"],
      (kind.typeName ++ lit ":" ++ suffix ∈ bucketNames ∧
        0x2b ∉ kind.typeName ++ lit ":" ++ suffix ↔ kind ≠ .score ∧ suffix ≠ lit "11+") := by
    cases kind <;> decide
  obtain ⟨hmem, hlast⟩ := bucket_mem count
  rw [rowName, hnames _ hmem, hlast]

/-- Both adapters have the temperature for a row that its configuration has for it. -/
def CalibrateAlike (arithmetic : Arithmetic) (number : Numeral → Floating) (config : AgentConfig)
    (bundle : LayaBundle) (kind : QuestionKind) (count : Nat) : Prop :=
  ∃ onnx native, arithmetic.onnxCalibration config.text = .ok onnx ∧
    nativeCalibration number config = .ok native ∧
    some ((bundle.calibrated onnx).temperature kind count) =
      (config.numeral kind count).map number ∧
    some ((bundle.calibrated native).temperature kind count) =
      (config.numeral kind count).map number

section Rows

variable {arithmetic : Arithmetic} {number : Numeral → Floating} {config : AgentConfig}
  (h : config.Proper)

/-- What the ONNX adapter finds for a row is its entry, unless the row is a score or has more than
ten options. -/
theorem found?_rowName (kind : QuestionKind) (count : Nat) :
    (if rowName kind count ∈ bucketNames then config.found? (rowName kind count) else none) =
      if kind ≠ .score ∧ count ≤ 10 then config.entry? (rowName kind count) else none := by
  have hfound := rowName_found kind count
  rw [AgentConfig.found?]
  by_cases hkind : kind ≠ .score ∧ count ≤ 10
  · obtain ⟨hmem, hplus⟩ := hfound.2 hkind
    rw [if_pos hkind, if_pos hmem, if_neg hplus]
  · rw [if_neg hkind]
    split_ifs with hmem hplus
    · rfl
    · exact absurd (hfound.1 ⟨hmem, hplus⟩) hkind
    · rfl

include h

/-- Each kind has a base temperature. -/
theorem AgentConfig.Proper.exists_base (kind : QuestionKind) :
    ∃ base, config.base kind = some base ∧ ∀ read : Numeral → Floating,
      (config.numerals.map fun item => read item.numeral).getD kind.qtype.val (.finite 1) =
        read base := by
  have hlt : kind.qtype.val < config.numerals.length := by
    rw [h.numerals.1]
    exact kind.qtype.isLt
  refine ⟨config.numerals[kind.qtype.val].numeral, ?_, fun read => ?_⟩
  · rw [AgentConfig.base, List.getElem?_eq_getElem hlt, Option.map_some]
  · rw [List.getD_eq_getElem?_getD, List.getElem?_map, List.getElem?_eq_getElem hlt,
      Option.map_some, Option.getD_some]

/-- **The temperature of a row in the ONNX adapter.** -/
theorem AgentConfig.Proper.onnx_temperature {base : Numeral} {kind : QuestionKind}
    (hbase : config.base kind = some base) (bundle : LayaBundle) (count : Nat) :
    (bundle.calibrated (config.onnx arithmetic)).temperature kind count = arithmetic.float
      ((if kind ≠ .score ∧ count ≤ 10 then config.entry? (rowName kind count)
        else none).getD base).value := by
  obtain ⟨base', hbase', htemperature⟩ := h.exists_base kind
  obtain rfl : base = base' := Option.some.inj (hbase.symm.trans hbase')
  have hlookup := lookup_filterMap_key bucketNames (fun name => (config.found? name).map
    fun numeral => arithmetic.float numeral.value) (rowName kind count)
  rw [LayaBundle.temperature, LayaBundle.calibrated, AgentConfig.onnx]
  dsimp only
  rw [← rowName, hlookup, htemperature fun numeral => arithmetic.float numeral.value,
    ← found?_rowName]
  split
  · cases config.found? (rowName kind count) <;> rfl
  · rfl

/-- **The temperature of a row in the native adapter.** -/
theorem AgentConfig.Proper.native_temperature {base : Numeral} {kind : QuestionKind}
    (hbase : config.base kind = some base) (bundle : LayaBundle) (count : Nat) :
    (bundle.calibrated (config.native number)).temperature kind count =
      number ((config.entry? (rowName kind count)).getD base) := by
  obtain ⟨base', hbase', htemperature⟩ := h.exists_base kind
  obtain rfl : base = base' := Option.some.inj (hbase.symm.trans hbase')
  have hlookup := lookup_map_key (k := ConfigEntry.name) config.entries
    (fun entry => number entry.numeral) (rowName kind count)
  rw [LayaBundle.temperature, LayaBundle.calibrated, AgentConfig.native]
  dsimp only
  rw [← rowName, hlookup, htemperature number, AgentConfig.entry?]
  cases config.entries.find? fun entry => entry.name = rowName kind count <;> rfl

variable (hpos : config.Positive number)

include hpos

/-- Both adapters agree when the ONNX adapter reads its numbers, and the numeral that it goes by is
read as the one that the configuration has for the row. -/
theorem AgentConfig.Proper.calibrateAlike_iff {base : Numeral} {kind : QuestionKind}
    (hbase : config.base kind = some base) (bundle : LayaBundle) (count : Nat) :
    CalibrateAlike arithmetic number config bundle kind count ↔ config.InRange arithmetic ∧
      arithmetic.float ((if kind ≠ .score ∧ count ≤ 10 then config.entry? (rowName kind count)
        else none).getD base).value =
          number ((config.entry? (rowName kind count)).getD base) := by
  have hnumeral : config.numeral kind count =
      some ((config.entry? (rowName kind count)).getD base) := by
    rw [AgentConfig.numeral, hbase]
    cases config.entry? (rowName kind count) <;> rfl
  rw [CalibrateAlike, hnumeral, Option.map_some]
  constructor
  · rintro ⟨onnx, native, honnx, -, heq, -⟩
    obtain ⟨hrange, rfl⟩ := (h.onnxCalibration_eq_ok_iff onnx).1 honnx
    rw [h.onnx_temperature hbase] at heq
    exact ⟨hrange, Option.some.inj heq⟩
  · rintro ⟨hrange, heq⟩
    refine ⟨config.onnx arithmetic, config.native number,
      (h.onnxCalibration_eq_ok_iff _).2 ⟨hrange, rfl⟩, h.nativeCalibration_eq hpos, ?_, ?_⟩
    · rw [h.onnx_temperature hbase, heq]
    · rw [h.native_temperature hbase]

/-- **Both adapters have the temperature of the configuration for a row exactly in two cases.** The
numbers that the ONNX adapter finds are in the range of `std::stof`; and either it finds the entry
of the row, or there is none, and the numeral for the row is the same `float` in both readings, or
it does not find the entry, and that is the same `float` as the base temperature of the kind. -/
theorem calibrate_alike_iff (bundle : LayaBundle) (kind : QuestionKind) (count : Nat) :
    CalibrateAlike arithmetic number config bundle kind count ↔ config.InRange arithmetic ∧
      ((kind ≠ .score ∧ count ≤ 10 ∨ config.entry? (rowName kind count) = none) ∧
        (∃ numeral ∈ config.numeral kind count,
          arithmetic.float numeral.value = number numeral) ∨
      (kind = .score ∨ 10 < count) ∧
        ∃ base ∈ config.base kind, ∃ entry ∈ config.entry? (rowName kind count),
          arithmetic.float base.value = number entry) := by
  obtain ⟨base, hbase, -⟩ := h.exists_base kind
  rw [h.calibrateAlike_iff hpos hbase]
  have hhidden : (kind = .score ∨ 10 < count) ↔ ¬(kind ≠ .score ∧ count ≤ 10) := by
    rw [not_and_or, not_not, not_le]
  rw [hhidden, AgentConfig.numeral, hbase]
  by_cases hkind : kind ≠ .score ∧ count ≤ 10
  · rw [if_pos hkind]
    cases config.entry? (rowName kind count) <;> simp [hkind]
  · rw [if_neg hkind]
    cases config.entry? (rowName kind count) <;> simp [hkind]

end Rows

/-! ## An entry of a score -/

/-- A numeral of one digit. -/
def digit (b : UInt8) : Numeral where
  whole := [b]

/-- A configuration with the two lengths, temperatures of 1, and an entry of a choice and one of a
score. -/
def scoreConfig : AgentConfig where
  members :=
    [{ field := .other (lit "max_len") [([], .word (lit "1024"))] },
      { field := .other (lit "head_max_len") [([], .word (lit "256"))] },
      { field := .temperature [⟨digit 0x31, [], []⟩, ⟨digit 0x31, [], []⟩, ⟨digit 0x31, [], []⟩] },
      { field := .byOptions
          [{ name := lit "choice:2", numeral := digit 0x32 },
            { name := lit "score:3-5", numeral := digit 0x32 }] [] }]

/-- A JSON library that keeps a number as it is. -/
def exactNumber (numeral : Numeral) : Floating :=
  .finite numeral.value

/-- A digit is a numeral. -/
theorem proper_digit {b : UInt8} (hb : isDigit b = true) : (digit b).Proper where
  whole := ⟨List.cons_ne_nil _ _, List.forall_mem_singleton.2 hb⟩
  fraction := nofun
  exponent := nofun

/-- Nothing is white space. -/
theorem gap_nil : Gap [] := fun _ hb => absurd hb List.not_mem_nil

/-- A member whose value is a word is not looked at when nothing searches for its name. -/
theorem unsought_word {name word : Bytes} (hdistinct : name ≠ lit "temperature_by_options")
    (hname : 0x22 ∉ name) (hword : 0x22 ∉ word)
    (hunsought : ∀ sought ∈ lit "temperature" :: bucketNames, ¬(pattern sought).Accepts name) :
    Unsought name [([], .word word)] where
  distinct := hdistinct
  noQuote := hname
  plain := List.forall_mem_singleton.2 ⟨gap_nil, hword⟩
  followed := fun _ _ _ hrest => hrest
  unsought := List.forall_mem_singleton.2 fun ⟨sought, hsought, haccepts⟩ =>
    hunsought sought hsought haccepts

/-- The configuration is well-formed. -/
theorem scoreConfig_proper : scoreConfig.Proper where
  members := by
    have hone : ConfigNumeral.Proper ⟨digit 0x31, [], []⟩ :=
      ⟨proper_digit (by decide), gap_nil, gap_nil⟩
    refine List.forall_mem_cons.2 ⟨⟨?_, gap_nil, gap_nil, gap_nil, gap_nil⟩,
      List.forall_mem_cons.2 ⟨⟨?_, gap_nil, gap_nil, gap_nil, gap_nil⟩,
        List.forall_mem_cons.2 ⟨⟨⟨rfl, ?_⟩, gap_nil, gap_nil, gap_nil, gap_nil⟩,
          List.forall_mem_singleton.2
            ⟨⟨?_, by decide, gap_nil⟩, gap_nil, gap_nil, gap_nil, gap_nil⟩⟩⟩⟩
    · exact unsought_word (by decide) (by decide) (by decide) (by decide)
    · exact unsought_word (by decide) (by decide) (by decide) (by decide)
    · exact List.forall_mem_cons.2 ⟨hone, List.forall_mem_cons.2
        ⟨hone, List.forall_mem_singleton.2 hone⟩⟩
    · have htwo : (digit 0x32).Proper := proper_digit (by decide)
      exact List.forall_mem_cons.2
        ⟨⟨by decide, htwo, gap_nil, gap_nil, gap_nil, gap_nil⟩, List.forall_mem_singleton.2
          ⟨by decide, htwo, gap_nil, gap_nil, gap_nil, gap_nil⟩⟩
  names := by decide
  temperature := ⟨_, .tail _ (.tail _ (.head _)), _, rfl⟩
  before := gap_nil
  trailing := gap_nil

/-- The number of a numeral of one digit. -/
theorem value_digit (b : UInt8) : (digit b).value = ((b.toNat - 0x30 : Nat) : ℚ) := by
  simp [Numeral.value, Numeral.power, digit, digitsValue]

/-- A digit of at least one is a number of at least one. -/
theorem one_le_value_digit {b : UInt8} (hb : 0x31 ≤ b.toNat) : 1 ≤ (digit b).value := by
  rw [value_digit, Nat.one_le_cast]
  omega

/-- A digit of at least one is positive. -/
theorem positive_digit {b : UInt8} (hb : 0x31 ≤ b.toNat) : (digit b).Positive exactNumber :=
  ⟨_, rfl, zero_lt_one.trans_le (one_le_value_digit hb)⟩

/-- A digit of at least one is in the range of `std::stof`. -/
theorem inRange_digit {b : UInt8} (hb : 0x31 ≤ b.toNat) : (digit b).InRange .exact := by
  have hmin : fltMin ≤ 1 := zpow_le_one_of_nonpos₀ one_le_two (by decide)
  have hle := hmin.trans ((one_le_value_digit hb).trans (le_abs_self _))
  rw [Numeral.InRange, Arithmetic.exact, inRange, decide_eq_true hle]
  rfl

/-- Its temperatures are positive. -/
theorem scoreConfig_positive : scoreConfig.Positive exactNumber where
  numerals := by
    have hone := positive_digit (b := 0x31) (by decide)
    exact List.forall_mem_cons.2 ⟨hone, List.forall_mem_cons.2
      ⟨hone, List.forall_mem_singleton.2 hone⟩⟩
  entries := by
    have htwo := positive_digit (b := 0x32) (by decide)
    exact List.forall_mem_cons.2 ⟨htwo, List.forall_mem_singleton.2 htwo⟩

/-- The ONNX adapter reads them all. -/
theorem scoreConfig_inRange : scoreConfig.InRange .exact where
  numerals := by
    have hone := inRange_digit (b := 0x31) (by decide)
    exact List.forall_mem_cons.2 ⟨hone, List.forall_mem_cons.2
      ⟨hone, List.forall_mem_singleton.2 hone⟩⟩
  entries := by
    intro name _ numeral hnumeral
    have htwo := inRange_digit (b := 0x32) (by decide)
    rw [AgentConfig.found?] at hnumeral
    split at hnumeral
    · cases hnumeral
    · obtain ⟨entry, hentry, rfl⟩ := Option.map_eq_some_iff.1 hnumeral
      have hall : ∀ entry ∈ scoreConfig.entries, entry.numeral.InRange .exact :=
        List.forall_mem_cons.2 ⟨htwo, List.forall_mem_singleton.2 htwo⟩
      exact hall entry (List.mem_of_find?_eq_some hentry)

/-- Both adapters divide the logits of a choice of two options by its entry. -/
theorem calibrate_alike_choice :
    CalibrateAlike .exact exactNumber scoreConfig LayaBundle.byteBundle .choice 2 :=
  (calibrate_alike_iff scoreConfig_proper scoreConfig_positive LayaBundle.byteBundle .choice 2).2
    ⟨scoreConfig_inRange, .inl ⟨.inl ⟨by decide, by decide⟩, digit 0x32, rfl, rfl⟩⟩

/-- The native adapter divides the logits of a score of three levels by its entry, the ONNX adapter
by the base temperature. -/
theorem score_entry_not_found :
    scoreConfig.text =
        lit "\x7b\"max_len\":1024,\"head_max_len\":256,\"temperature\":[1,1,1]," ++
          lit "\"temperature_by_options\":\x7b\"choice:2\":2,\"score:3-5\":2\x7d\x7d" ∧
      scoreConfig.Proper ∧ scoreConfig.Positive exactNumber ∧
      scoreConfig.numeral .score 3 = some (digit 0x32) ∧
      ∃ onnx native, Arithmetic.exact.onnxCalibration scoreConfig.text = .ok onnx ∧
        nativeCalibration exactNumber scoreConfig = .ok native ∧
        (LayaBundle.byteBundle.calibrated onnx).temperature .score 3 = .finite 1 ∧
        (LayaBundle.byteBundle.calibrated native).temperature .score 3 = .finite 2 := by
  have hbase : scoreConfig.base .score = some (digit 0x31) := rfl
  refine ⟨by decide, scoreConfig_proper, scoreConfig_positive, rfl,
    scoreConfig.onnx .exact, scoreConfig.native exactNumber,
    (scoreConfig_proper.onnxCalibration_eq_ok_iff _).2 ⟨scoreConfig_inRange, rfl⟩,
    scoreConfig_proper.nativeCalibration_eq scoreConfig_positive, ?_, ?_⟩
  · rw [scoreConfig_proper.onnx_temperature hbase, if_neg fun h => h.1 rfl,
      Option.getD_none, value_digit]
    rfl
  · have hentry : scoreConfig.entry? (rowName .score 3) = some (digit 0x32) := rfl
    rw [scoreConfig_proper.native_temperature hbase, hentry, Option.getD_some,
      exactNumber, value_digit]
    rfl

end Jevt
