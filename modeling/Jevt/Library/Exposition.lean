import Jevt.Library.Joined
import Jevt.Library.JsonComplete
import Jevt.Library.Traverse

/-!
# The text format of metrics

A text of metrics is a sequence of lines, each ended by a line feed: comments, which start with a
number sign, and samples, which are the name of a metric, labels in braces, a blank and a value. The
value of a label is quoted; a backslash stands before a quote, a backslash, or the `n` of a line
feed (`Escapes`). The reader cuts the text at its line feeds and reads line by line (`parse`). What
is written with any escaping of single bytes that the format knows is read back, whatever bytes the
values of the labels are made of (`parse_render`). Timestamps are left out.
-/

namespace Jevt.Library.Exposition

/-- A sample: a metric, its labels and a value as it is written. -/
structure Sample where
  metric : List UInt8
  labels : List (List UInt8 × List UInt8) := []
  value : List UInt8
  deriving DecidableEq

/-- What identifies the time series of a sample. -/
def Sample.series (s : Sample) : List UInt8 × List (List UInt8 × List UInt8) :=
  (s.metric, s.labels)

/-- The value of a label of a sample, if it has this label. -/
def Sample.label (s : Sample) (name : List UInt8) : Option (List UInt8) :=
  (s.labels.find? fun label => label.1 = name).map Prod.snd

/-! ## The reader -/

/-- What the name of a label is made of. -/
def isLabelByte (b : UInt8) : Bool :=
  (0x61 ≤ b && b ≤ 0x7a) || (0x41 ≤ b && b ≤ 0x5a) || Json.isDigit b || b = 0x5f

/-- What the name of a metric is made of. -/
def isMetricByte (b : UInt8) : Bool :=
  isLabelByte b || b = 0x3a

/-- A name is not empty and does not start with a digit. -/
def isName (p : UInt8 → Bool) (name : List UInt8) : Bool :=
  name.all p && name.head?.any fun b => !Json.isDigit b

/-- The values that are no numbers. -/
def isSpecial (value : List UInt8) : Bool :=
  value = [0x6e, 0x61, 0x6e] || value = [0x69, 0x6e, 0x66] || value = [0x2d, 0x69, 0x6e, 0x66] ||
    value = [0x2b, 0x49, 0x6e, 0x66] || value = [0x2d, 0x49, 0x6e, 0x66] ||
    value = [0x4e, 0x61, 0x4e]

/-- The value of a sample. -/
def isValue (value : List UInt8) : Bool :=
  Json.isNumber value || isSpecial value

/-- The byte that a backslash and another byte stand for. -/
def unescapeByte (b : UInt8) : Option UInt8 :=
  if b = 0x22 ∨ b = 0x5c then some b
  else if b = 0x6e then some 0x0a
  else none

/-- The longest name at the start of a text. -/
def readName (p : UInt8 → Bool) (s : List UInt8) : Option (List UInt8 × List UInt8) :=
  if isName p (s.takeWhile p) then some (s.takeWhile p, s.dropWhile p) else none

/-- The value of a label, up to its closing quote. The flag says that a backslash has been read. -/
def readLabelValue : Bool → List UInt8 → Option (List UInt8 × List UInt8)
  | _, [] => none
  | true, b :: s =>
    (unescapeByte b).bind fun c => (readLabelValue false s).map fun r => (c :: r.1, r.2)
  | false, b :: s =>
    if b = 0x22 then some ([], s)
    else if b = 0x5c then readLabelValue true s
    else (readLabelValue false s).map fun r => (b :: r.1, r.2)

/-- A label. -/
def readLabel (s : List UInt8) : Option ((List UInt8 × List UInt8) × List UInt8) := do
  let (name, s) ← readName isLabelByte (Json.skipSpace s)
  match Json.skipSpace s with
  | [] => none
  | b :: s =>
    match Json.skipSpace s with
    | [] => none
    | c :: s =>
      if b = 0x3d ∧ c = 0x22 then do
        let (value, s) ← readLabelValue false s
        some ((name, value), s)
      else none

/-- The labels of a sample, which may be absent. -/
def readLabels (s : List UInt8) : Option (List (List UInt8 × List UInt8) × List UInt8) :=
  match Json.skipSpace s with
  | [] => some ([], [])
  | b :: s => if b = 0x7b then Json.readBracketed readLabel 0x7d s else some ([], b :: s)

/-- A sample. -/
def readSample (line : List UInt8) : Option Sample := do
  let (metric, s) ← readName isMetricByte line
  let (labels, s) ← readLabels s
  if isValue (Json.skipSpace s) then some { metric, labels, value := Json.skipSpace s } else none

/-- A line: nothing, a comment, or a sample. -/
def readLine : List UInt8 → Option (Option Sample)
  | [] => some none
  | b :: line => if b = 0x23 then some none else (readSample (b :: line)).map some

/-- The lines of a text, and last what stands behind its last line feed. -/
def cut : List UInt8 → List (List UInt8)
  | [] => [[]]
  | b :: s =>
    if b = 0x0a then [] :: cut s
    else match cut s with
      | [] => [[b]]
      | line :: lines => (b :: line) :: lines

/-- The samples of a text. -/
def parse (s : List UInt8) : Option (List Sample) :=
  if (cut s).getLast? = some [] then
    ((cut s).dropLast.mapM readLine).map fun lines => lines.filterMap id
  else none

/-! ## The writer -/

/-- The texts that stand for a byte in the value of a label. -/
inductive Escapes : UInt8 → List UInt8 → Prop
  | raw {b : UInt8} (hquote : b ≠ 0x22) (hslash : b ≠ 0x5c) (hfeed : b ≠ 0x0a) : Escapes b [b]
  | escaped {b c : UInt8} (h : unescapeByte c = some b) : Escapes b [0x5c, c]

/-- A label, for a way of escaping single bytes. -/
def labelText (esc : UInt8 → List UInt8) (label : List UInt8 × List UInt8) : List UInt8 :=
  label.1 ++ 0x3d :: 0x22 :: label.2.flatMap esc ++ [0x22]

/-- The labels of a sample. -/
def labelsText (esc : UInt8 → List UInt8) (labels : List (List UInt8 × List UInt8)) : List UInt8 :=
  if labels = [] then [] else 0x7b :: [0x2c].intercalate (labels.map (labelText esc)) ++ [0x7d]

/-- A sample. -/
def Sample.text (esc : UInt8 → List UInt8) (s : Sample) : List UInt8 :=
  s.metric ++ labelsText esc s.labels ++ 0x20 :: s.value

/-- A line: a comment, by what stands behind the number sign, or a sample. -/
inductive Line where
  | comment (text : List UInt8)
  | sample (s : Sample)

/-- The text of a line. -/
def Line.text (esc : UInt8 → List UInt8) : Line → List UInt8
  | comment text => 0x23 :: text
  | sample s => s.text esc

/-- The sample of a line. -/
def Line.sample? : Line → Option Sample
  | comment _ => none
  | sample s => some s

/-- The text of some lines. -/
def render (esc : UInt8 → List UInt8) (lines : List Line) : List UInt8 :=
  lines.flatMap fun line => line.text esc ++ [0x0a]

/-- The text of lines one after another. -/
theorem render_cons (esc : UInt8 → List UInt8) (line : Line) (lines : List Line) :
    render esc (line :: lines) = line.text esc ++ [0x0a] ++ render esc lines :=
  List.flatMap_cons

/-- The lines are written one after the other. -/
theorem render_append (esc : UInt8 → List UInt8) (lines more : List Line) :
    render esc (lines ++ more) = render esc lines ++ render esc more :=
  List.flatMap_append

/-- A line without labels. -/
theorem text_zero (esc : UInt8 → List UInt8) (metric value : List UInt8) :
    (Line.sample ⟨metric, [], value⟩).text esc ++ [0x0a] =
      metric ++ 0x20 :: (value ++ [0x0a]) := by
  simp [Line.text, Sample.text, labelsText]

/-- A line with one label. -/
theorem text_one (esc : UInt8 → List UInt8) (metric name label value : List UInt8) :
    (Line.sample ⟨metric, [(name, label)], value⟩).text esc ++ [0x0a] =
      metric ++ 0x7b :: (name ++ 0x3d :: 0x22 :: (label.flatMap esc ++
        0x22 :: 0x7d :: 0x20 :: (value ++ [0x0a]))) := by
  simp [Line.text, Sample.text, labelsText, labelText]

/-- A line with two labels. -/
theorem text_two (esc : UInt8 → List UInt8) (metric name label name' label' value : List UInt8) :
    (Line.sample ⟨metric, [(name, label), (name', label')], value⟩).text esc ++ [0x0a] =
      metric ++ 0x7b :: (name ++ 0x3d :: 0x22 :: (label.flatMap esc ++ 0x22 :: 0x2c ::
        (name' ++ 0x3d :: 0x22 :: (label'.flatMap esc ++
          0x22 :: 0x7d :: 0x20 :: (value ++ [0x0a]))))) := by
  simp [Line.text, Sample.text, labelsText, labelText]

/-- A sample with proper names and a proper value. -/
structure Sample.WellFormed (s : Sample) : Prop where
  metric : isName isMetricByte s.metric = true
  labels : ∀ label ∈ s.labels, isName isLabelByte label.1 = true
  value : isValue s.value = true

/-- A comment of one line, or a well-formed sample. -/
def Line.WellFormed : Line → Prop
  | comment text => 0x0a ∉ text
  | sample s => s.WellFormed

/-! ## What is written is read back -/

section
variable {p : UInt8 → Bool} {esc : UInt8 → List UInt8} {name value rest line : List UInt8}
  {label : List UInt8 × List UInt8} {labels : List (List UInt8 × List UInt8)} {s : Sample}

/-- A name is read up to the first byte that cannot stand in it. -/
theorem readName_append (h : isName p name = true) (hrest : ∀ b ∈ rest.head?, p b = false) :
    readName p (name ++ rest) = some (name, rest) := by
  have hall : name.all p = true := by
    rw [isName, Bool.and_eq_true] at h
    exact h.1
  obtain ⟨htake, hdrop⟩ := span_append (List.all_eq_true.1 hall) hrest
  rw [readName, htake, hdrop, if_pos h]

/-- An escape is read as its byte. -/
theorem readLabelValue_append {b : UInt8} {text : List UInt8} (h : Escapes b text) :
    readLabelValue false (text ++ rest) =
      (readLabelValue false rest).map fun r => (b :: r.1, r.2) := by
  cases h with
  | raw hquote hslash _ =>
    rw [List.singleton_append, readLabelValue, if_neg hquote, if_neg hslash]
  | @escaped c h =>
    have hslash : readLabelValue false (0x5c :: c :: rest) = readLabelValue true (c :: rest) := rfl
    rw [List.cons_append, List.singleton_append, hslash, readLabelValue, h, Option.bind_some]

/-- The value of a label is read up to its closing quote. -/
theorem readLabelValue_flatMap (hesc : ∀ b, Escapes b (esc b)) (value rest : List UInt8) :
    readLabelValue false (value.flatMap esc ++ 0x22 :: rest) = some (value, rest) := by
  induction value with
  | nil => rfl
  | cons b value ih =>
    rw [List.flatMap_cons, List.append_assoc, readLabelValue_append (hesc b), ih]
    rfl

/-- A name starts with one of its bytes. -/
theorem exists_of_isName (h : isName p name = true) : ∃ b tail, name = b :: tail ∧ p b = true := by
  cases name with
  | nil => cases h
  | cons b name =>
    rw [isName, List.all_cons, Bool.and_eq_true, Bool.and_eq_true] at h
    exact ⟨b, name, rfl, h.1.1⟩

/-- A byte of a label name, a metric name included, is no white space and ends nothing. -/
theorem isMetricByte_delimiters (b : UInt8) (h : isMetricByte b = true) :
    Json.isSpace b = false ∧ b ≠ 0x7b ∧ b ≠ 0x7d ∧ b ≠ 0x23 := by
  refine ⟨Bool.eq_false_iff.2 fun hspace => ?_, ?_, ?_, ?_⟩
  · simp only [Json.isSpace, Bool.or_eq_true, decide_eq_true_eq] at hspace
    obtain ((rfl | rfl) | rfl) | rfl := hspace <;> cases h
  all_goals
    rintro rfl
    cases h

/-- A label starts with a byte that is no white space and closes nothing. -/
theorem starts_labelText (esc : UInt8 → List UInt8) (h : isName isLabelByte label.1 = true)
    (rest : List UInt8) :
    ∃ b tail, Json.skipSpace (labelText esc label ++ rest) = b :: tail ∧
      labelText esc label ++ rest = b :: tail ∧ b ≠ 0x7d := by
  obtain ⟨b, tail, hname, hb⟩ := exists_of_isName h
  obtain ⟨hspace, -, hclose, -⟩ := isMetricByte_delimiters b (by simp [isMetricByte, hb])
  have htext : labelText esc label ++ rest =
      b :: (tail ++ 0x3d :: 0x22 :: label.2.flatMap esc ++ [0x22] ++ rest) := by
    simp [labelText, hname]
  exact ⟨b, _, by rw [htext, Json.skipSpace_cons hspace], htext, hclose⟩

/-- A label is read. -/
theorem reads_label (hesc : ∀ b, Escapes b (esc b)) (h : isName isLabelByte label.1 = true) :
    Json.Reads readLabel label (labelText esc label) := by
  intro s _
  refine ⟨s, ?_, rfl⟩
  obtain ⟨b, tail, hskip, hstart, -⟩ := starts_labelText esc h s
  have hname : readName isLabelByte
      (label.1 ++ (0x3d :: 0x22 :: label.2.flatMap esc ++ 0x22 :: s)) =
        some (label.1, 0x3d :: 0x22 :: label.2.flatMap esc ++ 0x22 :: s) :=
    readName_append h (by rintro b ⟨⟩; rfl)
  have htext : labelText esc label ++ s =
      label.1 ++ (0x3d :: 0x22 :: label.2.flatMap esc ++ 0x22 :: s) := by
    simp [labelText]
  have hequals : Json.skipSpace (0x3d :: 0x22 :: label.2.flatMap esc ++ 0x22 :: s) =
      0x3d :: 0x22 :: label.2.flatMap esc ++ 0x22 :: s := rfl
  have hquote : Json.skipSpace (0x22 :: (label.2.flatMap esc ++ 0x22 :: s)) =
      0x22 :: (label.2.flatMap esc ++ 0x22 :: s) := rfl
  have hvalue := readLabelValue_flatMap hesc label.2 s
  rw [readLabel, hskip, ← hstart, htext, hname]
  simp only [Option.bind_eq_bind, Option.bind_some, List.cons_append] at hequals ⊢
  simp [hequals, hquote, hvalue]

/-- A byte that can stand in a number is no white space, opens nothing and is not escaped. -/
theorem isNumberByte_delimiters (b : UInt8) (h : Json.isNumberByte b = true) :
    Json.isSpace b = false ∧ b ≠ 0x7b ∧ b ≠ 0x22 ∧ b ≠ 0x5c := by
  refine ⟨Bool.eq_false_iff.2 fun hspace => ?_, ?_, ?_, ?_⟩
  · simp only [Json.isSpace, Bool.or_eq_true, decide_eq_true_eq] at hspace
    obtain ((rfl | rfl) | rfl) | rfl := hspace <;> cases h
  all_goals
    rintro rfl
    cases h

/-- The bytes of a value, which is not empty, are no white space, open nothing and are not
escaped. -/
theorem isValue_bytes (h : isValue value = true) :
    value ≠ [] ∧ ∀ b ∈ value, Json.isSpace b = false ∧ b ≠ 0x7b ∧ b ≠ 0x22 ∧ b ≠ 0x5c := by
  rw [isValue, Bool.or_eq_true] at h
  obtain h | h := h
  · refine ⟨?_, fun b hb => isNumberByte_delimiters b ?_⟩
    · rintro rfl
      cases h
    · simp only [Json.isNumber, Bool.and_eq_true] at h
      exact List.all_eq_true.1 h.1.1.1 b hb
  · simp only [isSpecial, Bool.or_eq_true, decide_eq_true_eq] at h
    obtain ((((rfl | rfl) | rfl) | rfl) | rfl) | rfl := h
    all_goals exact ⟨List.cons_ne_nil _ _, by simp [Json.isSpace]⟩

/-- The blank before a value is skipped. -/
theorem skipSpace_value (h : isValue value = true) :
    Json.skipSpace (0x20 :: value) = value ∧ Json.skipSpace value = value := by
  obtain ⟨hne, hbytes⟩ := isValue_bytes h
  obtain ⟨b, tail, rfl⟩ := List.exists_cons_of_ne_nil hne
  have hskip := Json.skipSpace_cons (s := tail) (hbytes b List.mem_cons_self).1
  exact ⟨hskip, hskip⟩

/-- The labels of a sample are read up to its value. -/
theorem readLabels_append (hesc : ∀ b, Escapes b (esc b))
    (hlabels : ∀ label ∈ labels, isName isLabelByte label.1 = true)
    (hvalue : isValue value = true) :
    ∃ r, readLabels (labelsText esc labels ++ 0x20 :: value) = some (labels, r) ∧
      Json.skipSpace r = value := by
  obtain ⟨hskip, hself⟩ := skipSpace_value hvalue
  rw [readLabels, labelsText]
  split_ifs with hnil
  · obtain ⟨hne, hbytes⟩ := isValue_bytes hvalue
    obtain ⟨b, tail, rfl⟩ := List.exists_cons_of_ne_nil hne
    rw [List.nil_append, hskip]
    simp only [if_neg (hbytes b List.mem_cons_self).2.1, hnil]
    exact ⟨_, rfl, hself⟩
  · let items := labels.map fun label => (label, labelText esc label)
    have hitems : ∀ i ∈ items, Json.Reads readLabel i.1 i.2 := by
      intro i hi
      obtain ⟨label, hlabel, rfl⟩ := List.mem_map.1 hi
      exact reads_label hesc (hlabels label hlabel)
    have hfirst : ∀ i ∈ items, ∃ b tail, Json.skipSpace i.2 = b :: tail ∧ b ≠ 0x7d := by
      intro i hi
      obtain ⟨label, hlabel, rfl⟩ := List.mem_map.1 hi
      obtain ⟨b, tail, hskip, -, hb⟩ := starts_labelText esc (hlabels label hlabel) []
      exact ⟨b, tail, by rwa [List.append_nil] at hskip, hb⟩
    have hread : Json.readBracketed readLabel 0x7d
        ([0x2c].intercalate (items.map Prod.snd) ++ 0x7d :: 0x20 :: value) =
          some (items.map Prod.fst, 0x20 :: value) :=
      Json.readBracketed_of_items (by decide) (by decide) (by decide)
        (by simpa [items] using hnil) hitems hfirst
    have hopen : Json.skipSpace
        (0x7b :: [0x2c].intercalate (labels.map (labelText esc)) ++ [0x7d] ++ 0x20 :: value) =
        0x7b :: ([0x2c].intercalate (items.map Prod.snd) ++ 0x7d :: 0x20 :: value) := by
      simp [items, Json.skipSpace_cons, Json.isSpace, Function.comp_def]
    rw [hopen]
    simp only [if_true, hread]
    exact ⟨_, by simp [items, Function.comp_def], hskip⟩

/-- A sample is read. -/
theorem readSample_text (hesc : ∀ b, Escapes b (esc b)) (h : s.WellFormed) :
    readSample (s.text esc) = some s := by
  obtain ⟨r, hread, hskip⟩ := readLabels_append hesc h.labels h.value
  have hstop : ∀ b ∈ (labelsText esc s.labels ++ 0x20 :: s.value).head?,
      isMetricByte b = false := by
    rw [labelsText]
    split_ifs
    · rintro b ⟨⟩
      rfl
    · rintro b ⟨⟩
      rfl
  have hname := readName_append h.metric hstop
  rw [readSample, Sample.text, List.append_assoc, hname]
  simp [hread, hskip, h.value]

/-! ## Lines -/

/-- What is no white space is no line feed. -/
theorem feed_not_mem {t : List UInt8} (h : ∀ b ∈ t, Json.isSpace b = false) : (0x0a : UInt8) ∉ t :=
  fun hfeed => Bool.noConfusion (h _ hfeed)

/-- A name does not hold a line feed. -/
theorem feed_not_mem_of_isName (hp : ∀ b, p b = true → isMetricByte b = true)
    (h : isName p name = true) : (0x0a : UInt8) ∉ name := by
  rw [isName, Bool.and_eq_true] at h
  exact feed_not_mem fun b hb =>
    (isMetricByte_delimiters b (hp b (List.all_eq_true.1 h.1 b hb))).1

/-- An escape does not hold a line feed. -/
theorem Escapes.feed_not_mem {b : UInt8} {text : List UInt8} (h : Escapes b text) :
    (0x0a : UInt8) ∉ text := by
  cases h with
  | raw _ _ hfeed => simpa using hfeed.symm
  | escaped h =>
    rintro (_ | ⟨_, _ | ⟨_, hnil⟩⟩)
    · cases h
    · cases hnil

/-- A label does not hold a line feed. -/
theorem feed_not_mem_labelText (hesc : ∀ b, Escapes b (esc b))
    (h : isName isLabelByte label.1 = true) : (0x0a : UInt8) ∉ labelText esc label := by
  have hname := feed_not_mem_of_isName (fun b hb => by simp [isMetricByte, hb]) h
  have hvalue : (0x0a : UInt8) ∉ label.2.flatMap esc := fun hmem => by
    obtain ⟨b, -, hb⟩ := List.mem_flatMap.1 hmem
    exact (hesc b).feed_not_mem hb
  simp [labelText, hname, hvalue]

/-- A sample is one line. -/
theorem feed_not_mem_text (hesc : ∀ b, Escapes b (esc b)) (h : s.WellFormed) :
    (0x0a : UInt8) ∉ s.text esc := by
  have hname := feed_not_mem_of_isName (fun _ hb => hb) h.metric
  have hvalue := feed_not_mem fun b hb => ((isValue_bytes h.value).2 b hb).1
  have hlabels : (0x0a : UInt8) ∉ labelsText esc s.labels := by
    rw [labelsText]
    split_ifs
    · exact List.not_mem_nil
    · have hjoin : (0x0a : UInt8) ∉ [0x2c].intercalate (s.labels.map (labelText esc)) := by
        intro hmem
        obtain hsep | ⟨text, htext, hfeed⟩ := mem_intercalate hmem
        · cases hsep
        · obtain ⟨label, hlabel, rfl⟩ := List.mem_map.1 htext
          exact feed_not_mem_labelText hesc (h.labels label hlabel) hfeed
      simp [hjoin]
  simp [Sample.text, hname, hlabels, hvalue]

/-- A text is cut behind its first line. -/
theorem cut_append (h : (0x0a : UInt8) ∉ line) : cut (line ++ 0x0a :: rest) = line :: cut rest := by
  induction line with
  | nil => rfl
  | cons b line ih =>
    rw [List.mem_cons, not_or] at h
    rw [List.cons_append, cut, if_neg (Ne.symm h.1), ih h.2]

/-- A line is cut off and read. -/
theorem Line.WellFormed.reads (hesc : ∀ b, Escapes b (esc b)) {line : Line} (h : line.WellFormed) :
    (0x0a : UInt8) ∉ line.text esc ∧ readLine (line.text esc) = some line.sample? := by
  cases line with
  | comment text =>
    refine ⟨?_, rfl⟩
    rintro (_ | ⟨_, hfeed⟩)
    exact h hfeed
  | sample s =>
    refine ⟨feed_not_mem_text hesc h, ?_⟩
    obtain ⟨b, tail, hname, hb⟩ := exists_of_isName h.metric
    have hread := readSample_text hesc h
    have hstart : s.text esc = b :: (tail ++ (labelsText esc s.labels ++ 0x20 :: s.value)) := by
      simp [Sample.text, hname]
    rw [Line.text, hstart, readLine, if_neg (isMetricByte_delimiters b hb).2.2.2, ← hstart, hread]
    rfl

/-- The lines of a text that has been written. -/
theorem cut_render (hesc : ∀ b, Escapes b (esc b)) {lines : List Line}
    (h : ∀ line ∈ lines, line.WellFormed) :
    cut (render esc lines) = lines.map (Line.text esc) ++ [[]] := by
  induction lines with
  | nil => rfl
  | cons line lines ih =>
    obtain ⟨hline, hlines⟩ := List.forall_mem_cons.1 h
    rw [render, List.flatMap_cons, List.append_assoc, List.singleton_append,
      cut_append (hline.reads hesc).1]
    exact congrArg (line.text esc :: ·) (ih hlines)

/-- **What is written is read back.** -/
theorem parse_render (hesc : ∀ b, Escapes b (esc b)) {lines : List Line}
    (h : ∀ line ∈ lines, line.WellFormed) :
    parse (render esc lines) = some (lines.filterMap Line.sample?) := by
  have hread : (lines.map (Line.text esc)).mapM readLine = some (lines.map Line.sample?) := by
    rw [mapM_eq_some_iff, List.forall₂_map_left_iff, List.forall₂_map_right_iff,
      List.forall₂_same]
    exact fun line hline => ((h line hline).reads hesc).2
  rw [parse, cut_render hesc h, if_pos (by simp), List.dropLast_concat, hread, Option.map_some,
    List.filterMap_map]
  rfl

end

end Jevt.Library.Exposition
