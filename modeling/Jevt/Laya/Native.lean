import Mathlib.Data.List.Pairwise
import Jevt.Laya.Packing

/-!
# The native adapter builds the same rows

How `src/laya_native.cpp` turns a request into token ids (`nativeTurn`), and that the rows of both
adapters agree: with one bundle they reject a request both, or make the same ids, the same markers
and the same usage of it (`adapters_agree`). The native adapter removes the mask token after it has
put a text together, applies the limit of the context once, and looks at the last marker before the
state follows the head.

Positions are `std::int32_t` there, and `int32` is the conversion to it.
-/

namespace Jevt

open Library

/-- A conversion to `std::int32_t`. -/
def int32 (n : Nat) : Int := Int.bmod n (2 ^ 32)

/-- `std::numeric_limits<int>::max()`. -/
def intMax : Nat := 2147483647

/-- `laya_native_backend::impl::head`. -/
structure NativeHead where
  ids : List Int
  markers : List Int
  deriving DecidableEq, Repr

/-- A row of a native batch. -/
structure NativeRow where
  labels : List Bytes
  ids : List Int
  markers : List Int
  kind : QuestionKind
  usage : TokenUsage
  calibration : Floating
  deriving DecidableEq

/-- The error of an exception that leaves the `try` of the native `predict_batch`. -/
def nativeError : StdException → Error
  | .invalidArgument what => { code := .invalidRequest, message := what }
  | failure => { code := .backendFailure, message := lit "native Laya: " ++ failure.what }

/-- What the loop over the requests makes of one: a choice with one option is certain, and has no
row. -/
inductive NativeTurn where
  | certain
  | row (row : NativeRow)

/-- The loop over the options of a native head. -/
def nativeLayOut : List Int → List Int → List (List Int) → List Int × List Int
  | sequence, markers, [] => (sequence, markers)
  | sequence, markers, ids :: rest =>
    nativeLayOut (sequence ++ ids) (markers ++ [int32 sequence.length]) rest

namespace LayaBundle

variable (bundle : LayaBundle)

/-- `encode`. -/
def nativeEncode (text : Bytes) : List Int :=
  bundle.encode (replaceAll bundle.maskToken (lit " ") text)

/-- The options of a native head, cut where they leave less than 16 ids to the question. -/
def nativeOptions (labels : List Bytes) : List (List Int) :=
  let encoded := labels.map fun label =>
    bundle.maskId :: (bundle.nativeEncode (lit " " ++ label)).take 48
  if bundle.headMaxLen < optionTotal encoded + 16 then
    encoded.map (List.take
      (max 4 (sizeSub bundle.headMaxLen (min bundle.headMaxLen 16) / labels.length)))
  else encoded

/-- `prepare_head`, as far as it makes a head. -/
def nativeHead (kind : QuestionKind) (question : Bytes) (labels : List Bytes) :
    Except StdException NativeHead :=
  let heading := bundle.nativeEncode (kind.typeName ++ lit " question: " ++ question)
  let encoded := bundle.nativeOptions labels
  let used := optionTotal encoded
  let budget := if used < bundle.headMaxLen then sizeSub bundle.headMaxLen used else 8
  let start := bundle.clsId :: heading.take (max 8 budget) ++ [bundle.sepId]
  let (ids, markers) := nativeLayOut start [] encoded
  if int32 bundle.maxLen ≤ markers.getLastD 0 then
    .error (.invalidArgument (lit "native options exceed the sequence limit"))
  else .ok ⟨ids ++ [bundle.sepId], markers⟩

/-- The labels of a row, with the checks before them. -/
def nativeLabels (request : InferenceRequest) : Except StdException (List Bytes) :=
  match request.questionKind with
  | .noul => localNoulCriteria request
  | kind =>
    if request.options = [] ∨ 255 < request.options.length then
      .error (.invalidArgument (lit "native choice/score requires 1 through 255 options"))
    else if kind = .score ∧ (request.options.length < 2 ∨ 10 < request.options.length) then
      .error (.invalidArgument (lit "native score requires 2 through 10 levels"))
    else .ok (request.options.mapIdx (renderOption kind))

/-- The sequence of a row: its head, its state and a separator. -/
def nativeSequence (head : NativeHead) (input : Bytes) : List Int :=
  let limit :=
    if bundle.contextTokenLimit ≠ 0 then min bundle.maxLen bundle.contextTokenLimit
    else bundle.maxLen
  let state := (bundle.nativeEncode input).take limit
  let room :=
    if head.ids.length + 1 < bundle.maxLen then sizeSub (sizeSub bundle.maxLen head.ids.length) 1
    else 0
  (head.ids ++ state.take room ++ [bundle.sepId]).take bundle.maxLen

/-- The turn of the loop over the requests. -/
def nativeTurn (request : InferenceRequest) : Except StdException NativeTurn := do
  let labels ← nativeLabels request
  if request.questionKind = .choice ∧ request.options.length = 1 then .ok .certain
  else
    let head ← bundle.nativeHead request.questionKind request.question labels
    let sequence := bundle.nativeSequence head request.input
    .ok (.row ⟨labels, sequence, head.markers, request.questionKind,
      { inputTokens := UInt64.ofNat sequence.length },
      bundle.temperature request.questionKind labels.length⟩)

/-- Whether the markers of a row are those of its options and inside its sequence. -/
def nativeFits (row : NativeRow) : Bool :=
  decide (row.markers.length = row.labels.length) &&
    row.markers.all fun marker => decide (0 ≤ marker ∧ marker < int32 row.ids.length)

/-- The row of a request that is predicted alone. -/
def nativeItem (request : InferenceRequest) : Result NativeTurn :=
  if intMax / bundle.maxLen < 1 then
    .error
      { code := .invalidRequest, message := lit "native batch dimensions exceed int limits" }
  else
    match bundle.nativeTurn request with
    | .error failure => .error (nativeError failure)
    | .ok .certain => .ok .certain
    | .ok (.row row) =>
      if intMax / max (max 8 row.ids.length) (max 2 row.labels.length) < 1 then
        .error
          { code := .invalidRequest, message := lit "native tensor dimensions exceed int limits" }
      else if !nativeFits row then
        .error
          { code := .invalidRequest, message := lit "native option markers exceed their sequence" }
      else .ok (.row row)

/-- The row the ONNX adapter makes of a request that is predicted alone. -/
def soleItem (request : InferenceRequest) : Result LayaItem :=
  match bundle.item sizeSub request with
  | .error failure => .error failure
  | .ok item =>
    if (sizeModulus - 1) / max (max 8 item.ids.length) (max 2 item.markers.length) < 1 then
      .error { code := .invalidRequest, message := lit "Laya batch dimensions overflow" }
    else .ok item

/-! ## One encoding -/

variable {bundle}

/-- The native adapter encodes a question as the ONNX adapter does. -/
theorem MaskRemoved.nativeEncode_question (h : MaskRemoved bundle) (kind : QuestionKind)
    (question : Bytes) :
    bundle.nativeEncode (kind.typeName ++ lit " question: " ++ question) =
      bundle.encode (kind.typeName ++ lit " question: " ++ bundle.scrub question) := by
  have hfront := h.prefixes kind
  rw [typeName_append] at hfront ⊢
  rw [nativeEncode, replaceAll_append_of_not_infix h.noSpace hfront]
  rfl

/-- The native adapter encodes an option as the ONNX adapter does. -/
theorem MaskRemoved.nativeEncode_option (h : MaskRemoved bundle) (option : Bytes) :
    bundle.nativeEncode (lit " " ++ option) = bundle.encode (lit " " ++ bundle.scrub option) := by
  have hkept : replaceAll bundle.maskToken (lit " ") (lit " " ++ option) =
      lit " " ++ replaceAll bundle.maskToken (lit " ") option :=
    replaceAll_append_of_not_infix h.noSpace h.space
  rw [nativeEncode]
  exact congrArg bundle.encode hkept

/-- The options of a native head are those of the ONNX adapter. -/
theorem MaskRemoved.nativeOptions_eq (h : MaskRemoved bundle) {labels : List Bytes}
    (hlabels : labels ≠ []) :
    bundle.nativeOptions labels =
      bundle.limitOptions sizeSub (labels.map bundle.encodeOption) := by
  have hencoded : (labels.map fun label =>
      bundle.maskId :: (bundle.nativeEncode (lit " " ++ label)).take 48) =
        labels.map bundle.encodeOption :=
    List.map_congr_left fun label _ => by rw [h.nativeEncode_option, encodeOption]
  have hcount : max 1 (labels.map bundle.encodeOption).length = labels.length := by
    rw [List.length_map]
    exact Nat.max_eq_right (List.length_pos_iff.2 hlabels)
  unfold nativeOptions LayaBundle.limitOptions perOption
  rw [hencoded, hcount]

/-- The loop over the options marks where they start. -/
theorem nativeLayOut_eq (sequence : List Int) (markers : List Int) (options : List (List Int)) :
    nativeLayOut sequence markers options =
      (sequence ++ options.flatten,
        markers ++ (markersFrom sequence.length options).map int32) := by
  induction options generalizing sequence markers with
  | nil => simp [nativeLayOut, markersFrom]
  | cons ids options ih => simp [nativeLayOut, markersFrom, ih]

/-- A native head is that of the ONNX adapter, or rejected for its last marker. -/
theorem MaskRemoved.nativeHead_eq (h : MaskRemoved bundle) (kind : QuestionKind) (question : Bytes)
    {labels : List Bytes} (hlabels : labels ≠ []) :
    bundle.nativeHead kind question labels =
      let head := bundle.computeHead sizeSub kind question labels
      if int32 bundle.maxLen ≤ (head.markers.map int32).getLastD 0 then
        .error (.invalidArgument (lit "native options exceed the sequence limit"))
      else .ok ⟨head.ids, head.markers.map int32⟩ := by
  have hquestion : (bundle.nativeEncode (kind.typeName ++ lit " question: " ++ question)).take
      (max 8 (if optionTotal (bundle.nativeOptions labels) < bundle.headMaxLen then
        sizeSub bundle.headMaxLen (optionTotal (bundle.nativeOptions labels)) else 8)) =
      bundle.questionIds sizeSub kind question
        (bundle.limitOptions sizeSub (labels.map bundle.encodeOption)) := by
    rw [h.nativeEncode_question, h.nativeOptions_eq hlabels]
    rfl
  unfold nativeHead
  dsimp only
  rw [hquestion, nativeLayOut_eq, h.nativeOptions_eq hlabels, computeHead_eq]
  rfl

/-- Both adapters put the same state behind a head. -/
theorem nativeSequence_eq (head : PreparedHead) (markers : List Int) (input : Bytes) :
    bundle.nativeSequence ⟨head.ids, markers⟩ input =
      (bundle.buildSequence sizeSub head (bundle.encodeState input)).1 := by
  have hstate : ∀ full : List Int, ∀ room : Nat,
      (full.take (if bundle.contextTokenLimit ≠ 0 then min bundle.maxLen bundle.contextTokenLimit
        else bundle.maxLen)).take room =
      (full.take (if bundle.contextTokenLimit ≠ 0 then min bundle.maxLen bundle.contextTokenLimit
        else bundle.maxLen)).take
          (if bundle.contextTokenLimit ≠ 0 then min room bundle.contextTokenLimit else room) := by
    intro full room
    rw [List.take_take, List.take_take]
    split
    · congr 1
      omega
    · rfl
  unfold nativeSequence buildSequence LayaBundle.encodeState stateBudget
  dsimp only
  rw [← hstate]
  rfl

/-! ## Positions fit 32 bits -/

/-- A small position is itself as a `std::int32_t`. -/
theorem int32_of_le {n : Nat} (h : n ≤ intMax) : int32 n = n := by
  have hsmall : n ≤ 2147483647 := h
  refine Int.bmod_eq_of_le_mul_two ?_ ?_
  · omega
  · omega

/-- An option of a head has at most 49 ids. -/
theorem length_le_of_mem_limitOptions (options : List Bytes) :
    ∀ ids ∈ bundle.limitOptions sizeSub (options.map bundle.encodeOption), ids.length ≤ 49 := by
  have hall : ∀ ids ∈ options.map bundle.encodeOption, ids.length ≤ 49 := by
    refine List.forall_mem_map.2 fun option _ => ?_
    rw [encodeOption, List.length_cons, List.length_take]
    omega
  unfold LayaBundle.limitOptions
  split
  · refine List.forall_mem_map.2 fun ids hids => ?_
    exact (List.length_take_le' _ _).trans (hall ids hids)
  · exact hall

/-- Lists of bounded length are not much longer behind each other. -/
theorem length_flatten_le {options : List (List Int)} {k : Nat}
    (h : ∀ ids ∈ options, ids.length ≤ k) : options.flatten.length ≤ options.length * k := by
  induction options with
  | nil => simp
  | cons ids options ih =>
    obtain ⟨hids, hrest⟩ := List.forall_mem_cons.1 h
    have hle := ih hrest
    rw [List.flatten_cons, List.length_append, List.length_cons, Nat.succ_mul]
    omega

/-- A head is not much longer than its limit. -/
theorem length_computeHead_le (kind : QuestionKind) (question : Bytes) (options : List Bytes) :
    (bundle.computeHead sizeSub kind question options).ids.length ≤
      bundle.headMaxLen + 49 * options.length + 11 := by
  have htotal : (bundle.limitOptions sizeSub (options.map bundle.encodeOption)).flatten.length ≤
      options.length * 49 := by
    have hle := length_flatten_le (@length_le_of_mem_limitOptions bundle options)
    rwa [length_limitOptions, List.length_map] at hle
  have hbudget : ∀ total, max 8 (bundle.headBudget sizeSub total) ≤ bundle.headMaxLen + 8 := by
    intro total
    rw [headBudget_eq subtracts_sizeSub]
    split <;> omega
  rw [computeHead_eq]
  simp only [List.length_append, List.length_cons, List.length_nil, LayaBundle.questionIds,
    List.length_take]
  have hquestion := hbudget
    (optionTotal (bundle.limitOptions sizeSub (options.map bundle.encodeOption)))
  omega

/-! ## One decision -/

/-- The requests for which both adapters run the model: a noul question, a score with 2 to 10
levels, a choice with 2 to 255 options. -/
def Answerable (request : InferenceRequest) : Prop :=
  match request.questionKind with
  | .noul => True
  | .score => 2 ≤ request.options.length ∧ request.options.length ≤ 10
  | .choice => 2 ≤ request.options.length ∧ request.options.length ≤ 255

/-- A request that both adapters run the model for is not a choice with one option. -/
theorem Answerable.not_certain {request : InferenceRequest} (h : Answerable request) :
    ¬(request.questionKind = .choice ∧ request.options.length = 1) := by
  rintro ⟨hkind, hcount⟩
  rw [Answerable, hkind] at h
  dsimp only at h
  omega

/-- Both adapters put the same texts into a head, or reject a request for the same reason. -/
theorem nativeLabels_eq {request : InferenceRequest} (h : Answerable request) :
    (∃ labels, renderOptions request = .ok labels ∧ nativeLabels request = .ok labels ∧
      labels.length ≤ 255) ∨
    ∃ what, renderOptions request = .error { code := .invalidRequest, message := what } ∧
      nativeLabels request = .error (.invalidArgument what) := by
  unfold Answerable at h
  unfold renderOptions nativeLabels
  cases hkind : request.questionKind with
  | noul =>
    dsimp only
    unfold localNoulCriteria
    split
    · exact .inl ⟨_, rfl, rfl, Nat.le_of_ble_eq_true rfl⟩
    · exact .inl ⟨_, rfl, rfl, Nat.le_of_ble_eq_true rfl⟩
    · exact .inr ⟨_, rfl, rfl⟩
  | score =>
    rw [hkind] at h
    dsimp only at h ⊢
    have hnonempty : request.options ≠ [] := List.ne_nil_of_length_pos (by omega)
    refine .inl ⟨request.options.mapIdx (renderOption .score), ?_, ?_, ?_⟩
    · rw [if_neg hnonempty, if_neg (by omega)]
    · rw [if_neg (by rw [not_or]; exact ⟨hnonempty, by omega⟩), if_neg (by omega)]
    · rw [List.length_mapIdx]
      omega
  | choice =>
    rw [hkind] at h
    dsimp only at h ⊢
    have hnonempty : request.options ≠ [] := List.ne_nil_of_length_pos (by omega)
    refine .inl ⟨request.options.mapIdx (renderOption .choice), ?_, ?_, ?_⟩
    · rw [if_neg hnonempty, if_neg (fun hscore => nomatch hscore.1)]
    · rw [if_neg (by rw [not_or]; exact ⟨hnonempty, by omega⟩),
        if_neg (fun hscore => nomatch hscore.1)]
    · rw [List.length_mapIdx]
      omega

/-- Positions that increase are all below a bound when the last of them is. -/
theorem forall_lt_iff_getLastD {markers : List Nat} (h : markers.Pairwise (· < ·))
    (hne : markers ≠ []) {n : Nat} : (∀ marker ∈ markers, marker < n) ↔ markers.getLastD 0 < n := by
  have hlast : markers.getLastD 0 = markers.getLast hne := by
    rw [List.getLastD_eq_getLast?, List.getLast?_eq_some_getLast hne, Option.getD_some]
  rw [hlast]
  constructor
  · intro hall
    exact hall _ (List.getLast_mem hne)
  · intro hlt marker hmarker
    have hle : markers.Pairwise (· ≤ ·) := h.imp Nat.le_of_lt
    exact Nat.lt_of_le_of_lt (hle.rel_getLast hmarker) hlt

/-! ## The main result -/

/-- What the adapters make of a request is the same: it is invalid to both, or it becomes a row with
the same ids, markers and usage. -/
def SameRow : Result LayaItem → Result NativeTurn → Prop
  | .ok item, .ok (.row row) =>
    row.ids = item.ids ∧ row.markers = item.markers.map Int.ofNat ∧ row.usage = item.usage
  | .error failure, .error failure' =>
    failure.code = .invalidRequest ∧ failure'.code = .invalidRequest
  | _, _ => False

/-- A head of a request that both adapters answer has its positions in 32 bits. -/
theorem length_head_le (hhead : bundle.headMaxLen ≤ 1024) (kind : QuestionKind) (question : Bytes)
    {labels : List Bytes} (hfew : labels.length ≤ 255) :
    (bundle.computeHead sizeSub kind question labels).ids.length ≤ intMax := by
  have hle := @length_computeHead_le bundle kind question labels
  have hsmall : 1024 + 49 * 255 + 11 ≤ intMax := by decide
  omega

/-- The product of one row with the tensor of a model does not leave 32 bits. -/
theorem one_le_intMax_div {a b : Nat} (ha : a ≤ 1024) (hb : b ≤ 255) :
    1 ≤ intMax / max (max 8 a) (max 2 b) := by
  have hmax : max (max 8 a) (max 2 b) ≤ 1024 := by omega
  have hpos : 0 < max (max 8 a) (max 2 b) := by omega
  have hsmall : 1024 ≤ intMax := by decide
  exact (Nat.le_div_iff_mul_le hpos).2 (by omega)

/-- Small positions are themselves as `std::int32_t`s. -/
theorem map_int32 {markers : List Nat} (h : ∀ marker ∈ markers, marker ≤ intMax) :
    markers.map int32 = markers.map Int.ofNat :=
  List.map_congr_left fun marker hmarker => int32_of_le (h marker hmarker)

section Rows

variable {request : InferenceRequest} {labels : List Bytes}

/-- The last marker of a head. -/
abbrev lastMarker (bundle : LayaBundle) (request : InferenceRequest) (labels : List Bytes) : Nat :=
  (bundle.computeHead sizeSub request.questionKind request.question labels).markers.getLastD 0

/-- A sequence keeps the markers of its head when the model is long enough for the last of them. -/
theorem kept_iff (hlabels : labels ≠ []) (state : List Int) :
    (bundle.buildSequence sizeSub
      (bundle.computeHead sizeSub request.questionKind request.question labels) state).2.length =
        labels.length ↔ bundle.lastMarker request labels < bundle.maxLen := by
  have hmarks := @length_markers_computeHead sizeSub bundle
    request.questionKind request.question labels
  have hpairwise := @pairwise_markers sizeSub bundle request.questionKind
    request.question labels
  have hinside := @markers_lt_length sizeSub bundle request.questionKind
    request.question labels
  rw [lastMarker, ← hmarks]
  generalize bundle.computeHead sizeSub request.questionKind request.question labels = head at *
  have hne : head.markers ≠ [] := by
    rw [← List.length_pos_iff, hmarks, List.length_pos_iff]
    exact hlabels
  have hlast : head.markers.getLastD 0 < head.ids.length :=
    (forall_lt_iff_getLastD hpairwise hne).1 hinside
  have hlength : (bundle.buildSequence sizeSub head state).1.length = min bundle.maxLen
      (head.ids.length + min (bundle.stateBudget sizeSub head) state.length + 1) := by
    simp only [buildSequence, List.length_take, List.length_append, List.length_singleton]
  have hfilter : (bundle.buildSequence sizeSub head state).2 = head.markers.filter fun marker =>
      marker < (bundle.buildSequence sizeSub head state).1.length := rfl
  rw [hfilter, List.length_filter_eq_length_iff]
  simp only [decide_eq_true_eq]
  rw [forall_lt_iff_getLastD hpairwise hne, hlength]
  omega

/-- The ONNX adapter rejects options that do not fit. -/
theorem soleItem_of_le (honnx : renderOptions request = .ok labels)
    (hlast : bundle.maxLen ≤ bundle.lastMarker request labels) :
    bundle.soleItem request =
      .error
        { code := .invalidRequest,
          message := lit "Laya options do not fit inside head_max_len" } := by
  have hlost : ¬_ := mt (kept_iff
    (renderOptions_ne_nil honnx) (bundle.encodeState request.input)).1 (Nat.not_lt.2 hlast)
  unfold soleItem LayaBundle.item makeItem
  rw [honnx]
  dsimp only
  rw [if_pos hlost]

/-- The ONNX adapter makes a row of options that fit. -/
theorem soleItem_of_lt (hmax : bundle.maxLen = 512 ∨ bundle.maxLen = 1024)
    (honnx : renderOptions request = .ok labels) (hfew : labels.length ≤ 255)
    (hlast : bundle.lastMarker request labels < bundle.maxLen) :
    bundle.soleItem request = .ok
      ⟨labels, (bundle.buildSequence sizeSub
        (bundle.computeHead sizeSub request.questionKind request.question labels)
        (bundle.encodeState request.input)).1,
        (bundle.computeHead sizeSub request.questionKind request.question labels).markers,
        request.questionKind.qtype, bundle.temperature request.questionKind labels.length⟩ := by
  have hcount := (kept_iff
    (renderOptions_ne_nil honnx) (bundle.encodeState request.input)).2 hlast
  have hkept := buildSequence_kept (hcount.trans (length_markers_computeHead _ _ _).symm)
  have hlength : (bundle.buildSequence sizeSub
      (bundle.computeHead sizeSub request.questionKind request.question labels)
      (bundle.encodeState request.input)).1.length ≤ 1024 := by
    rw [hkept.2.2, List.length_take]
    omega
  unfold soleItem LayaBundle.item makeItem
  rw [honnx]
  dsimp only
  rw [if_neg (not_not.2 hcount)]
  dsimp only
  rw [hcount, hkept.1, if_neg]
  rw [Nat.not_lt, Nat.le_div_iff_mul_le (by omega), sizeModulus]
  omega

/-- The head of the native adapter is rejected when its last marker is outside of the model. -/
theorem MaskRemoved.nativeHead_of_small (h : MaskRemoved bundle) (hmax : bundle.maxLen ≤ intMax)
    (hlabels : labels ≠ [])
    (hlength : (bundle.computeHead sizeSub request.questionKind request.question labels).ids.length
      ≤ intMax) :
    bundle.nativeHead request.questionKind request.question labels =
      let head := bundle.computeHead sizeSub request.questionKind request.question labels
      if bundle.maxLen ≤ bundle.lastMarker request labels then
        .error (.invalidArgument (lit "native options exceed the sequence limit"))
      else .ok ⟨head.ids, head.markers.map Int.ofNat⟩ := by
  have hsmall : ∀ marker ∈
      (bundle.computeHead sizeSub request.questionKind request.question labels).markers,
      marker ≤ intMax := fun marker hmarker =>
    (markers_lt_length _ _ _ marker hmarker).le.trans hlength
  have hlast : bundle.lastMarker request labels ≤ intMax := by
    have hpairwise := @pairwise_markers sizeSub bundle request.questionKind
      request.question labels
    refine ((forall_lt_iff_getLastD hpairwise ?_).1 (markers_lt_length _ _ _)).le.trans hlength
    rw [← List.length_pos_iff, length_markers_computeHead, List.length_pos_iff]
    exact hlabels
  have hlastD := List.getLastD_map (f := int32) (a := 0)
    (l := (bundle.computeHead sizeSub request.questionKind request.question labels).markers)
  have hle : int32 bundle.maxLen ≤ int32 (bundle.lastMarker request labels) ↔
      bundle.maxLen ≤ bundle.lastMarker request labels := by
    rw [int32_of_le hmax, int32_of_le hlast, Int.ofNat_le]
  rw [h.nativeHead_eq _ _ hlabels]
  dsimp only
  rw [← map_int32 hsmall]
  refine if_congr ?_ rfl rfl
  rw [← hle, ← hlastD]
  rfl

/-- The native adapter rejects options that do not fit. -/
theorem MaskRemoved.nativeItem_of_le (h : MaskRemoved bundle)
    (hmax : bundle.maxLen = 512 ∨ bundle.maxLen = 1024) (hlabels : labels ≠ [])
    (hlength : (bundle.computeHead sizeSub request.questionKind request.question labels).ids.length
      ≤ intMax) (hnative : nativeLabels request = .ok labels)
    (hcertain : ¬(request.questionKind = .choice ∧ request.options.length = 1))
    (hlast : bundle.maxLen ≤ bundle.lastMarker request labels) :
    bundle.nativeItem request = .error
      { code := .invalidRequest, message := lit "native options exceed the sequence limit" } := by
  have hguard : ¬intMax / bundle.maxLen < 1 := by
    rcases hmax with hmax | hmax <;> rw [hmax] <;> decide
  have hsmall : bundle.maxLen ≤ intMax := by
    rcases hmax with hmax | hmax <;> rw [hmax] <;> decide
  have hhead := h.nativeHead_of_small hsmall hlabels hlength
  dsimp only at hhead
  rw [if_pos hlast] at hhead
  unfold nativeItem nativeTurn
  rw [if_neg hguard, hnative]
  simp only [bind, Except.bind, if_neg hcertain, hhead, nativeError]

/-- The markers of a row fit when there is one inside its sequence for each option. -/
theorem nativeFits_of {row : NativeRow} (hsmall : row.ids.length ≤ intMax)
    (hcount : row.markers.length = row.labels.length)
    (hinside : ∀ marker ∈ row.markers, 0 ≤ marker ∧ marker < row.ids.length) :
    nativeFits row = true := by
  rw [nativeFits, Bool.and_eq_true, List.all_eq_true, int32_of_le hsmall]
  exact ⟨decide_eq_true hcount, fun marker hmarker => decide_eq_true (hinside marker hmarker)⟩

/-- A row within the limits that fits is predicted. -/
theorem nativeItem_of_row {row : NativeRow} (hguard : ¬intMax / bundle.maxLen < 1)
    (hturn : bundle.nativeTurn request = .ok (.row row))
    (hbounded : row.ids.length ≤ 1024) (hfew : row.labels.length ≤ 255)
    (hfits : nativeFits row = true) : bundle.nativeItem request = .ok (.row row) := by
  unfold nativeItem
  rw [if_neg hguard, hturn]
  dsimp only
  rw [if_neg (Nat.not_lt.2 (one_le_intMax_div hbounded hfew)), hfits, if_neg (by decide)]

/-- The native adapter makes a row of options that fit. -/
theorem MaskRemoved.nativeItem_of_lt (h : MaskRemoved bundle)
    (hmax : bundle.maxLen = 512 ∨ bundle.maxLen = 1024) (hlabels : labels ≠ [])
    (hfew : labels.length ≤ 255)
    (hlength : (bundle.computeHead sizeSub request.questionKind request.question labels).ids.length
      ≤ intMax) (hnative : nativeLabels request = .ok labels)
    (hcertain : ¬(request.questionKind = .choice ∧ request.options.length = 1))
    (hlast : bundle.lastMarker request labels < bundle.maxLen) :
    let head := bundle.computeHead sizeSub request.questionKind request.question labels
    let ids := (bundle.buildSequence sizeSub head (bundle.encodeState request.input)).1
    bundle.nativeItem request = .ok (.row ⟨labels, ids, head.markers.map Int.ofNat,
      request.questionKind, { inputTokens := UInt64.ofNat ids.length },
      bundle.temperature request.questionKind labels.length⟩) := by
  have hguard : ¬intMax / bundle.maxLen < 1 := by
    rcases hmax with hmax | hmax <;> rw [hmax] <;> decide
  have hsmall : bundle.maxLen ≤ intMax := by
    rcases hmax with hmax | hmax <;> rw [hmax] <;> decide
  have hhead := h.nativeHead_of_small hsmall hlabels hlength
  dsimp only at hhead
  rw [if_neg (Nat.not_le.2 hlast)] at hhead
  have hkept := buildSequence_kept (((kept_iff hlabels
    (bundle.encodeState request.input)).2 hlast).trans (length_markers_computeHead _ _ _).symm)
  have hcount := @length_markers_computeHead sizeSub bundle
    request.questionKind request.question labels
  have hbounded : (bundle.buildSequence sizeSub
      (bundle.computeHead sizeSub request.questionKind request.question labels)
      (bundle.encodeState request.input)).1.length ≤ 1024 := by
    rw [hkept.2.2, List.length_take]
    omega
  have hsmallIds := hbounded.trans (Nat.le_of_ble_eq_true rfl : 1024 ≤ intMax)
  have hturn : bundle.nativeTurn request = .ok (.row ⟨labels, (bundle.buildSequence sizeSub
      (bundle.computeHead sizeSub request.questionKind request.question labels)
      (bundle.encodeState request.input)).1, (bundle.computeHead sizeSub request.questionKind
        request.question labels).markers.map Int.ofNat, request.questionKind,
      { inputTokens := UInt64.ofNat (bundle.buildSequence sizeSub
        (bundle.computeHead sizeSub request.questionKind request.question labels)
        (bundle.encodeState request.input)).1.length },
      bundle.temperature request.questionKind labels.length⟩) := by
    unfold nativeTurn
    rw [hnative]
    simp only [bind, Except.bind, if_neg hcertain, hhead, nativeSequence_eq]
  refine nativeItem_of_row hguard hturn hbounded hfew ?_
  refine nativeFits_of hsmallIds (by rw [List.length_map, hcount]) ?_
  exact List.forall_mem_map.2 fun marker hmarker =>
    ⟨Int.natCast_nonneg marker, Int.ofNat_lt.2 (hkept.2.1 marker hmarker)⟩

end Rows

/-- **Both adapters build the same rows.** With one tokenizer and one bundle, whatever its limits
and the texts of a request are, the adapters both reject the request as invalid, or make the same
ids, the same markers and the same number of input tokens of it. -/
theorem adapters_agree (h : bundle.MaskRemoved)
    (hmax : bundle.maxLen = 512 ∨ bundle.maxLen = 1024) (hhead : bundle.headMaxLen < bundle.maxLen)
    {request : InferenceRequest} (hanswerable : Answerable request) :
    SameRow (bundle.soleItem request) (bundle.nativeItem request) := by
  rcases nativeLabels_eq hanswerable with ⟨labels, honnx, hnative, hfew⟩ | ⟨what, honnx, hnative⟩
  · have hlabels := renderOptions_ne_nil honnx
    have hlength : (bundle.computeHead sizeSub request.questionKind request.question
        labels).ids.length ≤ intMax := length_head_le (by omega) _ _ hfew
    have hcertain := hanswerable.not_certain
    rcases Nat.lt_or_ge (bundle.lastMarker request labels) bundle.maxLen with hlast | hlast
    · rw [soleItem_of_lt hmax honnx hfew hlast,
        h.nativeItem_of_lt hmax hlabels hfew hlength hnative hcertain hlast]
      exact ⟨rfl, rfl, rfl⟩
    · rw [soleItem_of_le honnx hlast,
        h.nativeItem_of_le hmax hlabels hlength hnative hcertain hlast]
      exact ⟨rfl, rfl⟩
  · rw [soleItem, LayaBundle.item, honnx, nativeItem, nativeTurn, hnative]
    dsimp only [bind, Except.bind]
    split
    · exact ⟨rfl, rfl⟩
    · exact ⟨rfl, rfl⟩

/-- A question with two long options, asked of the tokenizer of bytes. -/
theorem adapters_agree_bytes :
    SameRow
      (byteBundle.soleItem
        { question := lit "[MASK]?", input := [], options := [[], lit "[MASK]"] })
      (byteBundle.nativeItem
        { question := lit "[MASK]?", input := [], options := [[], lit "[MASK]"] }) :=
  adapters_agree maskReserved_byteBundle.toMaskRemoved (.inl rfl) (by decide)
    ⟨by decide, by decide⟩

end LayaBundle

end Jevt
