import Mathlib.Data.List.Nodup
import Jevt.Laya.Head

/-!
# Sequences are bounded and cannot be forged

A sequence that the ONNX adapter accepts is at most as long as the model allows, and its markers are
exactly the positions of the mask id, one for each option (`packing_bounded`). User text makes no
further one: what is encoded does not contain the mask token, whatever it was made of. In a head
that is long enough for its options the question has room for 16 ids, and no subtraction wraps
around.
-/

namespace Jevt

open Library

/-! ## Markers -/

/-- An option that starts with its mark and has no other. -/
def Marked (maskId : Int) (ids : List Int) : Prop :=
  ∃ tail, ids = maskId :: tail ∧ maskId ∉ tail

/-- What is left of an option has one mark, which it starts with. -/
theorem Marked.take {maskId : Int} {ids : List Int} (h : Marked maskId ids) {n : Nat} (hn : 0 < n) :
    Marked maskId (ids.take n) := by
  obtain ⟨tail, rfl, htail⟩ := h
  obtain ⟨n, rfl⟩ := Nat.exists_eq_add_of_lt hn
  refine ⟨tail.take n, by simp, fun hmem => htail (List.mem_of_mem_take hmem)⟩

/-- The positions at which options start that are put behind each other from a position on. -/
def markersFrom : Nat → List (List Int) → List Nat
  | _, [] => []
  | start, ids :: rest => start :: markersFrom (start + ids.length) rest

/-- The loop over the options puts them behind each other and marks where they start. -/
theorem layOut_eq (sequence : List Int) (markers : List Nat) (options : List (List Int)) :
    layOut sequence markers options =
      (sequence ++ options.flatten, markers ++ markersFrom sequence.length options) := by
  induction options generalizing sequence markers with
  | nil => simp [layOut, markersFrom]
  | cons ids options ih => simp [layOut, markersFrom, ih]

/-- There are as many markers as options. -/
theorem length_markersFrom (start : Nat) (options : List (List Int)) :
    (markersFrom start options).length = options.length := by
  induction options generalizing start with
  | nil => rfl
  | cons ids options ih => rw [markersFrom, List.length_cons, List.length_cons, ih]

/-- No option starts before the first. -/
theorem le_of_mem_markersFrom {start i : Nat} {options : List (List Int)}
    (h : i ∈ markersFrom start options) : start ≤ i := by
  induction options generalizing start with
  | nil => cases h
  | cons ids options ih =>
    rcases List.mem_cons.1 h with rfl | h
    · exact Nat.le_refl _
    · exact (Nat.le_add_right _ _).trans (ih h)

/-- No option starts behind the last. -/
theorem markersFrom_le_of_mem {start i : Nat} {options : List (List Int)}
    (h : i ∈ markersFrom start options) : i ≤ start + options.flatten.length := by
  induction options generalizing start with
  | nil => cases h
  | cons ids options ih =>
    rw [List.flatten_cons, List.length_append]
    rcases List.mem_cons.1 h with rfl | h
    · exact Nat.le_add_right _ _
    · have hle := ih h
      omega

/-- The markers of options that are not empty increase. -/
theorem pairwise_markersFrom {options : List (List Int)} (h : ∀ ids ∈ options, ids ≠ [])
    (start : Nat) : (markersFrom start options).Pairwise (· < ·) := by
  induction options generalizing start with
  | nil => exact .nil
  | cons ids options ih =>
    obtain ⟨hids, hrest⟩ := List.forall_mem_cons.1 h
    refine List.pairwise_cons.2 ⟨fun i hi => ?_, ih hrest _⟩
    have hle := le_of_mem_markersFrom hi
    have hpos := List.length_pos_of_ne_nil hids
    omega

/-- A value that only a middle part has is at the positions it has there. -/
theorem getElem?_append_middle {α : Type} {pre mid post : List α} {a : α} (hpre : a ∉ pre)
    (hpost : a ∉ post) {i : Nat} :
    (pre ++ mid ++ post)[i]? = some a ↔ ∃ j, i = pre.length + j ∧ mid[j]? = some a := by
  constructor
  · intro h
    rcases Nat.lt_or_ge i pre.length with hlt | hge
    · rw [List.append_assoc, List.getElem?_append_left hlt] at h
      exact absurd (List.mem_of_getElem? h) hpre
    · rw [List.append_assoc, List.getElem?_append_right hge] at h
      rcases Nat.lt_or_ge (i - pre.length) mid.length with hlt | hge'
      · rw [List.getElem?_append_left hlt] at h
        exact ⟨i - pre.length, by omega, h⟩
      · rw [List.getElem?_append_right hge'] at h
        exact absurd (List.mem_of_getElem? h) hpost
  · rintro ⟨j, rfl, hj⟩
    have hlt : j < mid.length := (List.getElem?_eq_some_iff.1 hj).1
    rw [List.append_assoc, List.getElem?_append_right (by omega), Nat.add_sub_cancel_left,
      List.getElem?_append_left hlt, hj]

/-- The markers are the positions of the marks. -/
theorem mem_markersFrom_iff {maskId : Int} {options : List (List Int)}
    (h : ∀ ids ∈ options, Marked maskId ids) {start i : Nat} :
    i ∈ markersFrom start options ↔ ∃ j, i = start + j ∧ options.flatten[j]? = some maskId := by
  induction options generalizing start with
  | nil => simp [markersFrom]
  | cons ids options ih =>
    obtain ⟨⟨tail, rfl, htail⟩, hrest⟩ := List.forall_mem_cons.1 h
    rw [markersFrom, List.mem_cons, ih hrest, List.flatten_cons]
    constructor
    · rintro (rfl | ⟨j, rfl, hj⟩)
      · exact ⟨0, rfl, rfl⟩
      · refine ⟨(maskId :: tail).length + j, by omega, ?_⟩
        rw [List.getElem?_append_right (Nat.le_add_right _ _), Nat.add_sub_cancel_left, hj]
    · rintro ⟨j, rfl, hj⟩
      cases j with
      | zero => exact .inl rfl
      | succ j =>
        rw [List.cons_append, List.getElem?_cons_succ] at hj
        rcases Nat.lt_or_ge j tail.length with hlt | hge
        · rw [List.getElem?_append_left hlt] at hj
          exact absurd (List.mem_of_getElem? hj) htail
        · rw [List.getElem?_append_right hge] at hj
          exact .inr ⟨j - tail.length, by rw [List.length_cons]; omega, hj⟩

namespace LayaBundle

variable {sub : Nat → Nat → Nat} {bundle : LayaBundle}

/-! ## Heads -/

/-- The mask token is removed from every text: it is a token without a space, and no fixed part of a
text contains it. -/
structure MaskRemoved (bundle : LayaBundle) : Prop where
  nonempty : bundle.maskToken ≠ []
  noSpace : (0x20 : UInt8) ∉ bundle.maskToken
  prefixes : ∀ kind : QuestionKind, ¬bundle.maskToken <:+: kind.typeName ++ lit " question: "

/-- The mask token is reserved: the tokenizer emits its id for texts with the token only, from which
it is removed, and the other special ids are different. -/
structure MaskReserved (bundle : LayaBundle) : Prop extends MaskRemoved bundle where
  emitted : ∀ text, bundle.maskId ∈ bundle.encode text → bundle.maskToken <:+: text
  clsId : bundle.clsId ≠ bundle.maskId
  sepId : bundle.sepId ≠ bundle.maskId

/-- The fixed part in front of a question ends with a space. -/
theorem typeName_append (kind : QuestionKind) :
    kind.typeName ++ lit " question: " = kind.typeName ++ lit " question:" ++ [0x20] := by
  rw [List.append_assoc]
  rfl

/-- The fixed part in front of an option does not contain the mask token. -/
theorem MaskRemoved.space (h : MaskRemoved bundle) : ¬bundle.maskToken <:+: [] ++ [0x20] := by
  intro hwithin
  obtain ⟨b, hb⟩ := List.exists_mem_of_ne_nil _ h.nonempty
  obtain rfl := List.mem_singleton.1 (hwithin.subset hb)
  exact h.noSpace hb

/-- A question has no mark. -/
theorem MaskReserved.questionIds (h : MaskReserved bundle) (kind : QuestionKind) (question : Bytes)
    (options : List (List Int)) :
    bundle.maskId ∉ bundle.questionIds sub kind question options := by
  intro hmem
  have hwithin := h.emitted _ (List.mem_of_mem_take hmem)
  have hfront := h.prefixes kind
  rw [typeName_append] at hwithin hfront
  exact not_infix_append_replaceAll h.nonempty h.noSpace hfront hwithin

/-- A state has no mark. -/
theorem MaskReserved.encodeState (h : MaskReserved bundle) (input : Bytes) :
    bundle.maskId ∉ bundle.encodeState input := fun hmem =>
  not_infix_replaceAll h.nonempty h.noSpace input (h.emitted _ (List.mem_of_mem_take hmem))

/-- An option has one mark, which it starts with. -/
theorem MaskReserved.encodeOption (h : MaskReserved bundle) (option : Bytes) :
    Marked bundle.maskId (bundle.encodeOption option) := by
  refine ⟨_, rfl, fun hmem => ?_⟩
  exact not_infix_append_replaceAll h.nonempty h.noSpace h.space
    (h.emitted _ (List.mem_of_mem_take hmem))

/-- An option may keep its mark. -/
theorem perOption_pos (count : Nat) : 4 ≤ bundle.perOption sub count :=
  Nat.le_max_left _ _

/-- The options of a head start with a mark. -/
theorem limitOptions_ne_nil (options : List Bytes) :
    ∀ ids ∈ bundle.limitOptions sub (options.map bundle.encodeOption), ids ≠ [] := by
  have hall : ∀ ids ∈ options.map bundle.encodeOption, ids ≠ [] :=
    List.forall_mem_map.2 fun option _ => List.cons_ne_nil _ _
  unfold LayaBundle.limitOptions
  split
  · refine List.forall_mem_map.2 fun ids hids => ?_
    have hpos : 4 ≤ bundle.perOption sub (options.map bundle.encodeOption).length :=
      perOption_pos _
    rw [Ne, List.take_eq_nil_iff, not_or]
    exact ⟨by omega, hall ids hids⟩
  · exact hall

/-- The options of a head have one mark each, which they start with. -/
theorem MaskReserved.limitOptions (h : MaskReserved bundle) (options : List Bytes) :
    ∀ ids ∈ bundle.limitOptions sub (options.map bundle.encodeOption),
      Marked bundle.maskId ids := by
  have hall : ∀ ids ∈ options.map bundle.encodeOption, Marked bundle.maskId ids :=
    List.forall_mem_map.2 fun option _ => h.encodeOption option
  unfold LayaBundle.limitOptions
  split
  · refine List.forall_mem_map.2 fun ids hids => (hall ids hids).take ?_
    have hpos : 4 ≤ bundle.perOption sub (options.map bundle.encodeOption).length :=
      perOption_pos _
    omega
  · exact hall

/-- There are as many options after they have been cut. -/
theorem length_limitOptions (options : List (List Int)) :
    (bundle.limitOptions sub options).length = options.length := by
  unfold LayaBundle.limitOptions
  split
  · rw [List.length_map]
  · rfl

/-- What a head is made of. -/
theorem computeHead_eq (kind : QuestionKind) (question : Bytes) (options : List Bytes) :
    bundle.computeHead sub kind question options =
      let limited := bundle.limitOptions sub (options.map bundle.encodeOption)
      let start := bundle.clsId :: bundle.questionIds sub kind question limited ++ [bundle.sepId]
      ⟨start ++ limited.flatten ++ [bundle.sepId], markersFrom start.length limited⟩ := by
  unfold computeHead
  simp only [layOut_eq, List.nil_append]

/-- A head has as many markers as options. -/
theorem length_markers_computeHead (kind : QuestionKind) (question : Bytes)
    (options : List Bytes) :
    (bundle.computeHead sub kind question options).markers.length = options.length := by
  rw [computeHead_eq]
  dsimp only
  rw [length_markersFrom, length_limitOptions, List.length_map]

/-- The markers of a head increase. -/
theorem pairwise_markers (kind : QuestionKind) (question : Bytes) (options : List Bytes) :
    (bundle.computeHead sub kind question options).markers.Pairwise (· < ·) := by
  rw [computeHead_eq]
  exact pairwise_markersFrom (limitOptions_ne_nil options) _

/-- The markers of a head are inside of it. -/
theorem markers_lt_length (kind : QuestionKind) (question : Bytes) (options : List Bytes) :
    ∀ marker ∈ (bundle.computeHead sub kind question options).markers,
      marker < (bundle.computeHead sub kind question options).ids.length := by
  rw [computeHead_eq]
  intro marker hmarker
  have hle := markersFrom_le_of_mem hmarker
  dsimp only at hle ⊢
  rw [List.length_append, List.length_append, List.length_singleton]
  omega

/-- In a sequence that goes on with a head and a text without a mark, the marks are at the markers
of the head. -/
theorem MaskReserved.marks_iff (h : MaskReserved bundle) (kind : QuestionKind) (question : Bytes)
    (options : List Bytes) {rest : List Int} (hrest : bundle.maskId ∉ rest) (i : Nat) :
    ((bundle.computeHead sub kind question options).ids ++ rest)[i]? = some bundle.maskId ↔
      i ∈ (bundle.computeHead sub kind question options).markers := by
  rw [computeHead_eq]
  dsimp only
  have hsep : bundle.maskId ∉ [bundle.sepId] := by
    rw [List.mem_singleton]
    exact h.sepId.symm
  have hpost : bundle.maskId ∉ [bundle.sepId] ++ rest := by
    rw [List.mem_append, not_or]
    exact ⟨hsep, hrest⟩
  have hpre : bundle.maskId ∉ bundle.clsId :: bundle.questionIds sub kind question
      (bundle.limitOptions sub (options.map bundle.encodeOption)) ++ [bundle.sepId] := by
    rw [List.mem_append, List.mem_cons, not_or, not_or]
    exact ⟨⟨h.clsId.symm, h.questionIds kind question _⟩, hsep⟩
  rw [List.append_assoc _ [bundle.sepId], getElem?_append_middle hpre hpost,
    mem_markersFrom_iff (h.limitOptions options)]

/-! ## Sequences -/

/-- A sequence that keeps all markers of its head is the head with some of the state and a
separator, cut at the length of the model. -/
theorem buildSequence_kept {head : PreparedHead} {state : List Int}
    (h : (bundle.buildSequence sub head state).2.length = head.markers.length) :
    (bundle.buildSequence sub head state).2 = head.markers ∧
      (∀ marker ∈ head.markers, marker < (bundle.buildSequence sub head state).1.length) ∧
      (bundle.buildSequence sub head state).1 = (head.ids ++
        (state.take (bundle.stateBudget sub head) ++ [bundle.sepId])).take bundle.maxLen := by
  have hall := List.length_filter_eq_length_iff.1 h
  refine ⟨List.filter_eq_self.2 hall, fun marker hmarker => of_decide_eq_true (hall marker hmarker),
    ?_⟩
  unfold buildSequence
  dsimp only
  rw [List.append_assoc]

/-- A row that is accepted has the sequence and the markers of its head and its state. -/
theorem item_eq_ok {request : InferenceRequest} {item : LayaItem}
    (h : bundle.item sub request = .ok item) :
    ∃ options, renderOptions request = .ok options ∧ item.options = options ∧
      item.markers.length = options.length ∧
      (item.ids, item.markers) = bundle.buildSequence sub
        (bundle.computeHead sub request.questionKind request.question options)
        (bundle.encodeState request.input) := by
  unfold LayaBundle.item at h
  split at h
  · cases h
  · next options hoptions =>
    unfold makeItem at h
    dsimp only at h
    split at h
    · cases h
    · next hmarkers =>
      obtain rfl := Except.ok.inj h
      exact ⟨options, hoptions, rfl, not_not.1 hmarkers, rfl⟩

/-- An accepted sequence: it fits the model, and its markers are exactly the positions of the mask
id, one for each option. -/
structure Packed (bundle : LayaBundle) (item : LayaItem) : Prop where
  bounded : item.ids.length ≤ bundle.maxLen
  first : item.ids.head? = some bundle.clsId
  count : item.markers.length = item.options.length
  increasing : item.markers.Pairwise (· < ·)
  inside : ∀ marker ∈ item.markers, marker < item.ids.length
  marks : ∀ i : Nat, item.ids[i]? = some bundle.maskId ↔ i ∈ item.markers

/-- A noul question has descriptions of both answers. -/
theorem localNoulCriteria_ne_nil {request : InferenceRequest} {options : List Bytes}
    (h : localNoulCriteria request = .ok options) : options ≠ [] := by
  unfold localNoulCriteria at h
  split at h
  · obtain rfl := Except.ok.inj h
    exact List.cons_ne_nil _ _
  · obtain rfl := Except.ok.inj h
    exact List.cons_ne_nil _ _
  · cases h

/-- A request has options. -/
theorem renderOptions_ne_nil {request : InferenceRequest} {options : List Bytes}
    (h : renderOptions request = .ok options) : options ≠ [] := by
  unfold renderOptions at h
  split at h
  · cases hcriteria : localNoulCriteria request with
    | error failure =>
      rw [hcriteria] at h
      cases h
    | ok criteria =>
      rw [hcriteria] at h
      obtain rfl := Except.ok.inj h
      exact localNoulCriteria_ne_nil hcriteria
  · split at h
    · cases h
    · next hnonempty =>
      split at h
      · cases h
      · obtain rfl := Except.ok.inj h
        rwa [Ne, List.mapIdx_eq_nil_iff]

/-- An accepted row is packed. -/
theorem MaskReserved.packed (h : MaskReserved bundle) {request : InferenceRequest} {item : LayaItem}
    (hitem : bundle.item sub request = .ok item) : Packed bundle item := by
  obtain ⟨options, hoptions, hitemOptions, hlength, hsequence⟩ := item_eq_ok hitem
  have hids := congrArg Prod.fst hsequence
  have hmarkers := congrArg Prod.snd hsequence
  dsimp only at hids hmarkers
  rw [hmarkers] at hlength
  obtain ⟨hkept, hinside, hbuilt⟩ := buildSequence_kept
    (hlength.trans (length_markers_computeHead _ _ _).symm)
  rw [← hmarkers] at hlength hkept
  rw [← hids] at hinside hbuilt
  generalize bundle.stateBudget sub _ = budget at hbuilt
  have hrest : bundle.maskId ∉
      (bundle.encodeState request.input).take budget ++ [bundle.sepId] := by
    rw [List.mem_append, not_or, List.mem_singleton]
    exact ⟨fun hmem => h.encodeState _ (List.mem_of_mem_take hmem), h.sepId.symm⟩
  have hnonempty : item.ids ≠ [] := by
    intro hnil
    have hpos : item.markers ≠ [] := by
      rw [← List.length_pos_iff, hlength, List.length_pos_iff]
      exact renderOptions_ne_nil hoptions
    obtain ⟨marker, hmarker⟩ := List.exists_mem_of_ne_nil _ hpos
    have hlt := hinside marker (hkept ▸ hmarker)
    rw [hnil] at hlt
    exact absurd hlt (Nat.not_lt_zero _)
  refine ⟨?_, ?_, ?_, ?_, hkept ▸ hinside, fun i => ?_⟩
  · rw [hbuilt]
    exact List.length_take_le _ _
  · have hmax : bundle.maxLen ≠ 0 := fun hzero => hnonempty (by
      rw [hbuilt, hzero, List.take_zero])
    rw [hbuilt, List.head?_take, if_neg hmax, computeHead_eq]
    rfl
  · rw [hlength, hitemOptions]
  · rw [hkept]
    exact pairwise_markers _ _ _
  · rw [hkept, ← h.marks_iff request.questionKind request.question options hrest i]
    constructor
    · intro hi
      rw [hbuilt, List.getElem?_take] at hi
      split at hi
      · exact hi
      · cases hi
    · intro hi
      have hlt := hinside i ((h.marks_iff _ _ _ hrest i).1 hi)
      rw [hbuilt, List.length_take] at hlt
      rw [hbuilt, List.getElem?_take, if_pos (hlt.trans_le (Nat.min_le_left _ _))]
      exact hi

/-! ## Budgets -/

/-- A subtraction that is exact where it does not go below zero. -/
def Subtracts (sub : Nat → Nat → Nat) : Prop :=
  ∀ a b, b ≤ a → sub a b = a - b

/-- The subtraction of `std::size_t` is one. -/
theorem subtracts_sizeSub : Subtracts sizeSub := fun _ _ h => sizeSub_of_le h

/-- The share of an option does not go below zero. -/
theorem perOption_eq (h : Subtracts sub) (count : Nat) :
    bundle.perOption sub count =
      max 4 ((bundle.headMaxLen - min bundle.headMaxLen 16) / max 1 count) := by
  rw [perOption, h _ _ (Nat.min_le_left _ _)]

/-- The budget of a question does not go below zero. -/
theorem headBudget_eq (h : Subtracts sub) (total : Nat) :
    bundle.headBudget sub total =
      if total < bundle.headMaxLen then bundle.headMaxLen - total else 8 := by
  unfold headBudget
  split
  · next hlt => rw [h _ _ hlt.le]
  · rfl

/-- The room of a state does not go below zero. -/
theorem room_eq (h : Subtracts sub) (head : PreparedHead) :
    bundle.room sub head = bundle.maxLen - head.ids.length - 1 := by
  unfold room
  split
  · next hlt => rw [h bundle.maxLen head.ids.length (by omega), h _ 1 (by omega)]
  · omega

/-- A head is the same for every subtraction. -/
theorem computeHead_congr (h : Subtracts sub) (kind : QuestionKind) (question : Bytes)
    (options : List Bytes) :
    bundle.computeHead sub kind question options =
      bundle.computeHead sizeSub kind question options := by
  have hlimited : ∀ options, bundle.limitOptions sub options =
      bundle.limitOptions sizeSub options := by
    intro options
    rw [LayaBundle.limitOptions, LayaBundle.limitOptions, perOption_eq h,
      perOption_eq subtracts_sizeSub]
  unfold computeHead LayaBundle.questionIds
  simp only [hlimited, headBudget_eq h, headBudget_eq subtracts_sizeSub]

/-- A row is the same for every subtraction. -/
theorem item_congr (h : Subtracts sub) (request : InferenceRequest) :
    bundle.item sub request = bundle.item sizeSub request := by
  unfold LayaBundle.item makeItem buildSequence stateBudget
  simp only [computeHead_congr h, room_eq h, room_eq subtracts_sizeSub]

/-- Options that are cut to a share take no more than their shares. -/
theorem optionTotal_map_take_le (options : List (List Int)) (per : Nat) :
    optionTotal (options.map (List.take per)) ≤ options.length * per := by
  induction options with
  | nil => simp [optionTotal]
  | cons ids options ih =>
    simp only [optionTotal, List.map_cons, List.sum_cons, List.length_take,
      List.length_cons] at ih ⊢
    rw [Nat.succ_mul]
    omega

/-- Options that are few enough leave 16 ids to the question. -/
theorem optionTotal_limitOptions {options : List (List Int)} (h : Subtracts sub)
    (hfew : 16 + 4 * options.length ≤ bundle.headMaxLen) :
    optionTotal (bundle.limitOptions sub options) + 16 ≤ bundle.headMaxLen := by
  unfold LayaBundle.limitOptions
  split
  · next hlong =>
    have htotal := optionTotal_map_take_le options (bundle.perOption sub options.length)
    have hcount : 0 < options.length := by
      refine List.length_pos_iff.2 ?_
      rintro rfl
      simp [optionTotal] at hlong
      omega
    have hshare : bundle.perOption sub options.length =
        (bundle.headMaxLen - 16) / options.length := by
      rw [perOption_eq h, Nat.min_eq_right (by omega), Nat.max_eq_right hcount, Nat.max_eq_right]
      rw [Nat.le_div_iff_mul_le hcount]
      omega
    have hshares := Nat.mul_div_le (bundle.headMaxLen - 16) options.length
    rw [hshare] at htotal ⊢
    omega
  · next hshort => omega

/-- A head with room: the question and the options are within the limit of a head, and the question
is cut at 16 ids or more. -/
def Roomy (bundle : LayaBundle) (kind : QuestionKind) (question : Bytes) (options : List Bytes) :
    Prop :=
  ∃ (questionIds : List Int) (limited : List (List Int)) (budget : Nat),
    (bundle.computeHead sizeSub kind question options).ids =
      bundle.clsId :: questionIds ++ [bundle.sepId] ++ limited.flatten ++ [bundle.sepId] ∧
    limited.length = options.length ∧
    questionIds.length + limited.flatten.length ≤ bundle.headMaxLen ∧
    questionIds = (bundle.encode
      (kind.typeName ++ lit " question: " ++ bundle.scrub question)).take budget ∧
    16 ≤ budget ∧ budget + limited.flatten.length ≤ bundle.headMaxLen

/-- A head that is long enough for its options has room for the question. -/
theorem roomy_of_few {kind : QuestionKind} {question : Bytes} {options : List Bytes}
    (hfew : 16 + 4 * options.length ≤ bundle.headMaxLen) : Roomy bundle kind question options := by
  have htotal : optionTotal (bundle.limitOptions sizeSub (options.map bundle.encodeOption)) + 16 ≤
      bundle.headMaxLen :=
    optionTotal_limitOptions subtracts_sizeSub (by rw [List.length_map]; exact hfew)
  rw [optionTotal, ← List.length_flatten] at htotal
  have hcomputed := @computeHead_eq sizeSub bundle kind question options
  have hcount : (bundle.limitOptions sizeSub (options.map bundle.encodeOption)).length =
      options.length := by
    rw [length_limitOptions, List.length_map]
  dsimp only at hcomputed
  generalize bundle.limitOptions sizeSub (options.map bundle.encodeOption) = limited at *
  have hbudget : max 8 (bundle.headBudget sizeSub (optionTotal limited)) =
      bundle.headMaxLen - limited.flatten.length := by
    rw [headBudget_eq subtracts_sizeSub, optionTotal, ← List.length_flatten, if_pos (by omega)]
    omega
  have hquestion : bundle.questionIds sizeSub kind question limited =
      (bundle.encode (kind.typeName ++ lit " question: " ++ bundle.scrub question)).take
        (bundle.headMaxLen - limited.flatten.length) := by
    rw [LayaBundle.questionIds, hbudget]
  refine ⟨_, limited, bundle.headMaxLen - limited.flatten.length,
    congrArg PreparedHead.ids hcomputed, hcount, ?_, hquestion, ?_, ?_⟩
  · rw [hquestion, List.length_take]
    omega
  · omega
  · omega

/-! ## The main result -/

/-- What the packing of the ONNX adapter keeps. -/
structure Packs (bundle : LayaBundle) : Prop where
  /-- A row that is accepted is packed with the options of its request. -/
  packed : ∀ request item, bundle.item sizeSub request = .ok item →
    renderOptions request = .ok item.options ∧ Packed bundle item
  /-- A head that is long enough for its options has room for the question. -/
  roomy : ∀ kind question options, 16 + 4 * options.length ≤ bundle.headMaxLen →
    Roomy bundle kind question options
  /-- No subtraction wraps around: what it would give does not matter. -/
  exact : ∀ sub, Subtracts sub → ∀ request,
    bundle.item sub request = bundle.item sizeSub request

/-- **Sequences are bounded and cannot be forged.** With a reserved mask token, whatever the limits
of the model and the texts of a request are, an accepted sequence fits the model and has the mask id
at its markers only, one for each option. -/
theorem packing_bounded (h : bundle.MaskReserved) : Packs bundle where
  packed := fun request item hitem => by
    obtain ⟨options, hoptions, hitemOptions, -⟩ := item_eq_ok hitem
    exact ⟨hitemOptions ▸ hoptions, h.packed hitem⟩
  roomy := fun _ _ _ hfew => roomy_of_few hfew
  exact := fun _ hsub request => item_congr hsub request

/-! ## An instance -/

/-- A tokenizer with an id for each byte, and the id 4 for a mask token; the number is that of the
bytes of a token that are still to be skipped. -/
def byteIds (maskToken : Bytes) : Nat → Bytes → List Int
  | _, [] => []
  | skip + 1, _ :: rest => byteIds maskToken skip rest
  | 0, c :: rest =>
    if maskToken.isPrefixOf (c :: rest) then 4 :: byteIds maskToken (maskToken.length - 1) rest
    else (c.toNat + 10 : Int) :: byteIds maskToken 0 rest

/-- A bundle with a tokenizer of bytes. -/
def byteBundle : LayaBundle where
  encode := byteIds (lit "[MASK]") 0
  maskToken := lit "[MASK]"
  clsId := 1
  sepId := 2
  maskId := 4
  padId := 3
  maxLen := 512
  headMaxLen := 192

/-- The mask id stands for a mask token. -/
theorem infix_of_mem_byteIds {maskToken : Bytes} {skip : Nat} {text : Bytes}
    (h : (4 : Int) ∈ byteIds maskToken skip text) : maskToken <:+: text := by
  induction text generalizing skip with
  | nil => cases h
  | cons c rest ih =>
    cases skip with
    | succ skip => exact (ih h).trans (List.suffix_cons c rest).isInfix
    | zero =>
      rw [byteIds] at h
      split at h
      · next hfront => exact (List.isPrefixOf_iff_prefix.1 hfront).isInfix
      · rcases List.mem_cons.1 h with h | h
        · omega
        · exact (ih h).trans (List.suffix_cons c rest).isInfix

/-- Its mask token is reserved. -/
theorem maskReserved_byteBundle : byteBundle.MaskReserved where
  emitted := fun _ h => infix_of_mem_byteIds h
  nonempty := by decide
  noSpace := by decide
  prefixes := fun kind => by cases kind <;> decide
  clsId := by decide
  sepId := by decide

/-- The packing with a tokenizer of bytes. -/
theorem packing_bounded_bytes : Packs byteBundle :=
  packing_bounded maskReserved_byteBundle

/-- A mask token in a question does not add a mark. -/
example : (byteBundle.item sizeSub
    { question := lit "[MA[MASK]SK]?", input := lit "[MASK]", options := [lit "a", lit "b"] }).map
      LayaItem.markers = .ok [27, 30] := by
  decide

end LayaBundle

end Jevt
