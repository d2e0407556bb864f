import Jevt.Laya.NativeBatch

/-!
# The loop of the native adapter over its requests

The loop takes the turn of each request (`LayaBundle.nativeTurn`), whatever is in the cache and in
the table of states (`collect_eq`). Behind it there is a response for each request, and a row for
each that has one, with the number of its request (`placeTurns_eq`).
-/

namespace Jevt

open Library

/-! ## The cache and the table of states -/

section Heads

variable {bundle : LayaBundle} {limits : HeadLimits} {store : NativeStore}

/-- Every stored head is what its call would make. -/
abbrev NativeStore.Sound (bundle : LayaBundle) (limits : HeadLimits) (store : NativeStore) : Prop :=
  Remembers QuestionKind.typeByte limits
    (fun call head => bundle.nativeHeadOf call = .ok head) store

/-- A call returns the head it would make, and keeps the cache sound. -/
theorem NativeStore.Sound.prepareHead (h : NativeStore.Sound bundle limits store) (call : HeadCall)
    (capacities : Capacities) :
    (nativePrepareHead bundle limits store call capacities).1 = bundle.nativeHeadOf call ∧
      NativeStore.Sound bundle limits
        (nativePrepareHead bundle limits store call capacities).2 := by
  unfold nativePrepareHead
  dsimp only
  split
  · next found hfound =>
    split at hfound
    · exact ⟨(h.found QuestionKind.typeByte_injective hfound).symm, h⟩
    · cases hfound
  · next hmissed =>
    cases hmade : bundle.nativeHeadOf call with
    | error failure => exact ⟨rfl, h⟩
    | ok head =>
      dsimp only
      split
      · next hstores =>
        rw [if_pos hstores.1] at hmissed
        refine ⟨rfl, ?_⟩
        exact @Remembers.insert _ _ _ _ _ _ _ _ _ true h LayaBundle.subtracts_sizeSub hstores.2
          (HeadLimits.entries_ne_zero hstores.1) (not_mem_of_lookup_eq_none hmissed) hmade
      · exact ⟨rfl, h⟩

end Heads

/-- The turn of a request, from its head and its state. -/
theorem LayaBundle.nativeTurn_eq (bundle : LayaBundle) (request : InferenceRequest) :
    bundle.nativeTurn request =
      match LayaBundle.nativeLabels request with
      | .error failure => .error failure
      | .ok labels =>
        if request.questionKind = .choice ∧ request.options.length = 1 then .ok .certain
        else
          match bundle.nativeHeadOf ⟨request.questionKind, request.question, labels⟩ with
          | .error failure => .error failure
          | .ok head =>
            .ok (.row (bundle.makeRow request.questionKind labels head
              (bundle.nativeState request.input))) := by
  unfold LayaBundle.nativeTurn
  cases LayaBundle.nativeLabels request with
  | error failure => rfl
  | ok labels =>
    dsimp only [bind, Except.bind]
    split
    · rfl
    · unfold LayaBundle.nativeHeadOf
      cases bundle.nativeHead request.questionKind request.question labels <;> rfl

/-! ## The loop over the requests -/

namespace NativeTurn

/-- The row of a request, if it has one. -/
def row? : NativeTurn → Option NativeRow
  | .certain => none
  | .row made => some made

/-- The usage that is reported for a request. -/
def usage : NativeTurn → TokenUsage
  | .certain => {}
  | .row made => made.usage

end NativeTurn

namespace NativeLocals

/-- What a turn does to the variables. -/
def placeTurn (modelId : Bytes) (index : Nat) (locals : NativeLocals) : NativeTurn → NativeLocals
  | .certain => locals.placeCertain modelId index
  | .row row => locals.placeRow modelId index row

/-- What the loop over the requests does to the variables. -/
def placeTurns (modelId : Bytes) : Nat → NativeLocals → List NativeTurn → NativeLocals
  | _, locals, [] => locals
  | index, locals, turn :: rest =>
    placeTurns modelId (index + 1) (locals.placeTurn modelId index turn) rest

end NativeLocals

namespace NativeBackend

variable {backend : NativeBackend}

/-- A state is what the encoding makes of its input, also where it is taken from the table. -/
theorem stateOf_eq {states : List (Bytes × List Int)} {input : Bytes}
    (h : ∀ entry ∈ states, entry.2 = backend.bundle.nativeState entry.1) :
    (backend.stateOf states input).1 = backend.bundle.nativeState input ∧
      ∀ entry ∈ (backend.stateOf states input).2,
        entry.2 = backend.bundle.nativeState entry.1 :=
  recalled_eq h

/-- **The loop over the requests takes the turn of each.** It keeps the cache sound. -/
theorem collect_eq {capacities : Nat → Capacities} {index : Nat} {requests : List InferenceRequest}
    {locals : NativeLocals} {store : NativeStore} {states : List (Bytes × List Int)}
    (hstore : NativeStore.Sound backend.bundle backend.limits store)
    (hstates : ∀ entry ∈ states, entry.2 = backend.bundle.nativeState entry.1) :
    (backend.collect capacities index requests locals store states).1 =
        (requests.mapM backend.bundle.nativeTurn).map
          (locals.placeTurns backend.bundle.modelId index) ∧
      NativeStore.Sound backend.bundle backend.limits
        (backend.collect capacities index requests locals store states).2 := by
  induction requests generalizing index locals store states with
  | nil => exact ⟨rfl, hstore⟩
  | cons request rest ih =>
    rw [collect, List.mapM_cons, LayaBundle.nativeTurn_eq]
    cases LayaBundle.nativeLabels request with
    | error failure => exact ⟨rfl, hstore⟩
    | ok labels =>
      dsimp only
      split
      · obtain ⟨hrest, hsound⟩ := @ih (index + 1)
          (locals.placeCertain backend.bundle.modelId index) _ _ hstore hstates
        refine ⟨?_, hsound⟩
        rw [hrest]
        cases rest.mapM backend.bundle.nativeTurn <;> rfl
      · obtain ⟨hhead, hstore'⟩ := hstore.prepareHead
          ⟨request.questionKind, request.question, labels⟩ (capacities index)
        obtain ⟨hstate, hstates'⟩ := @stateOf_eq backend _ request.input hstates
        rw [← hhead, ← hstate]
        generalize nativePrepareHead _ _ _ _ _ = prepared at *
        obtain ⟨made, store'⟩ := prepared
        cases made with
        | error failure => exact ⟨rfl, hstore'⟩
        | ok head =>
          dsimp only
          generalize hrow : LayaBundle.makeRow _ _ _ _ _ = row
          obtain ⟨hrest, hsound⟩ := @ih (index + 1)
            (locals.placeRow backend.bundle.modelId index row) _ _ hstore' hstates'
          refine ⟨?_, hsound⟩
          rw [hrest]
          cases rest.mapM backend.bundle.nativeTurn <;> rfl

end NativeBackend

/-! ## The rows of a batch -/

/-- The rows of the requests that have one, in their order. -/
def rowsOf (turns : List NativeTurn) : List NativeRow :=
  turns.filterMap NativeTurn.row?

@[simp] theorem rowsOf_certain (turns : List NativeTurn) :
    rowsOf (.certain :: turns) = rowsOf turns := rfl

@[simp] theorem rowsOf_row (row : NativeRow) (turns : List NativeTurn) :
    rowsOf (.row row :: turns) = row :: rowsOf turns := rfl

/-- The numbers of the requests that have a row. -/
def rowIndices : Nat → List NativeTurn → List Nat
  | _, [] => []
  | index, .certain :: rest => rowIndices (index + 1) rest
  | index, .row _ :: rest => index :: rowIndices (index + 1) rest

/-- A response of the native adapter. -/
def nativeResponse (modelId : Bytes) (index : Nat) (scores : List Floating) :
    InferenceResponse where
  scores := scores
  modelId := modelId
  metadata := { provider := lit "laya.cpp", usage := some index }

/-- The scores of a request before its row is decoded. -/
def NativeTurn.blank : NativeTurn → List Floating
  | .certain => [.finite 1]
  | .row _ => []

/-- The responses behind the loop over the requests. -/
def blankResponses (modelId : Bytes) : Nat → List NativeTurn → List InferenceResponse
  | _, [] => []
  | index, turn :: rest =>
    nativeResponse modelId index turn.blank :: blankResponses modelId (index + 1) rest

/-- `batch.length`, behind the loop over the requests. -/
def nativeLength (rows : List NativeRow) : Nat :=
  rows.foldl (fun length row => max length row.ids.length) 8

/-- `batch.options`, behind the loop over the requests. -/
def nativeOptionCount (rows : List NativeRow) : Nat :=
  rows.foldl (fun count row => max count row.labels.length) 2

/-- The fields of a batch that the loop over the requests sets. -/
def rowFields (rows : List NativeRow) : NativeBatch where
  length := nativeLength rows
  options := nativeOptionCount rows
  lengths := rows.map fun row => (row.ids.length : Int)
  counts := rows.map fun row => (row.labels.length : Int)
  types := rows.map fun row => (row.kind.qtype : Int)

/-- A row whose sequence and labels fit the model. -/
structure NativeRow.Bounded (row : NativeRow) : Prop where
  ids : row.ids.length ≤ 1024
  labels : row.labels.length ≤ 255

/-- A row has at most 255 labels. -/
theorem LayaBundle.length_nativeLabels_le {request : InferenceRequest} {labels : List Bytes}
    (h : nativeLabels request = .ok labels) : labels.length ≤ 255 := by
  unfold nativeLabels at h
  split at h
  · unfold localNoulCriteria at h
    split at h
    · obtain rfl := Except.ok.inj h
      exact Nat.le_of_ble_eq_true rfl
    · obtain rfl := Except.ok.inj h
      exact Nat.le_of_ble_eq_true rfl
    · cases h
  · split at h
    · cases h
    · next hcount =>
      split at h
      · cases h
      · obtain rfl := Except.ok.inj h
        rw [List.length_mapIdx]
        omega

/-- A row that a request has fits the model. -/
theorem LayaBundle.bounded_of_nativeTurn {bundle : LayaBundle}
    (hmax : bundle.maxLen = 512 ∨ bundle.maxLen = 1024) {request : InferenceRequest}
    {row : NativeRow} (h : bundle.nativeTurn request = .ok (.row row)) : row.Bounded := by
  rw [nativeTurn_eq] at h
  split at h
  · cases h
  · next labels hlabels =>
    split at h
    · cases h
    · split at h
      · cases h
      · next head _ =>
        obtain rfl := NativeTurn.row.inj (Except.ok.inj h)
        refine ⟨?_, length_nativeLabels_le hlabels⟩
        have hlength := List.length_take_le bundle.maxLen
          (head.ids ++ (bundle.nativeState request.input).take
            (if head.ids.length + 1 < bundle.maxLen then
              sizeSub (sizeSub bundle.maxLen head.ids.length) 1 else 0) ++ [bundle.sepId])
        exact hlength.trans (by omega)

/-- What the loop over the requests does to the variables, behind a part of the requests. -/
theorem placeTurns_append (modelId : Bytes) {turns : List NativeTurn}
    (hbounded : ∀ row ∈ rowsOf turns, row.Bounded) {index : Nat}
    {responses : List InferenceResponse} {reports : List TokenUsage}
    (hresponses : responses.length = index) (hreports : reports.length = index) (rows : List Nat)
    (sequences markers : List (List Int)) (calibration : List Floating) (length options : Nat)
    (lengths counts types : List Int) :
    NativeLocals.placeTurns modelId index
        { responses := responses ++ List.replicate turns.length { scores := [], modelId := [] }
          reports := reports ++ List.replicate turns.length {}
          rows := rows
          sequences := sequences
          markers := markers
          calibration := calibration
          batch :=
            { length := length
              options := options
              lengths := lengths
              counts := counts
              types := types } } turns =
      { responses := responses ++ blankResponses modelId index turns
        reports := reports ++ turns.map NativeTurn.usage
        rows := rows ++ rowIndices index turns
        sequences := sequences ++ (rowsOf turns).map NativeRow.ids
        markers := markers ++ (rowsOf turns).map NativeRow.markers
        calibration := calibration ++ (rowsOf turns).map NativeRow.calibration
        batch :=
          { length := ((rowsOf turns).foldl (fun n row => max n row.ids.length) length : Nat)
            options := ((rowsOf turns).foldl (fun n row => max n row.labels.length) options : Nat)
            lengths := lengths ++ (rowsOf turns).map fun row => (row.ids.length : Int)
            counts := counts ++ (rowsOf turns).map fun row => (row.labels.length : Int)
            types := types ++ (rowsOf turns).map fun row => (row.kind.qtype : Int) } } := by
  induction turns generalizing index responses reports rows sequences markers calibration length
    options lengths counts types with
  | nil => simp [NativeLocals.placeTurns, blankResponses, rowIndices, rowsOf]
  | cons turn rest ih =>
    have hnext : (responses ++ [nativeResponse modelId index turn.blank]).length = index + 1 := by
      simp [hresponses]
    have hnext' : (reports ++ [turn.usage]).length = index + 1 := by
      simp [hreports]
    rw [NativeLocals.placeTurns, List.length_cons, List.replicate_succ, List.replicate_succ]
    cases turn with
    | certain =>
      simp only [NativeLocals.placeTurn, NativeLocals.placeCertain, NativeLocals.respond,
        set_append_cons hresponses, set_append_cons hreports]
      refine (ih hbounded hnext hnext' _ _ _ _ _ _ _ _ _).trans ?_
      simp [blankResponses, rowIndices, nativeResponse, NativeTurn.blank, NativeTurn.usage]
    | row row =>
      obtain ⟨hrow, hrest⟩ := List.forall_mem_cons.1 hbounded
      have hsmall : (1024 : Nat) ≤ intMax := by decide
      have hids : int32 row.ids.length = row.ids.length :=
        LayaBundle.int32_of_le (hrow.ids.trans hsmall)
      have hlabels : int32 row.labels.length = row.labels.length :=
        LayaBundle.int32_of_le (hrow.labels.trans (by omega))
      have hmax : ∀ m n : Nat, max (m : Int) n = (max m n : Nat) := by omega
      simp only [NativeLocals.placeTurn, NativeLocals.placeRow, NativeLocals.respond,
        set_append_cons hresponses, set_append_cons hreports, hids, hlabels, hmax]
      refine (ih hrest hnext hnext' _ _ _ _ _ _ _ _ _).trans ?_
      simp [blankResponses, rowIndices, nativeResponse, NativeTurn.blank, NativeTurn.usage]

/-- **The variables behind the loop over the requests**: a response for each request, and a row for
each that has one. -/
theorem placeTurns_eq (modelId : Bytes) {turns : List NativeTurn}
    (hbounded : ∀ row ∈ rowsOf turns, row.Bounded) :
    (NativeLocals.start turns.length).placeTurns modelId 0 turns =
      { responses := blankResponses modelId 0 turns
        reports := turns.map NativeTurn.usage
        rows := rowIndices 0 turns
        sequences := (rowsOf turns).map NativeRow.ids
        markers := (rowsOf turns).map NativeRow.markers
        calibration := (rowsOf turns).map NativeRow.calibration
        batch := rowFields (rowsOf turns) } :=
  @placeTurns_append modelId turns hbounded 0 [] [] rfl rfl [] [] [] [] 8 2 [] [] []

end Jevt
