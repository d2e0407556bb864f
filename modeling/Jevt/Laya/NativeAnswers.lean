import Jevt.Laya.NativeLayout

/-!
# The answers of a native batch

The scores of a row go back to the response of its request (`decodeRows_eq`), so that the response
at each position belongs to the request there (`getElem?_turnResponses`). Where the rows have the
logits they have alone, the answers are those of the requests alone (`answers_turnResponses`).
-/

namespace Jevt

open Library

/-! ## Logits -/

namespace NativeBackend

variable {backend : NativeBackend}

/-- The responses to some requests, from the row and the request with given numbers on. -/
def turnResponses (backend : NativeBackend) (rowLogits : Nat → NativeRow → List Floating) :
    Nat → Nat → List NativeTurn → Result (List InferenceResponse)
  | _, _, [] => .ok []
  | k, index, .certain :: rest =>
    (turnResponses backend rowLogits k (index + 1) rest).map
      (nativeResponse backend.bundle.modelId index [.finite 1] :: ·)
  | k, index, .row row :: rest =>
    match backend.rowScores (rowLogits k row) row.calibration with
    | .error failure => .error failure
    | .ok scores =>
      (turnResponses backend rowLogits (k + 1) (index + 1) rest).map
        (nativeResponse backend.bundle.modelId index scores :: ·)

/-- The logits of a row in a vector of rows of some width. -/
def logitsOf (columns : Nat) (logits : List Floating) (k : Nat) (row : NativeRow) : List Floating :=
  (logits.drop (k * columns)).take row.labels.length

/-- **The loop over the logits puts the scores of each row into the response of its request.** -/
theorem decodeRows_eq {rows : List NativeRow} {columns : Nat} {locals : NativeLocals}
    (hcounts : locals.batch.counts = rows.map fun row => (row.labels.length : Int))
    (hcalibration : locals.calibration = rows.map NativeRow.calibration)
    (hoptions : locals.batch.options = columns) (hsmall : rows.length * columns ≤ intMax)
    (logits : List Floating) {turns : List NativeTurn} {k index : Nat}
    {responses : List InferenceResponse} (hresponses : responses.length = index)
    (hrows : rows.drop k = rowsOf turns) (hindices : locals.rows.drop k = rowIndices index turns) :
    backend.decodeRows locals logits (rowsOf turns).length k
        (responses ++ blankResponses backend.bundle.modelId index turns) =
      some ((backend.turnResponses (logitsOf columns logits) k index turns).map
        (responses ++ ·)) := by
  induction turns generalizing k index responses with
  | nil => simp [rowsOf, decodeRows, blankResponses, turnResponses, Except.map]
  | cons turn rest ih =>
    cases turn with
    | certain =>
      have hnext : (responses ++ [nativeResponse backend.bundle.modelId index
          (NativeTurn.blank .certain)]).length = index + 1 := by
        simp [hresponses]
      have hrest := ih hnext hrows hindices
      rw [List.append_assoc] at hrest
      refine hrest.trans ?_
      rw [turnResponses]
      cases backend.turnResponses (logitsOf columns logits) k (index + 1) rest with
      | error failure => rfl
      | ok rest => simp [Except.map, NativeTurn.blank]
    | row row =>
      obtain ⟨hrow, hrest⟩ := getElem?_of_drop hrows
      obtain ⟨hindex, hindices⟩ := getElem?_of_drop hindices
      have hfirst : k * columns ≤ intMax :=
        offset_le (List.getElem?_eq_some_iff.1 hrow).1 (Nat.zero_le _) hsmall
      have hactive : (logits.drop (k * columns)).take (locals.batch.counts.getD k 0).toNat =
          logitsOf columns logits k row := by
        simp [hcounts, List.getD_eq_getElem?_getD, hrow, logitsOf]
      have htemperature : locals.calibration.getD k .nan = row.calibration := by
        simp [hcalibration, List.getD_eq_getElem?_getD, hrow]
      have htarget : locals.rows.getD k 0 = index := by
        simp [List.getD_eq_getElem?_getD, hindex]
      rw [rowsOf_row, List.length_cons, decodeRows, hoptions, ← Int.natCast_mul,
        checkedInt_natCast hfirst, turnResponses]
      dsimp only
      rw [Int.toNat_natCast, hactive, htemperature, htarget]
      cases backend.rowScores (logitsOf columns logits k row) row.calibration with
      | error failure => rfl
      | ok scores =>
        have hnext : (responses ++ [nativeResponse backend.bundle.modelId index scores]).length =
            index + 1 := by
          simp [hresponses]
        have hdecoded := ih hnext hrest hindices
        dsimp only
        rw [blankResponses, modify_append_cons hresponses]
        refine hdecoded.trans ?_
        cases backend.turnResponses (logitsOf columns logits) (k + 1) (index + 1) rest with
        | error failure => rfl
        | ok rest => simp [Except.map]

/-- Requests without a row are answered without the model. -/
theorem turnResponses_of_nil (rowLogits : Nat → NativeRow → List Floating) {turns : List NativeTurn}
    (h : rowsOf turns = []) (k index : Nat) :
    backend.turnResponses rowLogits k index turns =
      .ok (blankResponses backend.bundle.modelId index turns) := by
  induction turns generalizing index with
  | nil => rfl
  | cons turn rest ih =>
    cases turn with
    | certain =>
      rw [turnResponses, ih h]
      rfl
    | row row => cases h

/-- What a request with a turn is answered alone, where its row has some logits. -/
def aloneResult (backend : NativeBackend) (logits : NativeRow → List Floating)
    (turn : NativeTurn) : Result Predicted :=
  (backend.turnResponses (fun _ => logits) 0 0 [turn]).map fun output => ⟨output, [turn.usage]⟩

/-- The scores that belong to a request, whose row has a given number if it has one. -/
def Scored (backend : NativeBackend) (rowLogits : Nat → NativeRow → List Floating) (k : Nat)
    (scores : List Floating) : NativeTurn → Prop
  | .certain => scores = [.finite 1]
  | .row row => backend.rowScores (rowLogits k row) row.calibration = .ok scores

/-- The rows of a request and of those behind it. -/
theorem rowsOf_cons (turn : NativeTurn) (rest : List NativeTurn) :
    rowsOf (turn :: rest) = rowsOf [turn] ++ rowsOf rest := by
  cases turn <;> rfl

/-- The first request is answered, and those behind it are. -/
theorem turnResponses_cons_eq_ok {rowLogits : Nat → NativeRow → List Floating} {k index : Nat}
    {turn : NativeTurn} {rest : List NativeTurn} {responses : List InferenceResponse} :
    backend.turnResponses rowLogits k index (turn :: rest) = .ok responses ↔
      ∃ scores restResponses, backend.Scored rowLogits k scores turn ∧
        backend.turnResponses rowLogits (k + (rowsOf [turn]).length) (index + 1) rest =
          .ok restResponses ∧
        responses = nativeResponse backend.bundle.modelId index scores :: restResponses := by
  cases turn with
  | certain =>
    have hrank : (rowsOf [NativeTurn.certain]).length = 0 := rfl
    rw [turnResponses, hrank, Nat.add_zero]
    cases backend.turnResponses rowLogits k (index + 1) rest with
    | error failure => simp [Except.map]
    | ok restResponses => simp [Except.map, Scored, eq_comm]
  | row row =>
    have hrank : (rowsOf [NativeTurn.row row]).length = 1 := rfl
    rw [turnResponses, hrank]
    simp only [Scored]
    cases backend.rowScores (rowLogits k row) row.calibration with
    | error failure => simp
    | ok scores =>
      cases backend.turnResponses rowLogits (k + 1) (index + 1) rest with
      | error failure => simp [Except.map]
      | ok restResponses => simp [Except.map, eq_comm]

/-- **Each response belongs to its request**, and has the scores of its row. -/
theorem getElem?_turnResponses {rowLogits : Nat → NativeRow → List Floating} {k index : Nat}
    {turns : List NativeTurn} {responses : List InferenceResponse}
    (h : backend.turnResponses rowLogits k index turns = .ok responses) :
    responses.length = turns.length ∧ ∀ i turn, turns[i]? = some turn →
      ∃ scores, responses[i]? = some (nativeResponse backend.bundle.modelId (index + i) scores) ∧
        backend.Scored rowLogits (k + (rowsOf (turns.take i)).length) scores turn := by
  induction turns generalizing k index responses with
  | nil =>
    obtain rfl := Except.ok.inj h
    exact ⟨rfl, fun i turn hturn => nomatch hturn⟩
  | cons first rest ih =>
    obtain ⟨scores, restResponses, hfirst, hrest, rfl⟩ := turnResponses_cons_eq_ok.1 h
    obtain ⟨hlength, hall⟩ := ih hrest
    refine ⟨by simp [hlength], fun i turn hturn => ?_⟩
    cases i with
    | zero =>
      obtain rfl := Option.some.inj hturn
      exact ⟨scores, rfl, hfirst⟩
    | succ i =>
      obtain ⟨scores, hresponse, hscores⟩ := hall i turn hturn
      refine ⟨scores, ?_, ?_⟩
      · rwa [Nat.add_right_comm] at hresponse
      · rwa [Nat.add_assoc, ← List.length_append, ← rowsOf_cons] at hscores

/-- A row has scores exactly when its logits are finite. -/
theorem exists_rowScores_iff {logits : List Floating} {calibration : Floating} :
    (∃ scores, backend.rowScores logits calibration = .ok scores) ↔
      ∀ logit ∈ logits, logit.isFinite = true := by
  rw [← List.all_eq_true, rowScores]
  cases logits.all Floating.isFinite <;> simp

/-- **Requests are answered exactly when the logits of their rows are finite.** -/
theorem exists_turnResponses_iff {rowLogits : Nat → NativeRow → List Floating} {k index : Nat}
    {turns : List NativeTurn} :
    (∃ responses, backend.turnResponses rowLogits k index turns = .ok responses) ↔
      ∀ j row, (rowsOf turns)[j]? = some row →
        ∀ logit ∈ rowLogits (k + j) row, logit.isFinite = true := by
  induction turns generalizing k index with
  | nil => exact ⟨fun _ j row hrow => (nomatch hrow), fun _ => ⟨[], rfl⟩⟩
  | cons turn rest ih =>
    simp only [turnResponses_cons_eq_ok]
    cases turn with
    | certain =>
      have hrest := @ih k (index + 1)
      constructor
      · rintro ⟨_, _, restResponses, -, hresponses, -⟩
        exact hrest.1 ⟨restResponses, hresponses⟩
      · intro hfinite
        obtain ⟨restResponses, hresponses⟩ := hrest.2 hfinite
        exact ⟨_, [.finite 1], restResponses, rfl, hresponses, rfl⟩
    | row row =>
      have hrest := @ih (k + 1) (index + 1)
      constructor
      · rintro ⟨_, scores, restResponses, hscores, hresponses, -⟩ j made hmade
        cases j with
        | zero =>
          obtain rfl := Option.some.inj hmade
          exact exists_rowScores_iff.1 ⟨scores, hscores⟩
        | succ j =>
          rw [Nat.add_comm j, ← Nat.add_assoc]
          exact hrest.1 ⟨restResponses, hresponses⟩ j made hmade
      · intro hfinite
        obtain ⟨scores, hscores⟩ := (@exists_rowScores_iff backend _ row.calibration).2
          (hfinite 0 row rfl)
        obtain ⟨restResponses, hresponses⟩ := hrest.2 fun j made hmade => by
          rw [Nat.add_assoc, Nat.add_comm 1 j]
          exact hfinite (j + 1) made hmade
        exact ⟨_, scores, restResponses, hscores, hresponses, rfl⟩

/-- What a caller reads off one response. -/
def answerOf (modelId : Bytes) (scores : List Floating) (turn : NativeTurn) :
    InferenceResponse × TokenUsage :=
  ((nativeResponse modelId 0 scores).unaddressed, turn.usage)

/-- A request is answered alone with the scores of its row. -/
theorem answers_aloneResult (logits : NativeRow → List Floating) (turn : NativeTurn) :
    (backend.aloneResult logits turn).map Predicted.answers =
      match turn with
      | .certain => .ok [answerOf backend.bundle.modelId [.finite 1] turn]
      | .row row => (backend.rowScores (logits row) row.calibration).map fun scores =>
          [answerOf backend.bundle.modelId scores turn] := by
  cases turn with
  | certain => rfl
  | row row =>
    unfold aloneResult
    rw [turnResponses]
    dsimp only
    cases backend.rowScores (logits row) row.calibration <;> rfl

/-- Lists that are put behind each other are flattened one by one. -/
theorem flatten_bind {α : Type} (first : Result (List α)) (rest : Result (List (List α))) :
    (first >>= fun l => rest >>= fun ls => pure (l :: ls)).map List.flatten =
      match first with
      | .error failure => .error failure
      | .ok l => (rest.map List.flatten).map (l ++ ·) := by
  cases first with
  | error failure => rfl
  | ok l => cases rest <;> rfl

/-- **A batch answers its requests as they are answered alone**, where the rows have the same
logits. -/
theorem answers_turnResponses {rowLogits : Nat → NativeRow → List Floating}
    {alone : Nat → Result Predicted} {reports : List TokenUsage} {turns : List NativeTurn}
    {k index : Nat} (hreports : reports.drop index = turns.map NativeTurn.usage)
    (halone : ∀ i turn, turns[i]? = some turn → alone (index + i) =
      backend.aloneResult (rowLogits (k + (rowsOf (turns.take i)).length)) turn) :
    ((backend.turnResponses rowLogits k index turns).map fun output =>
        Predicted.answers ⟨output, reports⟩) =
      ((List.range' index turns.length).mapM fun i => (alone i).map Predicted.answers).map
        List.flatten := by
  induction turns generalizing k index with
  | nil => rfl
  | cons turn rest ih =>
    obtain ⟨hreport, hreports⟩ := getElem?_of_drop hreports
    have hfirst := halone 0 turn rfl
    have hrest := @ih (k + (rowsOf [turn]).length) (index + 1) hreports fun i turn' hturn => by
      have hnext := halone (i + 1) turn' hturn
      rw [Nat.add_right_comm, Nat.add_assoc k, ← List.length_append, ← rowsOf_cons]
      exact hnext
    have hone := @answers_aloneResult backend (rowLogits k) turn
    rw [List.take_zero, rowsOf, List.filterMap_nil, List.length_nil] at hfirst
    have hcons : ∀ scores, (nativeResponse backend.bundle.modelId index scores).unaddressed =
        (nativeResponse backend.bundle.modelId 0 scores).unaddressed := fun _ => rfl
    have hreported : ∀ scores, (nativeResponse backend.bundle.modelId index scores).reported
        (fun report => reports[report]?.getD {}) = turn.usage := by
      intro scores
      simp [InferenceResponse.reported, nativeResponse, hreport]
    rw [List.length_cons, List.range'_succ, List.mapM_cons]
    simp only [Nat.add_zero] at hfirst
    rw [hfirst, hone, flatten_bind, ← hrest]
    cases turn with
    | certain =>
      dsimp only
      rw [turnResponses, rowsOf_certain, rowsOf, List.filterMap_nil, List.length_nil, Nat.add_zero]
      cases backend.turnResponses rowLogits k (index + 1) rest with
      | error failure => rfl
      | ok responses => simp [Except.map, Predicted.answers, answerOf, hcons, hreported]
    | row row =>
      dsimp only
      rw [turnResponses]
      cases backend.rowScores (rowLogits k row) row.calibration with
      | error failure => rfl
      | ok scores =>
        have hrank : (rowsOf [NativeTurn.row row]).length = 1 := rfl
        rw [hrank]
        cases backend.turnResponses rowLogits (k + 1) (index + 1) rest with
        | error failure => rfl
        | ok responses => simp [Except.map, Predicted.answers, answerOf, hcons, hreported]

end NativeBackend

end Jevt
