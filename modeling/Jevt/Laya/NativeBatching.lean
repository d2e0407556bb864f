import Jevt.Laya.NativeAnswers

/-!
# Native batches are transparent

A call of the native adapter is admitted or rejected, and never computes a position that is not an
`int` (`admit_spec`). What an admitted call gives to the model, and that it answers its requests as
if each were predicted alone, is `native_batching`.
-/

namespace Jevt

open Library

/-- The call in which the request at a position of a batch is predicted alone, at the moments of its
checks in the batch. -/
def NativeCall.alone (call : NativeCall) (count i : Nat)
    (capacities : Nat → Capacities) : NativeCall where
  check := fun k => call.check (k * count + i)
  capacities := capacities

namespace NativeBackend

variable {backend : NativeBackend}

/-! ## Calls -/

/-- There are as many numbers as rows. -/
theorem length_rowIndices (index : Nat) (turns : List NativeTurn) :
    (rowIndices index turns).length = (rowsOf turns).length := by
  induction turns generalizing index with
  | nil => rfl
  | cons turn rest ih => cases turn <;> simp [rowIndices, ih]

/-- The variables of a call in front of the call of the model. -/
def admitted (backend : NativeBackend) (turns : List NativeTurn) : NativeLocals where
  responses := blankResponses backend.bundle.modelId 0 turns
  reports := turns.map NativeTurn.usage
  rows := rowIndices 0 turns
  sequences := (rowsOf turns).map NativeRow.ids
  markers := (rowsOf turns).map NativeRow.markers
  calibration := (rowsOf turns).map NativeRow.calibration
  batch :=
    if rowsOf turns = [] then rowFields [] else packRows backend.bundle.padId (rowsOf turns)

/-- What it takes for rows to be given to the model. -/
def RowsAdmitted (call : NativeCall) (requests : List InferenceRequest) (turns : List NativeTurn) :
    Prop :=
  rowsOf turns ≠ [] → firstFailure call.check (2 * requests.length) requests = none ∧
    SmallProducts (rowsOf turns) ∧ ∀ row ∈ rowsOf turns, row.Fits

/-- A call that comes to the call of the model, and the turns of its requests. -/
structure Admits (backend : NativeBackend) (call : NativeCall) (requests : List InferenceRequest)
    (turns : List NativeTurn) : Prop where
  checked : ∀ k < 2, firstFailure call.check (k * requests.length) requests = none
  few : requests.length ≤ intMax / backend.bundle.maxLen
  made : requests.mapM backend.bundle.nativeTurn = .ok turns
  rows : RowsAdmitted call requests turns

/-- The rows of requests fit the model. -/
theorem bounded_of_mapM {bundle : LayaBundle} (hmax : bundle.maxLen = 512 ∨ bundle.maxLen = 1024)
    {requests : List InferenceRequest} {turns : List NativeTurn}
    (h : requests.mapM bundle.nativeTurn = .ok turns) : ∀ row ∈ rowsOf turns, row.Bounded := by
  intro row hrow
  obtain ⟨turn, hturn, hmade⟩ := List.mem_filterMap.1 hrow
  obtain ⟨i, hi⟩ := List.mem_iff_getElem?.1 hturn
  obtain ⟨request, -, hrequest⟩ := getElem?_of_mapM_eq_ok h hi
  cases turn with
  | certain => cases hmade
  | row made =>
    obtain rfl := Option.some.inj hmade
    exact bundle.bounded_of_nativeTurn hmax hrequest

/-- There are at most as many rows as requests. -/
theorem length_rowsOf_le {bundle : LayaBundle} {requests : List InferenceRequest}
    {turns : List NativeTurn} (h : requests.mapM bundle.nativeTurn = .ok turns) :
    (rowsOf turns).length ≤ requests.length := by
  rw [(mapM_eq_ok_iff.1 h).length_eq]
  exact List.length_filterMap_le _ _

/-- The variables of a call behind the loop over its requests. -/
def collected (backend : NativeBackend) (turns : List NativeTurn) : NativeLocals :=
  { backend.admitted turns with batch := rowFields (rowsOf turns) }

/-- Without a row nothing is laid out. -/
theorem collected_of_nil {turns : List NativeTurn} (h : rowsOf turns = []) :
    backend.collected turns = backend.admitted turns := by
  simp [collected, admitted, h]

/-- There is no number when there is no row. -/
theorem rowIndices_eq_nil_iff {turns : List NativeTurn} :
    rowIndices 0 turns = [] ↔ rowsOf turns = [] := by
  rw [← List.length_eq_zero_iff, length_rowIndices, List.length_eq_zero_iff]

/-- How the rows of requests are laid out that are few enough. -/
theorem layOutRows_collected {requests : List InferenceRequest} {turns : List NativeTurn}
    (hmade : requests.mapM backend.bundle.nativeTurn = .ok turns)
    (hfew : requests.length ≤ intMax / backend.bundle.maxLen) (hrows : rowsOf turns ≠ []) :
    backend.layOutRows (backend.collected turns) = some
      (if SmallProducts (rowsOf turns) then
        if ∀ row ∈ rowsOf turns, row.Fits then .ok (backend.admitted turns)
        else .error NativeBatch.markersError
      else .error dimensionsError) := by
  have hcount : (rowsOf turns).length ≤ intMax :=
    (length_rowsOf_le hmade).trans (hfew.trans (Nat.div_le_self _ _))
  have hlaid := @layOutRows_eq backend (backend.collected turns) (rowsOf turns)
    (length_rowIndices 0 turns) rfl rfl rfl hcount
  simpa only [collected, admitted, if_neg hrows] using hlaid

/-- The rows of requests that are few enough are laid out, or rejected. -/
theorem prepare_collected {requests : List InferenceRequest} {turns : List NativeTurn}
    (hmade : requests.mapM backend.bundle.nativeTurn = .ok turns)
    (hfew : requests.length ≤ intMax / backend.bundle.maxLen) (call : NativeCall) :
    ((∃ failure, backend.prepare call requests (backend.collected turns) =
        some (.error failure)) ∧ ¬RowsAdmitted call requests turns) ∨
      (backend.prepare call requests (backend.collected turns) =
        some (.ok (backend.admitted turns)) ∧ RowsAdmitted call requests turns) := by
  by_cases hrows : rowsOf turns = []
  · have hindices : (backend.collected turns).rows = [] := rowIndices_eq_nil_iff.2 hrows
    refine .inr ⟨?_, fun h => absurd hrows h⟩
    rw [prepare, if_pos hindices, collected_of_nil hrows]
  · have hindices : (backend.collected turns).rows ≠ [] := mt rowIndices_eq_nil_iff.1 hrows
    rw [prepare, if_neg hindices, layOutRows_collected hmade hfew hrows]
    by_cases hsmall : SmallProducts (rowsOf turns)
    · by_cases hfits : ∀ row ∈ rowsOf turns, row.Fits
      · rw [if_pos hsmall, if_pos hfits]
        dsimp only
        cases hthird : firstFailure call.check (2 * requests.length) requests with
        | some failure =>
          exact .inl ⟨⟨failure, rfl⟩, fun h => nomatch hthird.symm.trans (h hrows).1⟩
        | none => exact .inr ⟨rfl, fun _ => ⟨hthird, hsmall, hfits⟩⟩
      · rw [if_pos hsmall, if_neg hfits]
        exact .inl ⟨⟨_, rfl⟩, fun h => hfits (h hrows).2.2⟩
    · rw [if_neg hsmall]
      exact .inl ⟨⟨_, rfl⟩, fun h => hsmall (h hrows).2.1⟩

section Admission

variable {call : NativeCall} {requests : List InferenceRequest} {store : NativeStore}

/-- **A call is admitted or rejected**, without a result that is not an `int`. -/
theorem admit_spec (hmax : backend.bundle.maxLen = 512 ∨ backend.bundle.maxLen = 1024)
    (hstore : NativeStore.Sound backend.bundle backend.limits store) :
    (((∃ failure, (backend.admitBatch call requests store).1 = some (.error failure)) ∧
          ∀ turns, ¬backend.Admits call requests turns) ∨
        ∃ turns, backend.Admits call requests turns ∧
          (backend.admitBatch call requests store).1 = some (.ok (backend.admitted turns))) ∧
      NativeStore.Sound backend.bundle backend.limits
        (backend.admitBatch call requests store).2 := by
  unfold admitBatch
  cases hfirst : firstFailure call.check 0 requests with
  | some failure =>
    refine ⟨.inl ⟨⟨failure, rfl⟩, fun turns h => ?_⟩, hstore⟩
    have hchecked := h.checked 0 (by omega)
    rw [Nat.zero_mul, hfirst] at hchecked
    cases hchecked
  | none =>
    dsimp only
    split
    · next hmany => exact ⟨.inl ⟨⟨_, rfl⟩, fun turns h => Nat.not_le.2 hmany h.few⟩, hstore⟩
    · next hfew =>
      cases hsecond : firstFailure call.check requests.length requests with
      | some failure =>
        refine ⟨.inl ⟨⟨failure, rfl⟩, fun turns h => ?_⟩, hstore⟩
        have hchecked := h.checked 1 (by omega)
        rw [Nat.one_mul, hsecond] at hchecked
        cases hchecked
      | none =>
        obtain ⟨hcollect, hstore'⟩ := @collect_eq backend call.capacities 0 requests
          (.start requests.length) store [] hstore fun _ hentry => nomatch hentry
        generalize backend.collect _ _ _ _ _ _ = result at *
        obtain ⟨result, store'⟩ := result
        cases hmade : requests.mapM backend.bundle.nativeTurn with
        | error failure =>
          obtain rfl : result = .error failure := by
            rw [hmade] at hcollect
            exact hcollect
          exact ⟨.inl ⟨⟨_, rfl⟩, fun turns h => nomatch hmade.symm.trans h.made⟩, hstore'⟩
        | ok turns =>
          have hchecked : ∀ k < 2,
              firstFailure call.check (k * requests.length) requests = none := by
            intro k hk
            match k, hk with
            | 0, _ => rwa [Nat.zero_mul]
            | 1, _ => rwa [Nat.one_mul]
          obtain rfl : result = .ok (backend.collected turns) := by
            rw [hmade, (mapM_eq_ok_iff.1 hmade).length_eq] at hcollect
            exact hcollect.trans (congrArg Except.ok
              (placeTurns_eq backend.bundle.modelId (bounded_of_mapM hmax hmade)))
          refine ⟨?_, hstore'⟩
          rcases prepare_collected hmade (Nat.not_lt.1 hfew) call with
            ⟨hrejected, hrows⟩ | ⟨hprepared, hrows⟩
          · refine .inl ⟨hrejected, fun turns' h => ?_⟩
            obtain rfl : turns = turns' := Except.ok.inj (hmade.symm.trans h.made)
            exact hrows h.rows
          · exact .inr ⟨turns, ⟨hchecked, Nat.not_lt.1 hfew, hmade, hrows⟩, hprepared⟩

end Admission

/-- The batch of admitted rows. -/
theorem batch_admitted {turns : List NativeTurn} (h : rowsOf turns ≠ []) :
    (backend.admitted turns).batch = packRows backend.bundle.padId (rowsOf turns) :=
  if_neg h

/-- What is read off the logits of admitted rows. -/
theorem decode_admitted {turns : List NativeTurn} (h : rowsOf turns ≠ [])
    (hsmall : SmallProducts (rowsOf turns)) (logits : List Floating) :
    backend.decode (backend.admitted turns) logits = some
      (if logits.length ≠ (rowsOf turns).length * nativeOptionCount (rowsOf turns) then
        .error shapeError
      else
        (backend.turnResponses (logitsOf (nativeOptionCount (rowsOf turns)) logits) 0 0 turns).map
          fun responses => ⟨responses, turns.map NativeTurn.usage⟩) := by
  have hbatch := @batch_admitted backend turns h
  have hwords : intMax < sizeModulus := by decide
  have hdecoded := @decodeRows_eq backend (rowsOf turns) (nativeOptionCount (rowsOf turns))
    (backend.admitted turns) (by rw [hbatch]; rfl) rfl (by rw [hbatch]; rfl) hsmall.options_le
    logits turns 0 0 [] rfl rfl rfl
  unfold decode
  rw [hbatch]
  simp only [packRows, rowFields, Int.toNat_natCast,
    Nat.mod_eq_of_lt (hsmall.options_le.trans_lt hwords)]
  split
  · rfl
  · simp only [List.nil_append] at hdecoded
    refine (congrArg _ hdecoded).trans ?_
    cases backend.turnResponses _ 0 0 turns <;> rfl

/-! ## Histories -/

/-- A call keeps the cache sound. -/
theorem sound_predictBatch (hmax : backend.bundle.maxLen = 512 ∨ backend.bundle.maxLen = 1024)
    {call : NativeCall} {requests : List InferenceRequest} {store : NativeStore}
    (h : NativeStore.Sound backend.bundle backend.limits store) :
    NativeStore.Sound backend.bundle backend.limits
      (backend.predictBatch call requests store).2 := by
  have hadmit := (@admit_spec backend call requests store hmax h).2
  unfold predictBatch
  generalize backend.admitBatch call requests store = admission at hadmit
  obtain ⟨result, store'⟩ := admission
  split
  · exact h
  · match result with
    | none | some (.error _) | some (.ok _) => exact hadmit

/-- The cache is sound after every history of calls. -/
theorem sound_after (hmax : backend.bundle.maxLen = 512 ∨ backend.bundle.maxLen = 1024)
    (history : List (NativeCall × List InferenceRequest)) :
    NativeStore.Sound backend.bundle backend.limits (backend.after history) := by
  have hfold : ∀ (history : List (NativeCall × List InferenceRequest)) (store : NativeStore),
      NativeStore.Sound backend.bundle backend.limits store →
        NativeStore.Sound backend.bundle backend.limits
          (history.foldl (fun store entry => (backend.predictBatch entry.1 entry.2 store).2)
            store) := by
    intro history
    induction history with
    | nil => exact fun _ h => h
    | cons entry rest ih => exact fun _ h => ih _ (sound_predictBatch hmax h)
  exact hfold history {} remembers_empty

/-- An admitted call ends as its second half does. -/
theorem predictBatch_of_admits (hmax : backend.bundle.maxLen = 512 ∨ backend.bundle.maxLen = 1024)
    {call : NativeCall} {requests : List InferenceRequest} {turns : List NativeTurn}
    {store : NativeStore} (hstore : NativeStore.Sound backend.bundle backend.limits store)
    (h : backend.Admits call requests turns) :
    (backend.predictBatch call requests store).1 =
      backend.execute call requests (backend.admitted turns) := by
  unfold predictBatch
  split
  · next hnil =>
    subst hnil
    obtain rfl : turns = [] := (Except.ok.inj h.made).symm
    rfl
  · rcases (@admit_spec backend call requests store hmax hstore).1 with
      ⟨-, hnone⟩ | ⟨turns', hadmits, hadmit⟩
    · exact absurd h (hnone turns)
    · obtain rfl : turns = turns' := Except.ok.inj (h.made.symm.trans hadmits.made)
      split
      · next heq => rw [heq] at hadmit; cases hadmit
      · next heq => rw [heq] at hadmit; cases hadmit
      · next heq =>
        rw [heq] at hadmit
        obtain rfl := Except.ok.inj (Option.some.inj hadmit)
        rfl

/-- What an admitted call makes of the logits of its rows. -/
theorem execute_of_logits {call : NativeCall} {requests : List InferenceRequest}
    {turns : List NativeTurn} (h : backend.Admits call requests turns) (hrows : rowsOf turns ≠ [])
    {logits : List Floating}
    (hlogits : backend.forward (backend.admitted turns).batch = .ok logits) :
    backend.execute call requests (backend.admitted turns) = some
      (match firstFailure call.check (3 * requests.length) requests with
      | some failure => .error failure
      | none =>
        if logits.length ≠ (rowsOf turns).length * nativeOptionCount (rowsOf turns) then
          .error shapeError
        else
          (backend.turnResponses (logitsOf (nativeOptionCount (rowsOf turns)) logits) 0 0
            turns).map fun responses => ⟨responses, turns.map NativeTurn.usage⟩) := by
  obtain ⟨-, hsmall, -⟩ := h.rows hrows
  have hindices : (backend.admitted turns).rows ≠ [] := mt rowIndices_eq_nil_iff.1 hrows
  rw [execute, if_neg hindices, hlogits]
  dsimp only
  cases firstFailure call.check (3 * requests.length) requests with
  | some failure => rfl
  | none => exact decode_admitted hrows hsmall logits

/-- The logits the model gives to admitted rows. -/
theorem execute_of_shape (hforward : ForwardRowLocal backend.forward) {call : NativeCall}
    {requests : List InferenceRequest} {turns : List NativeTurn}
    (h : backend.Admits call requests turns) (hrows : rowsOf turns ≠ []) :
    ∃ logits, backend.forward (backend.admitted turns).batch = .ok logits ∧
      backend.execute call requests (backend.admitted turns) = some
        (match firstFailure call.check (3 * requests.length) requests with
        | some failure => .error failure
        | none => (backend.turnResponses (logitsOf (nativeOptionCount (rowsOf turns)) logits) 0 0
            turns).map fun responses => ⟨responses, turns.map NativeTurn.usage⟩) := by
  obtain ⟨-, -, hfits⟩ := h.rows hrows
  obtain ⟨logits, hlogits, hlength⟩ :=
    hforward.shape _ (@shaped_packRows backend.bundle.padId _ hfits)
  rw [← batch_admitted hrows] at hlogits
  have hshape : logits.length = (rowsOf turns).length * nativeOptionCount (rowsOf turns) := by
    simp only [packRows, rowFields] at hlength
    exact_mod_cast hlength
  refine ⟨logits, hlogits, ?_⟩
  rw [execute_of_logits h hrows hlogits, if_neg (not_not.2 hshape)]

/-! ## Requests alone -/

/-- A request of an admitted call is admitted alone. -/
theorem Admits.alone {call : NativeCall} {requests : List InferenceRequest}
    {turns : List NativeTurn} (hmax : backend.bundle.maxLen = 512 ∨ backend.bundle.maxLen = 1024)
    (h : backend.Admits call requests turns)
    {i : Nat} {request : InferenceRequest} (hrequest : requests[i]? = some request)
    (capacities : Nat → Capacities) :
    ∃ turn, turns[i]? = some turn ∧
      backend.Admits (call.alone requests.length i capacities) [request] [turn] := by
  obtain ⟨turn, hturn, hmade⟩ := getElem?_of_forall₂ (mapM_eq_ok_iff.1 h.made) hrequest
  have hround : ∀ k, firstFailure call.check (k * requests.length) requests = none →
      firstFailure (call.alone requests.length i capacities).check (k * 1) [request] = none := by
    intro k hk
    have hchecked := firstFailure_eq_none_iff.1 hk i request hrequest
    rw [Nat.mul_one, firstFailure, NativeCall.alone]
    dsimp only
    rw [hchecked]
    rfl
  refine ⟨turn, hturn, fun k hk => hround k (h.checked k hk), ?_, ?_, ?_⟩
  · have hmany : 0 < requests.length := Nat.zero_lt_of_lt (List.getElem?_eq_some_iff.1 hrequest).1
    exact Nat.le_trans hmany h.few
  · rw [List.mapM_cons, hmade]
    rfl
  · intro hrows
    cases turn with
    | certain => exact absurd rfl hrows
    | row row =>
      have hrow : row ∈ rowsOf turns :=
        List.mem_filterMap.2 ⟨_, List.mem_of_getElem? hturn, rfl⟩
      obtain ⟨hthird, hsmall, hfits⟩ := h.rows (List.ne_nil_of_mem hrow)
      refine ⟨hround 2 hthird, ?_, List.forall_mem_singleton.2 (hfits row hrow)⟩
      exact smallProducts_singleton (bounded_of_mapM hmax h.made row hrow)

/-- What an admitted request is answered alone. -/
theorem predict_of_admits (hmax : backend.bundle.maxLen = 512 ∨ backend.bundle.maxLen = 1024)
    (hforward : ForwardRowLocal backend.forward) {call : NativeCall} {request : InferenceRequest}
    {turn : NativeTurn} {store : NativeStore}
    (hstore : NativeStore.Sound backend.bundle backend.limits store)
    (h : backend.Admits call [request] [turn])
    (hlast : rowsOf [turn] ≠ [] → firstFailure call.check 3 [request] = none) :
    ∃ rowLogits : NativeRow → List Floating,
      (∀ row, turn = .row row → ∃ logits,
        backend.forward (packRows backend.bundle.padId [row]) = .ok logits ∧
          rowLogits row = logitsOf (nativeOptionCount [row]) logits 0 row) ∧
      (backend.predict call request store).1 = some (backend.aloneResult rowLogits turn) := by
  have hpredict := predictBatch_of_admits hmax hstore h
  cases turn with
  | certain =>
    refine ⟨fun _ => [], ?_, ?_⟩
    · intro row hrow
      cases hrow
    unfold predict
    dsimp only
    rw [hpredict]
    rfl
  | row row =>
    have hrows : rowsOf [NativeTurn.row row] ≠ [] := List.cons_ne_nil _ _
    obtain ⟨logits, hlogits, hexecute⟩ := execute_of_shape hforward h hrows
    refine ⟨logitsOf (nativeOptionCount [row]) logits 0, ?_, ?_⟩
    · rintro row' hrow'
      obtain rfl := NativeTurn.row.inj hrow'
      exact ⟨logits, hlogits, rfl⟩
    · unfold predict
      dsimp only
      rw [hpredict, hexecute]
      have hthird : firstFailure call.check (3 * [request].length) [request] = none := hlast hrows
      have hsame : backend.turnResponses (logitsOf (nativeOptionCount (rowsOf [.row row])) logits)
          0 0 [.row row] = backend.turnResponses
            (fun _ => logitsOf (nativeOptionCount [row]) logits 0) 0 0 [.row row] := by
        rw [turnResponses, turnResponses]
        rfl
      rw [hthird, aloneResult, hsame]
      cases hresponses : backend.turnResponses
        (fun _ => logitsOf (nativeOptionCount [row]) logits 0) 0 0 [.row row] with
      | error failure => rfl
      | ok responses =>
        obtain ⟨hlength, -⟩ := getElem?_turnResponses hresponses
        simp [Except.map, hlength]

/-- **A row has the same logits in every batch.** -/
theorem logitsOf_eq (hforward : ForwardRowLocal backend.forward) {padId : Int}
    {rows rows' : List NativeRow} (h : ∀ row ∈ rows, row.Fits) (h' : ∀ row ∈ rows', row.Fits)
    {logits logits' : List Floating} (hlogits : backend.forward (packRows padId rows) = .ok logits)
    (hlogits' : backend.forward (packRows padId rows') = .ok logits') {k k' : Nat}
    {row : NativeRow} (hrow : rows[k]? = some row) (hrow' : rows'[k']? = some row) :
    logitsOf (nativeOptionCount rows) logits k row =
      logitsOf (nativeOptionCount rows') logits' k' row := by
  have hk : (k : Int) < (packRows padId rows).size :=
    Int.ofNat_lt.2 (List.getElem?_eq_some_iff.1 hrow).1
  have hk' : (k' : Int) < (packRows padId rows').size :=
    Int.ofNat_lt.2 (List.getElem?_eq_some_iff.1 hrow').1
  have hactive := hforward.local_ _ _ (shaped_packRows h) (shaped_packRows h') logits logits'
    hlogits hlogits' k k' hk hk' (by rw [view_packRows h hrow, view_packRows h' hrow'])
  rwa [activeLogits_packRows hrow, activeLogits_packRows hrow'] at hactive

/-! ## The main result -/

/-- What a call does that comes to the call of the model, with the variables it has there and the
turns of its requests. -/
structure Assembles (backend : NativeBackend) (history : List (NativeCall × List InferenceRequest))
    (call : NativeCall) (requests : List InferenceRequest) (locals : NativeLocals)
    (turns : List NativeTurn) : Prop where
  /-- The turns are those of the requests, without a cache; choices with one option have no row. -/
  made : requests.mapM backend.bundle.nativeTurn = .ok turns
  certain : ∀ (i : Nat) (request : InferenceRequest) (turn : NativeTurn),
    requests[i]? = some request → turns[i]? = some turn →
      (turn = .certain ↔ request.questionKind = .choice ∧ request.options.length = 1)
  /-- The batch has the rows in their order. -/
  shaped : rowsOf turns ≠ [] → locals.batch.Shaped ∧ locals.batch.size = (rowsOf turns).length
  forwarded : ∀ (k : Nat) (row : NativeRow), (rowsOf turns)[k]? = some row →
    locals.batch.view k = ⟨row.ids, row.markers, (row.kind.qtype : Int)⟩ ∧
      locals.batch.counts[k]? = some (row.labels.length : Int)
  /-- Every product and every position is an `int`. -/
  products : rowsOf turns ≠ [] →
    (0 ≤ locals.batch.size * locals.batch.length ∧
        locals.batch.size * locals.batch.length < 2 ^ 31) ∧
      0 ≤ locals.batch.size * locals.batch.options ∧
        locals.batch.size * locals.batch.options < 2 ^ 31
  offsets : ∀ (k : Nat) (row : NativeRow), (rowsOf turns)[k]? = some row →
    (∀ marker ∈ row.markers, 0 ≤ k * locals.batch.length + marker ∧
        k * locals.batch.length + marker < 2 ^ 31) ∧
      ∀ col : Nat, col < locals.batch.options →
        0 ≤ k * locals.batch.options + col ∧ k * locals.batch.options + col < 2 ^ 31
  /-- The response at a position belongs to the request there. -/
  answered : ∀ predicted,
    (backend.predictBatch call requests (backend.after history)).1 = some (.ok predicted) →
      predicted.output.length = requests.length ∧ predicted.reports = turns.map NativeTurn.usage ∧
        ∃ logits, (rowsOf turns ≠ [] → backend.forward locals.batch = .ok logits) ∧
          ∀ (i : Nat) (turn : NativeTurn), turns[i]? = some turn → ∃ scores,
            predicted.output[i]? = some (nativeResponse backend.bundle.modelId i scores) ∧
              backend.Scored (fun k _ => locals.batch.activeLogits logits k)
                (rowsOf (turns.take i)).length scores turn
  /-- Without a row there is no error. -/
  modelless : rowsOf turns = [] → ∃ predicted,
    (backend.predictBatch call requests (backend.after history)).1 = some (.ok predicted)
  /-- An exception of the model is the error of the call, and so is what a request fails with behind
  the call of the model. -/
  thrown : rowsOf turns ≠ [] → ∀ failure, backend.forward locals.batch = .error failure →
    (backend.predictBatch call requests (backend.after history)).1 =
      some (.error (nativeError failure))
  stopped : rowsOf turns ≠ [] → ∀ logits failure, backend.forward locals.batch = .ok logits →
    firstFailure call.check (3 * requests.length) requests = some failure →
      (backend.predictBatch call requests (backend.after history)).1 = some (.error failure)
  /-- Otherwise the requests are answered exactly when there is a logit for each cell and the active
  ones are finite. -/
  complete : rowsOf turns ≠ [] → ∀ logits, backend.forward locals.batch = .ok logits →
    firstFailure call.check (3 * requests.length) requests = none →
      ((∃ predicted, (backend.predictBatch call requests (backend.after history)).1 =
          some (.ok predicted)) ↔
        (logits.length : Int) = locals.batch.size * locals.batch.options ∧
          ∀ k : Nat, k < (rowsOf turns).length →
            ∀ logit ∈ locals.batch.activeLogits logits k, logit.isFinite = true)
  /-- A model whose logits for a row depend on the row only answers a batch as it answers its
  requests alone, at the same moments and after any histories, unless a request fails the checks
  behind the call of the model. -/
  transparent : ForwardRowLocal backend.forward →
    ∀ (histories : Nat → List (NativeCall × List InferenceRequest))
      (capacities : Nat → Nat → Capacities),
      (rowsOf turns ≠ [] → firstFailure call.check (3 * requests.length) requests = none) →
        ∃ alone : Nat → Result Predicted,
          (∀ (i : Nat) (request : InferenceRequest), requests[i]? = some request →
            (backend.predict (call.alone requests.length i (capacities i)) request
              (backend.after (histories i))).1 = some (alone i)) ∧
          (backend.predictBatch call requests (backend.after history)).1.map
              (Except.map Predicted.answers) = some
            (((List.range requests.length).mapM fun i => (alone i).map Predicted.answers).map
              List.flatten)

/-- A request has no row when it is a choice with one option. -/
theorem nativeTurn_eq_certain {bundle : LayaBundle} {request : InferenceRequest}
    {turn : NativeTurn} (h : bundle.nativeTurn request = .ok turn) :
    turn = .certain ↔ request.questionKind = .choice ∧ request.options.length = 1 := by
  rw [LayaBundle.nativeTurn_eq] at h
  split at h
  · cases h
  · split at h
    · next hcertain =>
      obtain rfl := Except.ok.inj h
      exact ⟨fun _ => hcertain, fun _ => rfl⟩
    · next hrow =>
      split at h
      · cases h
      · obtain rfl := Except.ok.inj h
        exact ⟨fun heq => (nomatch heq), fun hcertain => absurd hcertain hrow⟩

/-- The row of a request stands behind those of the requests in front of it. -/
theorem getElem?_rowsOf {turns : List NativeTurn} {i : Nat} {row : NativeRow}
    (h : turns[i]? = some (.row row)) :
    (rowsOf turns)[(rowsOf (turns.take i)).length]? = some row := by
  induction turns generalizing i with
  | nil => cases h
  | cons turn rest ih =>
    cases i with
    | zero =>
      obtain rfl := Option.some.inj h
      rfl
    | succ i =>
      rw [rowsOf_cons turn rest, List.take_succ_cons, rowsOf_cons turn (rest.take i),
        List.length_append,
        List.getElem?_append_right (Nat.le_add_right _ _), Nat.add_sub_cancel_left]
      exact ih h

section Admitted

variable {history : List (NativeCall × List InferenceRequest)} {call : NativeCall}
  {requests : List InferenceRequest} {turns : List NativeTurn}

/-- An admitted call without a row is answered without the model. -/
theorem execute_of_nil (hrows : rowsOf turns = []) :
    backend.execute call requests (backend.admitted turns) =
      some (.ok ⟨blankResponses backend.bundle.modelId 0 turns, turns.map NativeTurn.usage⟩) :=
  if_pos (rowIndices_eq_nil_iff.2 hrows)

/-- An admitted call in which the model throws. -/
theorem execute_of_exception (hrows : rowsOf turns ≠ []) {failure : StdException}
    (hfailure : backend.forward (backend.admitted turns).batch = .error failure) :
    backend.execute call requests (backend.admitted turns) =
      some (.error (nativeError failure)) := by
  have hindices : (backend.admitted turns).rows ≠ [] := mt rowIndices_eq_nil_iff.1 hrows
  rw [execute, if_neg hindices, hfailure]

/-- What an admitted call returns: the responses of its requests, if the model has returned logits
of the right shape and no check fails. -/
theorem execute_admitted (h : backend.Admits call requests turns) :
    ∃ result, backend.execute call requests (backend.admitted turns) = some result ∧
      ∀ predicted, result = .ok predicted → predicted.reports = turns.map NativeTurn.usage ∧
        ∃ logits,
          (rowsOf turns ≠ [] → backend.forward (backend.admitted turns).batch = .ok logits) ∧
          backend.turnResponses (logitsOf (nativeOptionCount (rowsOf turns)) logits) 0 0 turns =
            .ok predicted.output := by
  by_cases hrows : rowsOf turns = []
  · refine ⟨_, execute_of_nil hrows, fun predicted hpredicted => ?_⟩
    obtain rfl := Except.ok.inj hpredicted
    exact ⟨rfl, [], fun hne => absurd hrows hne, turnResponses_of_nil _ hrows 0 0⟩
  · cases hlogits : backend.forward (backend.admitted turns).batch with
    | error failure =>
      refine ⟨_, execute_of_exception hrows hlogits, fun predicted hpredicted => ?_⟩
      cases hpredicted
    | ok logits =>
      refine ⟨_, execute_of_logits h hrows hlogits, fun predicted hpredicted => ?_⟩
      split at hpredicted
      · cases hpredicted
      · split at hpredicted
        · cases hpredicted
        · cases hresponses : backend.turnResponses
            (logitsOf (nativeOptionCount (rowsOf turns)) logits) 0 0 turns with
          | error failure =>
            rw [hresponses] at hpredicted
            cases hpredicted
          | ok responses =>
            rw [hresponses] at hpredicted
            obtain rfl := Except.ok.inj hpredicted
            exact ⟨rfl, logits, fun _ => rfl, hresponses⟩

/-- An admitted call whose model does not throw, and whose requests pass the checks behind it,
answers its requests exactly when the logits have the right shape and the active ones are finite. -/
theorem exists_execute_iff (h : backend.Admits call requests turns) (hrows : rowsOf turns ≠ [])
    {logits : List Floating} (hlogits : backend.forward (backend.admitted turns).batch = .ok logits)
    (hlast : firstFailure call.check (3 * requests.length) requests = none) :
    (∃ predicted, backend.execute call requests (backend.admitted turns) =
        some (.ok predicted)) ↔
      (logits.length : Int) =
          (backend.admitted turns).batch.size * (backend.admitted turns).batch.options ∧
        ∀ k : Nat, k < (rowsOf turns).length →
          ∀ logit ∈ (backend.admitted turns).batch.activeLogits logits k,
            logit.isFinite = true := by
  have hshape : (logits.length : Int) =
      (backend.admitted turns).batch.size * (backend.admitted turns).batch.options ↔
        logits.length = (rowsOf turns).length * nativeOptionCount (rowsOf turns) := by
    rw [batch_admitted hrows]
    simp only [packRows, rowFields]
    exact_mod_cast Iff.rfl
  have hactive : (∀ k : Nat, k < (rowsOf turns).length →
      ∀ logit ∈ (backend.admitted turns).batch.activeLogits logits k, logit.isFinite = true) ↔
        ∃ responses, backend.turnResponses
          (logitsOf (nativeOptionCount (rowsOf turns)) logits) 0 0 turns = .ok responses := by
    rw [exists_turnResponses_iff, batch_admitted hrows]
    constructor
    · intro hfinite j row hrow
      have hactive := hfinite j (List.getElem?_eq_some_iff.1 hrow).1
      rw [activeLogits_packRows hrow] at hactive
      rwa [Nat.zero_add]
    · intro hfinite k hk
      have hrow := List.getElem?_eq_getElem hk
      have hactive := hfinite k _ hrow
      rw [Nat.zero_add] at hactive
      rwa [activeLogits_packRows hrow]
  rw [hshape, hactive, execute_of_logits h hrows hlogits, hlast]
  dsimp only
  split
  · next hne =>
    constructor
    · rintro ⟨predicted, hpredicted⟩
      cases hpredicted
    · rintro ⟨heq, -⟩
      exact absurd heq hne
  · next heq =>
    cases hresponses : backend.turnResponses
        (logitsOf (nativeOptionCount (rowsOf turns)) logits) 0 0 turns with
    | error failure =>
      constructor
      · rintro ⟨predicted, hpredicted⟩
        cases hpredicted
      · rintro ⟨-, responses, hresponses'⟩
        cases hresponses'
    | ok responses => exact ⟨fun _ => ⟨not_not.1 heq, responses, rfl⟩, fun _ => ⟨_, rfl⟩⟩

/-- The positions in the vectors of admitted rows are `int`s. -/
theorem offsets_admitted (h : backend.Admits call requests turns) {k : Nat} {row : NativeRow}
    (hrow : (rowsOf turns)[k]? = some row) :
    (∀ marker ∈ row.markers, 0 ≤ k * (backend.admitted turns).batch.length + marker ∧
        k * (backend.admitted turns).batch.length + marker < 2 ^ 31) ∧
      ∀ col : Nat, col < (backend.admitted turns).batch.options →
        0 ≤ k * (backend.admitted turns).batch.options + col ∧
          k * (backend.admitted turns).batch.options + col < 2 ^ 31 := by
  have hmem := List.mem_of_getElem? hrow
  have hk := (List.getElem?_eq_some_iff.1 hrow).1
  obtain ⟨-, hsmall, hfits⟩ := h.rows (List.ne_nil_of_mem hmem)
  rw [batch_admitted (List.ne_nil_of_mem hmem)]
  simp only [packRows, rowFields, ← Int.natCast_mul]
  have hlimit : intMax < 2 ^ 31 := by decide
  constructor
  · intro marker hmarker
    obtain ⟨hnonneg, hinside⟩ := (hfits row hmem).inside marker hmarker
    have hoffset := offset_le hk (row_le_batch hmem).1 hsmall.length_le
    omega
  · intro col hcol
    have hoffset := offset_le hk (Int.ofNat_lt.1 hcol).le hsmall.options_le
    omega

/-- The logits that an admitted call reads for a row are those a call with that row alone reads. -/
theorem exists_rowLogits (hforward : ForwardRowLocal backend.forward)
    (h : backend.Admits call requests turns)
    (hlast : rowsOf turns ≠ [] → firstFailure call.check (3 * requests.length) requests = none) :
    ∃ rowLogits : Nat → NativeRow → List Floating,
      backend.execute call requests (backend.admitted turns) = some
        ((backend.turnResponses rowLogits 0 0 turns).map fun responses =>
          ⟨responses, turns.map NativeTurn.usage⟩) ∧
      ∀ k row, (rowsOf turns)[k]? = some row → ∀ logits,
        backend.forward (packRows backend.bundle.padId [row]) = .ok logits →
          rowLogits k row = logitsOf (nativeOptionCount [row]) logits 0 row := by
  by_cases hrows : rowsOf turns = []
  · refine ⟨fun _ _ => [], ?_, fun k row hrow => by simp [hrows] at hrow⟩
    rw [execute_of_nil hrows, turnResponses_of_nil _ hrows]
    rfl
  · obtain ⟨logits, hforwarded, hexecute⟩ := execute_of_shape hforward h hrows
    obtain ⟨-, -, hfits⟩ := h.rows hrows
    rw [batch_admitted hrows] at hforwarded
    refine ⟨logitsOf (nativeOptionCount (rowsOf turns)) logits, ?_, ?_⟩
    · rw [hexecute, hlast hrows]
    · intro k row hrow logits' hlogits'
      exact logitsOf_eq hforward hfits
        (List.forall_mem_singleton.2 (hfits row (List.mem_of_getElem? hrow))) hforwarded hlogits'
        hrow rfl

/-- A request of an admitted call is answered alone from the logits of its row. -/
theorem predict_alone (hmax : backend.bundle.maxLen = 512 ∨ backend.bundle.maxLen = 1024)
    (hforward : ForwardRowLocal backend.forward) (h : backend.Admits call requests turns)
    (hlast : rowsOf turns ≠ [] → firstFailure call.check (3 * requests.length) requests = none)
    {rowLogits : Nat → NativeRow → List Floating}
    (hlogits : ∀ k row, (rowsOf turns)[k]? = some row → ∀ logits,
      backend.forward (packRows backend.bundle.padId [row]) = .ok logits →
        rowLogits k row = logitsOf (nativeOptionCount [row]) logits 0 row)
    {i : Nat} {request : InferenceRequest} (hrequest : requests[i]? = some request)
    (capacities : Nat → Capacities) :
    ∃ turn, turns[i]? = some turn ∧
      (backend.predict (call.alone requests.length i capacities) request
        (backend.after history)).1 =
          some (backend.aloneResult (rowLogits (rowsOf (turns.take i)).length) turn) := by
  obtain ⟨turn, hturn, hadmits⟩ := h.alone hmax hrequest capacities
  refine ⟨turn, hturn, ?_⟩
  have hthird : rowsOf [turn] ≠ [] →
      firstFailure (call.alone requests.length i capacities).check 3 [request] = none := by
    intro hrow
    have hrows : rowsOf turns ≠ [] := by
      intro hnil
      cases turn with
      | certain => exact hrow rfl
      | row row =>
        have hrank := getElem?_rowsOf hturn
        rw [hnil] at hrank
        cases hrank
    have hchecked := firstFailure_eq_none_iff.1 (hlast hrows) i request hrequest
    rw [firstFailure, NativeCall.alone]
    dsimp only
    rw [hchecked]
    rfl
  obtain ⟨alone, hsame, hpredict⟩ := predict_of_admits hmax hforward (sound_after hmax history)
    hadmits hthird
  rw [hpredict]
  cases turn with
  | certain => rfl
  | row row =>
    obtain ⟨logits, hforwarded, hrowLogits⟩ := hsame row rfl
    have hrank := hlogits _ row (getElem?_rowsOf hturn) logits hforwarded
    simp only [aloneResult, turnResponses, hrowLogits, hrank]

/-- An admitted call answers as its requests are answered alone. -/
theorem transparent_admitted (hmax : backend.bundle.maxLen = 512 ∨ backend.bundle.maxLen = 1024)
    (hforward : ForwardRowLocal backend.forward) (h : backend.Admits call requests turns)
    (histories : Nat → List (NativeCall × List InferenceRequest))
    (capacities : Nat → Nat → Capacities)
    (hlast : rowsOf turns ≠ [] → firstFailure call.check (3 * requests.length) requests = none) :
    ∃ alone : Nat → Result Predicted,
      (∀ (i : Nat) (request : InferenceRequest), requests[i]? = some request →
        (backend.predict (call.alone requests.length i (capacities i)) request
          (backend.after (histories i))).1 = some (alone i)) ∧
      (backend.predictBatch call requests (backend.after history)).1.map
          (Except.map Predicted.answers) = some
        (((List.range requests.length).mapM fun i => (alone i).map Predicted.answers).map
          List.flatten) := by
  obtain ⟨rowLogits, hbatch, hlogits⟩ := exists_rowLogits hforward h hlast
  obtain ⟨alone, hresults⟩ : ∃ alone : Nat → Result Predicted, ∀ i turn, turns[i]? = some turn →
      alone i = backend.aloneResult (rowLogits (rowsOf (turns.take i)).length) turn :=
    ⟨fun i => backend.aloneResult (rowLogits (rowsOf (turns.take i)).length)
      (turns.getD i .certain), fun i turn hturn => by
        dsimp only
        rw [List.getD_eq_getElem?_getD, hturn, Option.getD_some]⟩
  refine ⟨alone, fun i request hrequest => ?_, ?_⟩
  · obtain ⟨turn, hturn, hpredict⟩ := @predict_alone backend (histories i) call requests turns hmax
      hforward h hlast rowLogits hlogits i request hrequest (capacities i)
    rw [hpredict, hresults i turn hturn]
  · rw [predictBatch_of_admits hmax (sound_after hmax history) h, hbatch, Option.map_some,
      (mapM_eq_ok_iff.1 h.made).length_eq, List.range_eq_range']
    have hanswers := @answers_turnResponses backend rowLogits alone (turns.map NativeTurn.usage)
      turns 0 0 rfl fun i turn hturn => by
        rw [Nat.zero_add, Nat.zero_add]
        exact hresults i turn hturn
    rw [← hanswers]
    cases backend.turnResponses rowLogits 0 0 turns <;> rfl

/-- What an admitted call does. -/
theorem Admits.assembles (hmax : backend.bundle.maxLen = 512 ∨ backend.bundle.maxLen = 1024)
    (h : backend.Admits call requests turns) :
    Assembles backend history call requests (backend.admitted turns) turns := by
  have hbatch := predictBatch_of_admits hmax (sound_after hmax history) h
  obtain ⟨result, hresult, hpredicted⟩ := execute_admitted h
  refine ⟨h.made, ?certain, ?shaped, ?forwarded, ?products, ?offsets, ?answered, ?modelless,
    ?thrown, ?stopped, ?complete, ?transparent⟩
  case certain =>
    intro i request turn hrequest hturn
    obtain ⟨turn', hturn', hmade⟩ := getElem?_of_forall₂ (mapM_eq_ok_iff.1 h.made) hrequest
    obtain rfl : turn = turn' := Option.some.inj (hturn.symm.trans hturn')
    exact nativeTurn_eq_certain hmade
  case shaped =>
    intro hrows
    rw [batch_admitted hrows]
    exact ⟨shaped_packRows (h.rows hrows).2.2, rfl⟩
  case forwarded =>
    intro k row hrow
    have hrows := List.ne_nil_of_mem (List.mem_of_getElem? hrow)
    rw [batch_admitted hrows]
    refine ⟨view_packRows (h.rows hrows).2.2 hrow, ?_⟩
    simp [packRows, rowFields, hrow]
  case products =>
    intro hrows
    obtain ⟨-, hsmall, -⟩ := h.rows hrows
    have hlength := hsmall.length_le
    have hoptions := hsmall.options_le
    have hlimit : intMax < 2 ^ 31 := by decide
    rw [batch_admitted hrows]
    simp only [packRows, rowFields, ← Int.natCast_mul]
    omega
  case offsets => exact fun k row hrow => offsets_admitted h hrow
  case answered =>
    intro predicted hok
    rw [hbatch, hresult] at hok
    obtain ⟨hreports, logits, hlogits, hresponses⟩ := hpredicted predicted (Option.some.inj hok)
    obtain ⟨hlength, hall⟩ := getElem?_turnResponses hresponses
    refine ⟨hlength.trans (mapM_eq_ok_iff.1 h.made).length_eq.symm, hreports, logits, hlogits, ?_⟩
    intro i turn hturn
    obtain ⟨scores, hresponse, hscores⟩ := hall i turn hturn
    rw [Nat.zero_add] at hresponse hscores
    refine ⟨scores, hresponse, ?_⟩
    cases turn with
    | certain => exact hscores
    | row row =>
      have hrank := getElem?_rowsOf hturn
      rw [Scored, batch_admitted (List.ne_nil_of_mem (List.mem_of_getElem? hrank)),
        activeLogits_packRows hrank]
      exact hscores
  case modelless => exact fun hrows => ⟨_, hbatch.trans (execute_of_nil hrows)⟩
  case thrown => exact fun hrows failure hfailure =>
      hbatch.trans (execute_of_exception hrows hfailure)
  case stopped =>
    intro hrows logits failure hlogits hfailure
    rw [hbatch, execute_of_logits h hrows hlogits, hfailure]
  case complete =>
    intro hrows logits hlogits hlast
    rw [hbatch]
    exact exists_execute_iff h hrows hlogits hlast
  case transparent =>
    intro hforward histories capacities hlast
    exact transparent_admitted hmax hforward h histories capacities hlast

end Admitted

/-- **Native batches are assembled in order, and are transparent.** No call computes a position that
is not an `int`. A call that comes to the call of the model, with any mix of choices with one option
and of other requests and after any history, gives the model the rows of the others in their order,
and each response belongs to its request; where the logits of a row depend on that row only, the
answers are those of the requests alone. -/
theorem native_batching (hmax : backend.bundle.maxLen = 512 ∨ backend.bundle.maxLen = 1024)
    (history : List (NativeCall × List InferenceRequest)) (call : NativeCall)
    (requests : List InferenceRequest) :
    (backend.predictBatch call requests (backend.after history)).1 ≠ none ∧
      ((∃ locals, (backend.admitBatch call requests (backend.after history)).1 =
          some (.ok locals)) ↔ ∃ turns, backend.Admits call requests turns) ∧
      ∀ locals, (backend.admitBatch call requests (backend.after history)).1 = some (.ok locals) →
        ∃ turns, Assembles backend history call requests locals turns := by
  have hstore := sound_after hmax history
  rcases (@admit_spec backend call requests _ hmax hstore).1 with
    ⟨⟨failure, hrejected⟩, hnone⟩ | ⟨turns, h, hadmitted⟩
  · refine ⟨?_, ⟨?_, fun ⟨turns, h⟩ => absurd h (hnone turns)⟩,
      fun locals hlocals => nomatch hrejected.symm.trans hlocals⟩
    · unfold predictBatch
      generalize backend.admitBatch call requests (backend.after history) = admission at hrejected
      obtain ⟨result, store⟩ := admission
      obtain rfl : result = some (.error failure) := hrejected
      split <;> exact Option.some_ne_none _
    · rintro ⟨locals, hlocals⟩
      exact absurd (hrejected.symm.trans hlocals) nofun
  · have hbatch := predictBatch_of_admits hmax hstore h
    obtain ⟨result, hresult, hpredicted⟩ := execute_admitted h
    refine ⟨by rw [hbatch, hresult]; exact Option.some_ne_none _,
      ⟨fun _ => ⟨turns, h⟩, fun _ => ⟨_, hadmitted⟩⟩, fun locals hlocals => ?_⟩
    obtain rfl : backend.admitted turns = locals :=
      Except.ok.inj (Option.some.inj (hadmitted.symm.trans hlocals))
    exact ⟨turns, h.assembles hmax⟩

/-! ## An instance -/

/-- A model whose logit for a cell is the position of its marker in the row. -/
def markForward (batch : NativeBatch) : Except StdException (List Floating) :=
  .ok (batch.markers.mapIdx fun cell marker =>
    .finite ((marker - (cell / batch.options.toNat : Nat) * batch.length : Int) : ℚ))

/-- The active logits are the markers of a row. -/
theorem activeLogits_markForward {batch : NativeBatch} {logits : List Floating}
    (h : markForward batch = .ok logits) (i : Nat) :
    batch.activeLogits logits i =
      (batch.view i).markers.map fun marker : Int => .finite (marker : ℚ) := by
  obtain rfl := Except.ok.inj h
  unfold NativeBatch.activeLogits NativeBatch.view row
  refine List.ext_getElem? fun col => ?_
  simp only [List.getElem?_take, List.getElem?_drop, List.getElem?_map, List.getElem?_mapIdx]
  by_cases hcol : col < batch.options.toNat
  · have hrow : (i * batch.options.toNat + col) / batch.options.toNat = i := by
      rw [Nat.mul_comm, Nat.mul_add_div (by omega), Nat.div_eq_of_lt hcol, Nat.add_zero]
    rw [hrow, if_pos hcol, if_pos hcol]
    split
    · cases batch.markers[i * batch.options.toNat + col]? <;> rfl
    · rfl
  · rw [if_neg hcol, if_neg hcol]
    split <;> rfl

/-- The model looks at the rows only. -/
theorem rowLocal_markForward : ForwardRowLocal markForward where
  shape := fun batch h => ⟨_, rfl, by rw [List.length_mapIdx]; exact h.markers⟩
  local_ := fun batch batch' _ _ logits logits' h h' i i' _ _ hview => by
    rw [activeLogits_markForward h, activeLogits_markForward h', hview]

/-- A backend with that model, and with an exponential that is exact at zero. -/
def markNative : NativeBackend where
  bundle := LayaBundle.byteBundle
  arith := .exact
  exp := fun value => if value = .finite 0 then .finite 1 else .finite (1 / 2)
  forward := markForward

/-- A call without a deadline. -/
def stillNative : NativeCall where
  check := fun _ => { now := 0 }
  capacities := fun _ => ⟨0, 0, 0, 0⟩

/-- A choice between two options, a choice with one, and a noul question. -/
def mixedRequests : List InferenceRequest :=
  [LayaBackend.markChoice, { question := lit "a?", input := lit "b", options := [lit "c"] },
    LayaBackend.markNoul]

/-- A call that leaves the head of the noul question in the cache. -/
def mixedHistory : List (NativeCall × List InferenceRequest) :=
  [(stillNative, [LayaBackend.markNoul])]

/-- A choice with one option between two rows is answered, and as its requests are alone. -/
theorem native_batching_mixed :
    ∃ locals turns, (markNative.admitBatch stillNative mixedRequests
        (markNative.after mixedHistory)).1 = some (.ok locals) ∧
      Assembles markNative mixedHistory stillNative mixedRequests locals turns ∧
      ∃ (predicted : Predicted) (alone : Nat → Result Predicted),
        (markNative.predictBatch stillNative mixedRequests (markNative.after mixedHistory)).1 =
          some (.ok predicted) ∧
        predicted.output.map InferenceResponse.scores =
          [[.finite (1 / 3), .finite (2 / 3)], [.finite 1], [.finite (1 / 3), .finite (2 / 3)]] ∧
        (∀ (i : Nat) (request : InferenceRequest), mixedRequests[i]? = some request →
          (markNative.predict (stillNative.alone 3 i stillNative.capacities) request
            (markNative.after [])).1 = some (alone i)) ∧
        (((List.range 3).mapM fun i => (alone i).map Predicted.answers).map List.flatten) =
          .ok predicted.answers := by
  obtain ⟨-, -, hassembles⟩ :=
    @native_batching markNative (.inl rfl) mixedHistory stillNative mixedRequests
  have hadmitted : ((markNative.admitBatch stillNative mixedRequests
      (markNative.after mixedHistory)).1.map fun result => result.map NativeLocals.rows) =
        some (.ok [0, 2]) := by
    decide +kernel
  have hscores : ((markNative.predictBatch stillNative mixedRequests
      (markNative.after mixedHistory)).1.map fun result =>
        result.map fun predicted => predicted.output.map InferenceResponse.scores) =
      some (.ok [[.finite (1 / 3), .finite (2 / 3)], [.finite 1],
        [.finite (1 / 3), .finite (2 / 3)]]) := by
    decide +kernel
  obtain ⟨admission, hlocals, hadmission⟩ := Option.map_eq_some_iff.1 hadmitted
  obtain ⟨result, hresult, hpredicted⟩ := Option.map_eq_some_iff.1 hscores
  cases admission with
  | error failure => cases hadmission
  | ok locals =>
    cases result with
    | error failure => cases hpredicted
    | ok predicted =>
      obtain ⟨turns, h⟩ := hassembles locals hlocals
      obtain ⟨alone, hwhole, hsame⟩ := h.transparent rowLocal_markForward (fun _ => [])
        (fun _ => stillNative.capacities) fun _ => by decide +kernel
      rw [hresult] at hsame
      exact ⟨locals, turns, hlocals, h, predicted, alone, hresult, Except.ok.inj hpredicted, hwhole,
        (Option.some.inj hsame).symm⟩

end NativeBackend

end Jevt
