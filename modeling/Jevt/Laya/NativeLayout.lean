import Jevt.Laya.Batching
import Jevt.Laya.NativeRows

/-!
# The vectors of a native batch

The rows are laid out behind each other, each filled up to the width of the batch, and the markers
are positions in the whole vector (`packRows`). The loops compute that, and no result leaves `int`
where the products of the batch are `int`s (`copyRows_eq`, `layOutRows_eq`). A model that looks at
the rows sees each as its request has made it (`view_packRows`).
-/

namespace Jevt

open Library

/-! ## The vectors -/

/-- A result of small operands is an `int`. -/
theorem checkedInt_natCast {n : Nat} (h : n ≤ intMax) : checkedInt n = some (n : Int) := by
  rw [checkedInt, if_pos]
  omega

/-- The cells of a row: the positions of its markers in the batch, and that of its start. -/
def markerCells (length options i : Nat) (markers : List Int) : List Int :=
  padTo options ((i * length : Nat) : Int) (markers.map fun marker => (i * length : Nat) + marker)

/-- The loop over the columns computes the cells of a row. -/
theorem map_range_eq_markerCells {length options i : Nat} {markers : List Int}
    (h : markers.length ≤ options) :
    ((List.range options).map fun col : Nat => ((i * length : Nat) : Int) +
      if (col : Int) < markers.length then markers.getD col 0 else 0) =
        markerCells length options i markers := by
  refine List.ext_getElem? fun col => ?_
  rw [markerCells, padTo, List.getElem?_map, List.length_map]
  by_cases hcol : col < markers.length
  · rw [List.getElem?_append_left (by simpa using hcol), List.getElem?_map,
      List.getElem?_range (by omega)]
    simp [hcol]
  · rw [List.getElem?_append_right (by simpa using hcol), List.getElem?_replicate]
    by_cases hin : col < options
    · rw [List.getElem?_range hin, if_pos (by rw [List.length_map]; omega)]
      simp [hcol]
    · rw [List.getElem?_eq_none (by simpa using hin), if_neg (by rw [List.length_map]; omega)]
      rfl

/-- The fields of a batch that the loop over the rows reads. -/
structure Copying (rows : List NativeRow) (width columns : Nat) (batch : NativeBatch) : Prop where
  length : batch.length = width
  options : batch.options = columns
  lengths : batch.lengths = rows.map fun row => (row.ids.length : Int)
  counts : batch.counts = rows.map fun row => (row.labels.length : Int)
  smallWidth : rows.length * width ≤ intMax
  smallColumns : rows.length * columns ≤ intMax
  fits : ∀ row ∈ rows, row.ids.length ≤ width ∧ row.labels.length ≤ columns

/-- A row whose markers are inside its sequence, one for each option. -/
structure NativeRow.Fits (row : NativeRow) : Prop where
  count : row.markers.length = row.labels.length
  inside : ∀ marker ∈ row.markers, 0 ≤ marker ∧ marker < row.ids.length

instance (row : NativeRow) : Decidable row.Fits :=
  decidable_of_iff (row.markers.length = row.labels.length ∧
    ∀ marker ∈ row.markers, 0 ≤ marker ∧ marker < row.ids.length)
    ⟨fun h => ⟨h.1, h.2⟩, fun h => ⟨h.count, h.inside⟩⟩

namespace Copying

variable {rows : List NativeRow} {width columns i : Nat} {batch : NativeBatch} {row : NativeRow}

/-- What the loop looks up of a row. -/
theorem getD_eq (h : Copying rows width columns batch) (hrow : rows[i]? = some row) :
    batch.lengths.getD i 0 = row.ids.length ∧ batch.counts.getD i 0 = row.labels.length := by
  simp [h.lengths, h.counts, List.getD_eq_getElem?_getD, hrow]

/-- A row is checked as it is described. -/
theorem rowFits_iff (h : Copying rows width columns batch) (hrow : rows[i]? = some row) :
    batch.rowFits i row.markers = true ↔ row.Fits := by
  obtain ⟨hlength, hcount⟩ := h.getD_eq hrow
  simp only [NativeBatch.rowFits, hlength, hcount, Bool.and_eq_true, decide_eq_true_eq,
    List.all_eq_true, Nat.cast_inj]
  exact ⟨fun h => ⟨h.1, h.2⟩, fun h => ⟨h.count, h.inside⟩⟩

/-- The turn of the loop over the columns stays in `int`. -/
theorem setMarker_eq (h : Copying rows width columns batch) (hrow : rows[i]? = some row)
    (hfits : row.Fits) {col : Nat} (hcol : col < columns) (cells : List Int) :
    batch.setMarker i row.markers cells col =
      some (cells.set (i * columns + col) (((i * width : Nat) : Int) +
        if (col : Int) < row.markers.length then row.markers.getD col 0 else 0)) := by
  obtain ⟨hi, hget⟩ := List.getElem?_eq_some_iff.1 hrow
  have hmem : row ∈ rows := List.mem_of_getElem? hrow
  have hposition := offset_le hi hcol.le h.smallColumns
  have hstart := offset_le hi (h.fits row hmem).1 h.smallWidth
  obtain ⟨marker, hmarker, hle⟩ : ∃ marker : Nat, (marker : Int) =
      (if (col : Int) < row.markers.length then row.markers.getD col 0 else 0) ∧
        marker ≤ row.ids.length := by
    split
    · next hlt =>
      have hcell : row.markers.getD col 0 ∈ row.markers := by
        rw [List.getD_eq_getElem?_getD, List.getElem?_eq_getElem (by omega : col < _),
          Option.getD_some]
        exact List.getElem_mem _
      obtain ⟨hnonneg, hinside⟩ := hfits.inside _ hcell
      exact ⟨(row.markers.getD col 0).toNat, by omega, by omega⟩
    · exact ⟨0, rfl, Nat.zero_le _⟩
  have hvalue : i * width + marker ≤ intMax := by omega
  unfold NativeBatch.setMarker
  rw [h.options, h.length, (h.getD_eq hrow).2, ← hfits.count, ← hmarker, ← Int.natCast_mul,
    ← Int.natCast_mul, checkedInt_natCast (by omega), checkedInt_natCast (by omega)]
  simp only [Option.bind_eq_bind, Option.bind_some, ← Int.natCast_add,
    checkedInt_natCast hposition, checkedInt_natCast hvalue, Int.toNat_natCast, Option.pure_def]

/-- A row is copied to its place in the vectors, without a result that is not an `int`. -/
theorem copyRow_eq (h : Copying rows width columns batch) (hrow : rows[i]? = some row)
    (hfits : row.Fits) (hspace : (i + 1) * columns ≤ batch.markers.length) :
    batch.copyRow i row.ids row.markers = some { batch with
      ids := writeAt (i * width) row.ids batch.ids
      markers :=
        writeAt (i * columns) (markerCells width columns i row.markers) batch.markers } := by
  obtain ⟨hi, hget⟩ := List.getElem?_eq_some_iff.1 hrow
  have hmem : row ∈ rows := List.mem_of_getElem? hrow
  have hstart := offset_le hi (h.fits row hmem).1 h.smallWidth
  have hcells := @foldlM_set Int (batch.setMarker i row.markers) (i * columns) columns _
    (fun col hcol cells => h.setMarker_eq hrow hfits hcol cells) batch.markers
    (by rwa [← Nat.succ_mul])
  unfold NativeBatch.copyRow
  rw [h.length, ← Int.natCast_mul, checkedInt_natCast (by omega), h.options, Int.toNat_natCast,
    Option.bind_eq_bind, Option.bind_some, hcells, map_range_eq_markerCells]
  · rfl
  · rw [hfits.count]
    exact (h.fits row hmem).2

/-- The loop over the columns keeps the fields that are read. -/
theorem copied (h : Copying rows width columns batch) (ids markers : List Int) :
    Copying rows width columns { batch with ids := ids, markers := markers } where
  length := h.length
  options := h.options
  lengths := h.lengths
  counts := h.counts
  smallWidth := h.smallWidth
  smallColumns := h.smallColumns
  fits := h.fits

end Copying

/-- The cells of some rows, from a row on. -/
def cellRows (width columns : Nat) : Nat → List NativeRow → List (List Int)
  | _, [] => []
  | i, row :: rest => markerCells width columns i row.markers :: cellRows width columns (i + 1) rest

/-- **The loop over the rows copies them**, unless the markers of one do not fit; no result leaves
`int`. -/
theorem copyRows_eq {rows : List NativeRow} {width columns : Nat} {locals : NativeLocals}
    (hsequences : locals.sequences = rows.map NativeRow.ids)
    (hmarkers : locals.markers = rows.map NativeRow.markers) {todo : List NativeRow} {i : Nat}
    {batch : NativeBatch} (htodo : rows.drop i = todo) (h : Copying rows width columns batch)
    (hspace : rows.length * columns ≤ batch.markers.length) :
    NativeBatch.copyRows locals todo.length i batch = some
      (if ∀ row ∈ todo, row.Fits then
        .ok { batch with
          ids := writeRows width i (todo.map NativeRow.ids) batch.ids
          markers := writeRows columns i (cellRows width columns i todo) batch.markers }
      else .error NativeBatch.markersError) := by
  induction todo generalizing i batch with
  | nil => simp [NativeBatch.copyRows, writeRows, cellRows]
  | cons row rest ih =>
    obtain ⟨hrow, hrest⟩ := getElem?_of_drop htodo
    obtain ⟨hi, -⟩ := List.getElem?_eq_some_iff.1 hrow
    have hseq : locals.sequences.getD i [] = row.ids := by
      simp [hsequences, List.getD_eq_getElem?_getD, hrow]
    have hmark : locals.markers.getD i [] = row.markers := by
      simp [hmarkers, List.getD_eq_getElem?_getD, hrow]
    rw [List.length_cons, NativeBatch.copyRows, hseq, hmark]
    by_cases hfits : row.Fits
    · have hroom : (i + 1) * columns ≤ batch.markers.length :=
        (Nat.mul_le_mul_right columns hi).trans hspace
      have hkept : (writeAt (i * columns) (markerCells width columns i row.markers)
          batch.markers).length = batch.markers.length := by
        have hcells : (markerCells width columns i row.markers).length = columns :=
          length_padTo (by
            rw [List.length_map, hfits.count]
            exact (h.fits row (List.mem_of_getElem? hrow)).2)
        rw [Nat.succ_mul] at hroom
        simp only [writeAt, List.length_append, List.length_take, List.length_drop, hcells]
        omega
      rw [(h.rowFits_iff hrow).2 hfits, Bool.not_true, if_neg Bool.false_ne_true,
        h.copyRow_eq hrow hfits hroom]
      dsimp only
      rw [ih hrest (h.copied _ _) (by rwa [hkept])]
      simp [hfits, writeRows, cellRows]
    · have hreject : batch.rowFits i row.markers = false :=
        Bool.eq_false_iff.2 fun hrowFits => hfits ((h.rowFits_iff hrow).1 hrowFits)
      rw [hreject, Bool.not_false, if_pos rfl, if_neg fun hall => hfits (hall row (.head _))]

/-- The batch of some rows. -/
def packRows (padId : Int) (rows : List NativeRow) : NativeBatch :=
  { rowFields rows with
    size := rows.length
    ids := (rows.map NativeRow.ids).flatMap (padTo (nativeLength rows) padId)
    markers := (cellRows (nativeLength rows) (nativeOptionCount rows) 0 rows).flatten }

/-- The products of some rows stay in `int`. -/
def SmallProducts (rows : List NativeRow) : Prop :=
  rows.length * max (nativeLength rows) (nativeOptionCount rows) ≤ intMax

instance (rows : List NativeRow) : Decidable (SmallProducts rows) :=
  inferInstanceAs (Decidable (_ ≤ _))

namespace SmallProducts

variable {rows : List NativeRow}

/-- The number of ids is an `int`. -/
theorem length_le (h : SmallProducts rows) : rows.length * nativeLength rows ≤ intMax :=
  (Nat.mul_le_mul_left _ (Nat.le_max_left _ _)).trans h

/-- The number of cells is an `int`. -/
theorem options_le (h : SmallProducts rows) : rows.length * nativeOptionCount rows ≤ intMax :=
  (Nat.mul_le_mul_left _ (Nat.le_max_right _ _)).trans h

end SmallProducts

/-- The products of one row stay in `int`. -/
theorem smallProducts_singleton {row : NativeRow} (h : row.Bounded) : SmallProducts [row] := by
  have hids := h.ids
  have hlabels := h.labels
  have hmax : max (max 8 row.ids.length) (max 2 row.labels.length) ≤ 1024 := by omega
  have hsmall : (1024 : Nat) ≤ intMax := by decide
  exact (Nat.one_mul _).trans_le (hmax.trans hsmall)

/-- The batch is not narrower than any of its rows. -/
theorem row_le_batch {rows : List NativeRow} {row : NativeRow} (h : row ∈ rows) :
    row.ids.length ≤ nativeLength rows ∧ row.labels.length ≤ nativeOptionCount rows :=
  ⟨(le_foldl_max (fun row : NativeRow => row.ids.length) rows 8).2 row h,
    (le_foldl_max (fun row : NativeRow => row.labels.length) rows 2).2 row h⟩

/-- There are as many rows of cells as rows. -/
theorem length_cellRows (width columns i : Nat) (rows : List NativeRow) :
    (cellRows width columns i rows).length = rows.length := by
  induction rows generalizing i with
  | nil => rfl
  | cons row rows ih => rw [cellRows, List.length_cons, ih, List.length_cons]

/-- The rows of cells fill their part of the vector. -/
theorem length_of_mem_cellRows {width columns i : Nat} {rows : List NativeRow}
    (h : ∀ row ∈ rows, row.markers.length ≤ columns) :
    ∀ cells ∈ cellRows width columns i rows, cells.length = columns := by
  induction rows generalizing i with
  | nil => simp [cellRows]
  | cons row rows ih =>
    obtain ⟨hrow, hrows⟩ := List.forall_mem_cons.1 h
    rw [cellRows, List.forall_mem_cons]
    exact ⟨length_padTo (by rwa [List.length_map]), ih hrows⟩

/-- The sequences that are written are those of the rows, filled up. -/
theorem writeRows_ids (padId : Int) (rows : List NativeRow) :
    writeRows (nativeLength rows) 0 (rows.map NativeRow.ids)
        (List.replicate (rows.length * nativeLength rows) padId) =
      (rows.map NativeRow.ids).flatMap (padTo (nativeLength rows) padId) := by
  have hwritten := @writeRows_replicate Int (nativeLength rows) padId (rows.map NativeRow.ids)
    (List.forall_mem_map.2 fun row hrow => (row_le_batch hrow).1) []
  rwa [List.length_map, List.append_nil, List.append_nil] at hwritten

/-- The cells of rows that fit the batch. -/
theorem cells_of_fits {rows : List NativeRow} (h : ∀ row ∈ rows, row.Fits) :
    ∀ cells ∈ cellRows (nativeLength rows) (nativeOptionCount rows) 0 rows,
      cells.length = nativeOptionCount rows :=
  length_of_mem_cellRows fun row hrow => (h row hrow).count.trans_le (row_le_batch hrow).2

/-- The cells that are written are those of the rows. -/
theorem writeRows_cells {rows : List NativeRow} (h : ∀ row ∈ rows, row.Fits) :
    writeRows (nativeOptionCount rows) 0
        (cellRows (nativeLength rows) (nativeOptionCount rows) 0 rows)
        (List.replicate (rows.length * nativeOptionCount rows) 0) =
      (cellRows (nativeLength rows) (nativeOptionCount rows) 0 rows).flatten := by
  have hcells := cells_of_fits h
  have hwritten := @writeRows_replicate Int (nativeOptionCount rows) 0 _
    (fun cells hmem => (hcells cells hmem).le) []
  rwa [length_cellRows, List.append_nil, List.append_nil, flatMap_padTo_of_length hcells]
    at hwritten

/-- **The rows are laid out in order**, where their products are `int`s and their markers fit. -/
theorem NativeBackend.layOutRows_eq {backend : NativeBackend} {locals : NativeLocals}
    {rows : List NativeRow} (hrows : locals.rows.length = rows.length)
    (hsequences : locals.sequences = rows.map NativeRow.ids)
    (hmarkers : locals.markers = rows.map NativeRow.markers)
    (hbatch : locals.batch = rowFields rows) (hfew : rows.length ≤ intMax) :
    backend.layOutRows locals = some
      (if SmallProducts rows then
        if ∀ row ∈ rows, row.Fits then
          .ok { locals with batch := packRows backend.bundle.padId rows }
        else .error NativeBatch.markersError
      else .error NativeBackend.dimensionsError) := by
  have hsize : int32 locals.rows.length = rows.length := by
    rw [hrows, LayaBundle.int32_of_le hfew]
  have hguard : (intMax : Int) / max (rowFields rows).length (rowFields rows).options <
      rows.length ↔ ¬SmallProducts rows := by
    have hmax : max (rowFields rows).length (rowFields rows).options =
        ((max (nativeLength rows) (nativeOptionCount rows) : Nat) : Int) := by
      simp only [rowFields]
      omega
    have hpos : 0 < max (nativeLength rows) (nativeOptionCount rows) := by
      have hlength := (le_foldl_max (fun row : NativeRow => row.ids.length) rows 8).1
      rw [← nativeLength] at hlength
      omega
    rw [hmax, ← Int.natCast_ediv, Int.ofNat_lt, ← Nat.not_le, Nat.le_div_iff_mul_le hpos]
    rfl
  unfold NativeBackend.layOutRows
  rw [hsize, hbatch]
  dsimp only
  rw [if_congr hguard rfl rfl]
  by_cases hsmall : SmallProducts rows
  · have hlength := hsmall.length_le
    have hoptions := hsmall.options_le
    have hwords : intMax < sizeModulus := by decide
    have hcopied := @copyRows_eq rows (nativeLength rows) (nativeOptionCount rows) locals
      hsequences hmarkers rows 0
      { rowFields rows with
        size := rows.length
        ids := List.replicate (rows.length * nativeLength rows) backend.bundle.padId
        markers := List.replicate (rows.length * nativeOptionCount rows) 0 } rfl
      ⟨rfl, rfl, rfl, rfl, hlength, hoptions, fun row hrow => row_le_batch hrow⟩
      (by rw [List.length_replicate])
    rw [if_neg (not_not.2 hsmall), if_pos hsmall]
    simp only [rowFields, Int.toNat_natCast, Nat.mod_eq_of_lt (hlength.trans_lt hwords),
      Nat.mod_eq_of_lt (hoptions.trans_lt hwords)] at hcopied ⊢
    rw [hcopied, Option.map_some]
    by_cases hfits : ∀ row ∈ rows, row.Fits
    · rw [if_pos hfits, if_pos hfits, writeRows_ids, writeRows_cells hfits]
      rfl
    · rw [if_neg hfits, if_neg hfits]
      rfl
  · rw [if_pos hsmall, if_neg hsmall]

/-! ## What the model sees -/

/-- What the model sees of a row: its ids, its markers as positions in it, and its type. -/
structure NativeView where
  ids : List Int
  markers : List Int
  type : Int
  deriving DecidableEq, Repr

namespace NativeBatch

variable (batch : NativeBatch)

/-- A row as the model sees it. -/
def view (i : Nat) : NativeView where
  ids := (row batch.length.toNat i batch.ids).take (batch.lengths.getD i 0).toNat
  markers := ((row batch.options.toNat i batch.markers).take (batch.counts.getD i 0).toNat).map
    (· - i * batch.length)
  type := batch.types.getD i 0

/-- The active logits of a row. -/
def activeLogits (logits : List Floating) (i : Nat) : List Floating :=
  (row batch.options.toNat i logits).take (batch.counts.getD i 0).toNat

/-- A batch whose vectors have the sizes that go with its dimensions, in rows that its counts and
lengths fit into. -/
structure Shaped : Prop where
  lengths : (batch.lengths.length : Int) = batch.size
  counts : (batch.counts.length : Int) = batch.size
  types : (batch.types.length : Int) = batch.size
  ids : (batch.ids.length : Int) = batch.size * batch.length
  markers : (batch.markers.length : Int) = batch.size * batch.options

end NativeBatch

/-- A model that returns a logit for each cell, of which the active ones depend on what it sees of
their row only. -/
structure ForwardRowLocal (forward : NativeBatch → Except StdException (List Floating)) : Prop where
  shape : ∀ batch : NativeBatch, batch.Shaped →
    ∃ logits, forward batch = .ok logits ∧ (logits.length : Int) = batch.size * batch.options
  local_ : ∀ batch batch' : NativeBatch, batch.Shaped → batch'.Shaped → ∀ logits logits',
    forward batch = .ok logits → forward batch' = .ok logits' →
      ∀ i i' : Nat, i < batch.size → i' < batch'.size → batch.view i = batch'.view i' →
        batch.activeLogits logits i = batch'.activeLogits logits' i'

section Packed

variable {padId : Int} {rows : List NativeRow} {i : Nat} {made : NativeRow}

/-- The cells of a row among those of some rows. -/
theorem getElem?_cellRows {width columns start : Nat} (hmade : rows[i]? = some made) :
    (cellRows width columns start rows)[i]? =
      some (markerCells width columns (start + i) made.markers) := by
  induction rows generalizing start i with
  | nil => cases hmade
  | cons first rest ih =>
    cases i with
    | zero =>
      obtain rfl : first = made := Option.some.inj hmade
      rfl
    | succ i =>
      have hrest : (cellRows width columns (start + 1) rest)[i]? =
          some (markerCells width columns (start + 1 + i) made.markers) := ih hmade
      rwa [Nat.add_right_comm] at hrest

/-- The batch of some rows has the sizes of its dimensions. -/
theorem shaped_packRows (h : ∀ row ∈ rows, row.Fits) : (packRows padId rows).Shaped where
  lengths := by simp [packRows, rowFields]
  counts := by simp [packRows, rowFields]
  types := by simp [packRows, rowFields]
  ids := by
    have hids := @length_flatMap_padTo Int (nativeLength rows) padId (rows.map NativeRow.ids)
      (List.forall_mem_map.2 fun row hrow => (row_le_batch hrow).1)
    rw [List.length_map] at hids
    simp only [packRows, rowFields, hids, Int.natCast_mul]
  markers := by
    have hcells := cells_of_fits h
    have hlength := @length_flatMap_padTo Int (nativeOptionCount rows) 0 _
      fun cells hmem => (hcells cells hmem).le
    rw [flatMap_padTo_of_length hcells, length_cellRows] at hlength
    simp only [packRows, rowFields, hlength, Int.natCast_mul]

/-- **The model sees the rows in their order.** -/
theorem view_packRows (h : ∀ row ∈ rows, row.Fits) (hmade : rows[i]? = some made) :
    (packRows padId rows).view i = ⟨made.ids, made.markers, (made.kind.qtype : Int)⟩ := by
  have hmem := List.mem_of_getElem? hmade
  obtain ⟨hlength, hcount⟩ := row_le_batch hmem
  have hids : row (nativeLength rows) i
      ((rows.map NativeRow.ids).flatMap (padTo (nativeLength rows) padId)) =
        padTo (nativeLength rows) padId made.ids := by
    refine row_flatMap_padTo (List.forall_mem_map.2 fun row hrow => (row_le_batch hrow).1) ?_
    rw [List.getElem?_map, hmade, Option.map_some]
  have hcells := cells_of_fits h
  have hmarkers : row (nativeOptionCount rows) i
      (cellRows (nativeLength rows) (nativeOptionCount rows) 0 rows).flatten =
        markerCells (nativeLength rows) (nativeOptionCount rows) i made.markers := by
    have hcell := @getElem?_cellRows rows i made (nativeLength rows) (nativeOptionCount rows) 0
      hmade
    have hrow := @row_flatMap_padTo Int (nativeOptionCount rows) 0 _
      (fun cells hmem => (hcells cells hmem).le) _ _ hcell
    rw [flatMap_padTo_of_length hcells] at hrow
    rw [hrow, padTo_of_length (hcells _ (List.mem_of_getElem? hcell)), Nat.zero_add]
  have htake : (markerCells (nativeLength rows) (nativeOptionCount rows) i made.markers).take
      made.labels.length = made.markers.map fun marker : Int =>
        ((i * nativeLength rows : Nat) : Int) + marker := by
    rw [markerCells, padTo, ← (h made hmem).count,
      List.take_left' (List.length_map _)]
  simp only [NativeBatch.view, packRows, rowFields, Int.toNat_natCast, hids, hmarkers,
    List.getD_eq_getElem?_getD, List.getElem?_map, hmade, Option.map_some, Option.getD_some,
    htake, List.map_map]
  simp [padTo, Function.comp_def]

/-- The active logits of a row. -/
theorem activeLogits_packRows (hmade : rows[i]? = some made) (logits : List Floating) :
    (packRows padId rows).activeLogits logits i =
      (logits.drop (i * nativeOptionCount rows)).take made.labels.length := by
  obtain ⟨-, hcount⟩ := row_le_batch (List.mem_of_getElem? hmade)
  simp only [NativeBatch.activeLogits, packRows, rowFields, Int.toNat_natCast,
    List.getD_eq_getElem?_getD, List.getElem?_map, hmade, Option.map_some, Option.getD_some, row,
    List.take_take, Nat.min_eq_left hcount]

end Packed

end Jevt
