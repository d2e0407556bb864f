import Mathlib.Data.List.Basic

/-!
# Rows in a flat buffer

A matrix is kept in one list, row after row. `writeRows` writes lists of different lengths to the
starts of the rows, and `row` reads a row. Where the buffer is filled with one value before, it is
then made of the lists, each filled up to the width of a row (`writeRows_replicate`), whatever
stands behind it, and each row can be read off again (`row_flatMap_padTo`). A row may also be
written element by element (`foldlM_set`).
-/

namespace Jevt.Library

variable {α : Type*}

/-- Overwrites the elements from a position on. -/
def writeAt (i : Nat) (source target : List α) : List α :=
  target.take i ++ source ++ target.drop (i + source.length)

/-- Writes lists to the starts of the rows from a row on. -/
def writeRows (width : Nat) : Nat → List (List α) → List α → List α
  | _, [], target => target
  | i, source :: rest, target =>
    writeRows width (i + 1) rest (writeAt (i * width) source target)

/-- A list filled up to a length. -/
def padTo (width : Nat) (fill : α) (l : List α) : List α :=
  l ++ List.replicate (width - l.length) fill

/-- A row of a buffer. -/
def row (width : Nat) (i : Nat) (buffer : List α) : List α :=
  (buffer.drop (i * width)).take width

/-- A list that is short enough is filled up to the length. -/
theorem length_padTo {width : Nat} {fill : α} {l : List α} (h : l.length ≤ width) :
    (padTo width fill l).length = width := by
  rw [padTo, List.length_append, List.length_replicate, Nat.add_sub_cancel' h]

/-- Overwriting the first elements behind a part leaves the part and the rest. -/
theorem writeAt_append (pre source old post : List α) (h : old.length = source.length) :
    writeAt pre.length source (pre ++ old ++ post) = pre ++ source ++ post := by
  have htake : (pre ++ old ++ post).take pre.length = pre := by
    rw [List.append_assoc, List.take_left]
  have hdrop : (pre ++ old ++ post).drop (pre.length + source.length) = post := by
    rw [← h, ← List.length_append, List.drop_left]
  rw [writeAt, htake, hdrop]

/-- Rows that are written behind others into a filled buffer are the lists, filled up. -/
theorem writeRows_append {width : Nat} {fill : α} {rows : List (List α)}
    (h : ∀ l ∈ rows, l.length ≤ width) (post : List α) {pre : List α} {i : Nat}
    (hpre : pre.length = i * width) :
    writeRows width i rows (pre ++ List.replicate (rows.length * width) fill ++ post) =
      pre ++ rows.flatMap (padTo width fill) ++ post := by
  induction rows generalizing pre i with
  | nil => simp [writeRows]
  | cons l rows ih =>
    obtain ⟨hl, hrows⟩ := List.forall_mem_cons.1 h
    have hfill : List.replicate ((l :: rows).length * width) fill =
        List.replicate l.length fill ++ (List.replicate (width - l.length) fill ++
          List.replicate (rows.length * width) fill) := by
      rw [List.replicate_append_replicate, List.replicate_append_replicate, List.length_cons,
        Nat.succ_mul]
      congr 1
      omega
    have hwritten : writeAt (i * width) l
        (pre ++ List.replicate ((l :: rows).length * width) fill ++ post) =
          pre ++ padTo width fill l ++ List.replicate (rows.length * width) fill ++ post := by
      rw [hfill, ← hpre, ← List.append_assoc pre, List.append_assoc _ _ post,
        writeAt_append _ _ _ _ List.length_replicate]
      simp only [padTo, List.append_assoc]
    have hnext : (pre ++ padTo width fill l).length = (i + 1) * width := by
      rw [List.length_append, hpre, length_padTo hl, Nat.succ_mul]
    rw [writeRows, hwritten, ih hrows hnext, List.flatMap_cons, List.append_assoc pre]

/-- **Rows that are written into a filled buffer are the lists, filled up.** -/
theorem writeRows_replicate {width : Nat} {fill : α} {rows : List (List α)}
    (h : ∀ l ∈ rows, l.length ≤ width) (post : List α) :
    writeRows width 0 rows (List.replicate (rows.length * width) fill ++ post) =
      rows.flatMap (padTo width fill) ++ post := by
  have hrows := @writeRows_append α width fill rows h post [] 0 (Nat.zero_mul width).symm
  rwa [List.nil_append, List.nil_append] at hrows

/-- Lists that are filled up take a row each. -/
theorem length_flatMap_padTo {width : Nat} {fill : α} {rows : List (List α)}
    (h : ∀ l ∈ rows, l.length ≤ width) :
    (rows.flatMap (padTo width fill)).length = rows.length * width := by
  induction rows with
  | nil => simp
  | cons l rows ih =>
    obtain ⟨hl, hrows⟩ := List.forall_mem_cons.1 h
    rw [List.flatMap_cons, List.length_append, length_padTo hl, ih hrows, List.length_cons,
      Nat.succ_mul, Nat.add_comm]

/-- A row of lists that are filled up is one of them, filled up. -/
theorem row_flatMap_padTo {width : Nat} {fill : α} {rows : List (List α)}
    (h : ∀ l ∈ rows, l.length ≤ width) {i : Nat} {l : List α} (hl : rows[i]? = some l) :
    row width i (rows.flatMap (padTo width fill)) = padTo width fill l := by
  induction rows generalizing i with
  | nil => cases hl
  | cons first rows ih =>
    obtain ⟨hfirst, hrows⟩ := List.forall_mem_cons.1 h
    rw [List.flatMap_cons, row]
    cases i with
    | zero =>
      obtain rfl : first = l := Option.some.inj hl
      rw [Nat.zero_mul, List.drop_zero, List.take_left' (length_padTo hfirst)]
    | succ i =>
      have hskip : (i + 1) * width = (padTo width fill first).length + i * width := by
        rw [length_padTo hfirst, Nat.succ_mul, Nat.add_comm]
      rw [hskip, List.drop_append, List.drop_eq_nil_of_le (Nat.le_add_right _ _),
        Nat.add_sub_cancel_left, List.nil_append]
      exact ih hrows hl

/-- A list that is long enough is not filled up. -/
theorem padTo_of_length {width : Nat} {fill : α} {l : List α} (h : l.length = width) :
    padTo width fill l = l := by
  rw [padTo, h, Nat.sub_self, List.replicate_zero, List.append_nil]

/-- Lists that are long enough are not filled up. -/
theorem flatMap_padTo_of_length {width : Nat} {fill : α} {rows : List (List α)}
    (h : ∀ l ∈ rows, l.length = width) : rows.flatMap (padTo width fill) = rows.flatten := by
  rw [← List.flatMap_id]
  exact List.flatMap_congr fun l hl => padTo_of_length (h l hl)

/-! ## Element by element -/

/-- The rest of a list from a position on, and the element there. -/
theorem getElem?_of_drop {l rest : List α} {a : α} {i : Nat}
    (h : l.drop i = a :: rest) : l[i]? = some a ∧ l.drop (i + 1) = rest := by
  constructor
  · rw [← List.head?_drop, h, List.head?_cons]
  · rw [← List.tail_drop, h, List.tail_cons]

/-- Changes the first element behind a part. -/
theorem modify_append_cons {pre : List α} {i : Nat} (hi : pre.length = i) (f : α → α)
    (a : α) (post : List α) : (pre ++ a :: post).modify i f = pre ++ [f a] ++ post := by
  induction pre generalizing i with
  | nil =>
    subst hi
    simp
  | cons first pre ih =>
    obtain rfl : pre.length + 1 = i := hi
    simp [ih rfl]

/-- Replaces the first element behind a part. -/
theorem set_append_cons {pre : List α} {i : Nat} (hi : pre.length = i) (a b : α)
    (post : List α) : (pre ++ a :: post).set i b = pre ++ [b] ++ post := by
  subst hi
  simp

/-- A position inside a row is inside the matrix. -/
theorem offset_le {i size width m limit : Nat} (hi : i < size) (hm : m ≤ width)
    (h : size * width ≤ limit) : i * width + m ≤ limit :=
  calc
    i * width + m ≤ i * width + width := Nat.add_le_add_left hm _
    _ = (i + 1) * width := (Nat.succ_mul i width).symm
    _ ≤ size * width := Nat.mul_le_mul_right width hi
    _ ≤ limit := h

/-- A longer source is written element by element. -/
theorem writeAt_concat {i : Nat} {source target : List α} (a : α)
    (h : i + source.length < target.length) :
    writeAt i (source ++ [a]) target = (writeAt i source target).set (i + source.length) a := by
  have hpre : (target.take i ++ source).length = i + source.length := by
    simp
    omega
  rw [writeAt, writeAt, List.drop_eq_getElem_cons h, set_append_cons hpre]
  simp [Nat.add_assoc]

/-- A loop that sets the elements from a position on writes them there. -/
theorem foldlM_set {f : List α → Nat → Option (List α)} {base n : Nat} {value : Nat → α}
    (hf : ∀ col < n, ∀ cells, f cells col = some (cells.set (base + col) (value col)))
    {cells : List α} (h : base + n ≤ cells.length) :
    (List.range n).foldlM f cells = some (writeAt base ((List.range n).map value) cells) := by
  induction n with
  | zero => simp [writeAt]
  | succ n ih =>
    have hrest := ih (fun col hcol => hf col (by omega)) (by omega)
    have hwritten : base + ((List.range n).map value).length < cells.length := by
      simp
      omega
    rw [List.range_succ, List.foldlM_append, hrest, List.map_append, List.map_singleton,
      writeAt_concat _ hwritten]
    simp [hf n (by omega)]

end Jevt.Library
