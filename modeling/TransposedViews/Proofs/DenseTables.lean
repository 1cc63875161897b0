import Mathlib.Data.List.Sort
import TransposedViews.Proofs.LineWriting

/-!
The ways through a dense matrix as tables. Rows are cut off the buffer, columns
are read through a stride or gathered by remainders, and the raw traversal
numbers the buffer. Each of them has the shape of the matrix, also where a shape
without rows or without columns leaves nothing to go through, and comes to the
cell of a position in the place of that position.
-/

namespace TransposedViews

section Tables

variable {β : Type u} {γ : Type v} {outer inner : Nat}

/-- Lists of one length, with an item for each line and place. -/
def table (outer inner : Nat) (item : Nat → Nat → β) : List (List β) :=
  (List.range outer).map fun line => (List.range inner).map (item line)

/-- The item in one place of one line. -/
def itemAt (lines : List (List β)) (line place : Nat) : Option β :=
  lines[line]?.bind fun items => items[place]?

@[simp] theorem length_table (item : Nat → Nat → β) : (table outer inner item).length = outer := by
  rw [table, List.length_map, List.length_range]

theorem length_of_mem_table {item : Nat → Nat → β} {items : List β}
    (h : items ∈ table outer inner item) : items.length = inner := by
  obtain ⟨line, -, rfl⟩ := List.mem_map.mp h
  rw [List.length_map, List.length_range]

theorem itemAt_table {item : Nat → Nat → β} {line place : Nat} (hline : line < outer)
    (hplace : place < inner) : itemAt (table outer inner item) line place =
      some (item line place) := by
  simp [itemAt, table, hline, hplace]

theorem map_table (f : β → γ) (item : Nat → Nat → β) :
    (table outer inner item).map (·.map f) = table outer inner fun line place =>
      f (item line place) := by
  simp only [table, List.map_map, Function.comp_def]

theorem itemAt_map (f : β → γ) (lines : List (List β)) (line place : Nat) :
    itemAt (lines.map (·.map f)) line place = (itemAt lines line place).map f := by
  simp only [itemAt, List.getElem?_map]
  cases lines[line]? with
  | none => rfl
  | some items => simp

end Tables

namespace Dense

variable {α : Type} {β : Type u} {m : Dense α} {nrows ncols : Nat}

section Listing

/-- Cut off row after row, the cells of a buffer are the table of offsets. -/
theorem toList_rows_range : Cursor.toList (⟨List.range (nrows * ncols), ncols, nrows⟩ : Rows Nat) =
    table nrows ncols fun i j => i * ncols + j := by
  rw [toList_rows]
  refine List.map_congr_left fun i hi => List.ext_getElem? fun j => ?_
  have hi : i < nrows := List.mem_range.mp hi
  rcases Nat.lt_or_ge j ncols with hj | hj
  · have hlt := offset_lt hi hj
    rw [List.getElem?_take_of_lt hj, List.getElem?_drop, List.getElem?_range hlt,
      List.getElem?_map, List.getElem?_range hj]
    rfl
  · rw [List.getElem?_take_eq_none hj, List.getElem?_eq_none]
    rw [List.length_map, List.length_range]
    exact hj

/-- The cells with one remainder are the column of offsets. -/
theorem filter_mod_range {j : Nat} (hj : j < ncols) :
    (List.range (nrows * ncols)).filter (· % ncols = j) =
      (List.range nrows).map fun i => i * ncols + j := by
  have hascending : ((List.range nrows).map fun i => i * ncols + j).Pairwise (· < ·) := by
    refine List.pairwise_map.mpr (List.pairwise_lt_range.imp fun hlt => ?_)
    exact Nat.add_lt_add_right (Nat.mul_lt_mul_of_pos_right hlt (by omega)) j
  refine (List.pairwise_lt_range.filter _).eq_of_mem_iff hascending fun k => ?_
  simp only [List.mem_filter, List.mem_range, List.mem_map, decide_eq_true_eq]
  constructor
  · rintro ⟨hk, hmod⟩
    obtain ⟨hi, -, hcell⟩ := position_of_cell hk
    exact ⟨k / ncols, hi, hmod ▸ hcell⟩
  · rintro ⟨i, hi, rfl⟩
    exact ⟨offset_lt hi hj, offset_mod hj⟩

theorem getElem?_toList_strided {stride : Nat} (hstride : 0 < stride) (rest : List β) (i : Nat) :
    (Cursor.toList (⟨rest, stride⟩ : Strided β))[i]? = rest[i * stride]? := by
  induction i generalizing rest with
  | zero =>
      cases rest with
      | nil => rw [Cursor.toList_of_next_none _ rfl]; rfl
      | cons x rest => rw [Cursor.toList_of_next_some _ x rfl]; simp
  | succ i ih =>
      cases rest with
      | nil => rw [Cursor.toList_of_next_none _ rfl]; rfl
      | cons x rest =>
          rw [Cursor.toList_of_next_some _ x rfl, List.getElem?_cons_succ]
          refine (ih (rest.drop (stride - 1))).trans ?_
          have hplace : (i + 1) * stride = (stride - 1 + i * stride) + 1 := by
            rw [Nat.succ_mul]
            omega
          rw [List.getElem?_drop, hplace, List.getElem?_cons_succ]

theorem toList_cols (data : List β) (ncols : Nat) :
    Cursor.toList (⟨data, ncols, 0⟩ : Cols β) =
      (List.range ncols).map fun j => ⟨data.drop j, ncols⟩ :=
  Cursor.toList_of_counting (fun k => (⟨data, ncols, k⟩ : Cols β))
    (fun j => ⟨data.drop j, ncols⟩) ncols fun _ => rfl

/-- Read through the stride, a buffer is the table of its columns. -/
theorem toList_strided_table {data : List β} (hsize : data.length = nrows * ncols) :
    ((Cursor.toList (⟨data, ncols, 0⟩ : Cols β)).map Cursor.toList).map (·.map some) =
      table ncols nrows fun j i => data[i * ncols + j]? := by
  rw [toList_cols, List.map_map, List.map_map]
  refine List.map_congr_left fun j hj => List.ext_getElem? fun i => ?_
  have hj : j < ncols := List.mem_range.mp hj
  rw [Function.comp_apply, Function.comp_apply, List.getElem?_map,
    getElem?_toList_strided (by omega), List.getElem?_drop, Nat.add_comm, List.getElem?_map]
  rcases Nat.lt_or_ge i nrows with hi | hi
  · have hlt : i * ncols + j < data.length := by
      rw [hsize]
      exact offset_lt hi hj
    rw [List.getElem?_range hi, List.getElem?_eq_getElem hlt]
    exact congrArg some (List.getElem?_eq_getElem hlt).symm
  · have hend : data.length ≤ i * ncols + j := by
      rw [hsize]
      exact Nat.le_add_right_of_le (Nat.mul_le_mul_right ncols hi)
    rw [List.getElem?_eq_none hend, List.getElem?_eq_none (by simpa using hi)]
    rfl

/-- Rows of values are the rows of the cells that hold them. -/
theorem toList_rows_values (data : List β) (nrows ncols : Nat) :
    (Cursor.toList (⟨data, ncols, nrows⟩ : Rows β)).map (·.map some) =
      (Cursor.toList (⟨List.range data.length, ncols, nrows⟩ : Rows Nat)).map
        (·.map fun k => data[k]?) := by
  have hvalues : data.map some = (List.range data.length).map fun k => data[k]? := by
    refine List.ext_getElem (by simp) fun k hk _ => ?_
    have hlt : k < data.length := by simpa using hk
    simp [hlt]
  rw [toList_rows, toList_rows, List.map_map, List.map_map]
  refine List.map_congr_left fun i _ => ?_
  simp only [Function.comp_apply, List.map_take, List.map_drop, hvalues]

end Listing

section Paths

theorem toList_rowCells (h : m.WellFormed) :
    Cursor.toList m.rowCells = table m.nrows m.ncols fun i j => i * m.ncols + j := by
  rw [rowCells, cells, h.size_eq]
  exact toList_rows_range

theorem exists_colCells (h : m.WellFormed) : ∃ columns, m.colCells = .ok columns ∧
    Cursor.toList columns = table m.ncols m.nrows fun j i => i * m.ncols + j := by
  obtain ⟨columns, hgathered, hlisted⟩ := colCells_eq h
  refine ⟨columns, hgathered, hlisted.trans ?_⟩
  refine List.map_congr_left fun j hj => ?_
  rw [cells, h.size_eq]
  exact filter_mod_range (List.mem_range.mp hj)

theorem toList_rows_table (h : m.WellFormed) : (Cursor.toList m.rows).map (·.map some) =
    table m.nrows m.ncols fun i j => m.data[i * m.ncols + j]? := by
  have hcells := toList_rowCells h
  rw [rowCells, cells] at hcells
  rw [rows, toList_rows_values, Array.length_toList, hcells, map_table]
  simp only [Array.getElem?_toList]

theorem toList_cols_table (h : m.WellFormed) :
    ((Cursor.toList m.cols).map Cursor.toList).map (·.map some) =
      table m.ncols m.nrows fun j i => m.data[i * m.ncols + j]? := by
  simp only [← Array.getElem?_toList]
  exact toList_strided_table (Array.length_toList.trans h.size_eq)

/-- The cell of a position, whichever way a matrix is gone through to be read
or to be written. -/
structure CellShared (m : Dense α) (columns : Items (List Nat)) (i j : Nat) (x : α) : Prop where
  entry_eq : m.entry i j = .ok (some x)
  set_eq : ∀ y, m.set i j y =
    (.ok (), {m with data := m.data.setIfInBounds (i * m.ncols + j) y})
  erase_eq : m.erase i j = (.ok (), m)
  held : m.data[i * m.ncols + j]? = some x
  row_item : itemAt (Cursor.toList m.rows) i j = some x
  row_cell : itemAt (Cursor.toList m.rowCells) i j = some (i * m.ncols + j)
  col_item : itemAt ((Cursor.toList m.cols).map Cursor.toList) j i = some x
  col_cell : itemAt (Cursor.toList columns) j i = some (i * m.ncols + j)
  raw_item : (Cursor.toList m.rawIndexed)[i * m.ncols + j]? = some ⟨i, j, x⟩
  raw_cell : (Cursor.toList (⟨m.cells, 0, m.ncols⟩ : Positioned Nat))[i * m.ncols + j]? =
    some ⟨i, j, i * m.ncols + j⟩

/-- All ways through a matrix have the shape of the matrix and come to the same
cell for each of its positions. -/
structure PathsAgree (m : Dense α) : Prop where
  rows_shape : (Cursor.toList m.rows).length = m.nrows ∧
    ∀ row ∈ Cursor.toList m.rows, row.length = m.ncols
  rowCells_shape : (Cursor.toList m.rowCells).length = m.nrows ∧
    ∀ row ∈ Cursor.toList m.rowCells, row.length = m.ncols
  cols_shape : (Cursor.toList m.cols).length = m.ncols ∧
    ∀ col ∈ Cursor.toList m.cols, (Cursor.toList col).length = m.nrows
  colCells_shape : ∃ columns, m.colCells = .ok columns ∧
    (Cursor.toList columns).length = m.ncols ∧
    (∀ column ∈ Cursor.toList columns, column.length = m.nrows) ∧
    ∀ i j, i < m.nrows → j < m.ncols → ∃ x, m.CellShared columns i j x

theorem getElem?_toList_positioned {data : List β} {i j : Nat} {x : β} (hj : j < ncols)
    (hx : data[i * ncols + j]? = some x) :
    (Cursor.toList (⟨data, 0, ncols⟩ : Positioned β))[i * ncols + j]? = some ⟨i, j, x⟩ := by
  rw [toList_positioned, List.getElem?_map, List.getElem?_zipIdx, hx]
  simp [offset_div hj, offset_mod hj]

theorem WellFormed.cellShared (h : m.WellFormed) {columns : Items (List Nat)}
    (hcolumns : Cursor.toList columns = table m.ncols m.nrows fun j i => i * m.ncols + j)
    {i j : Nat} (hi : i < m.nrows) (hj : j < m.ncols) : ∃ x, m.CellShared columns i j x := by
  obtain ⟨-, hlt⟩ := cell_eq h hi hj
  have hheld : m.data[i * m.ncols + j]? = some m.data[i * m.ncols + j] :=
    Array.getElem?_eq_getElem hlt
  have hsome : ∀ {found : Option α},
      found.map some = some m.data[i * m.ncols + j]? → found = some m.data[i * m.ncols + j] := by
    rintro (_ | y) hfound
    · cases hfound
    · rw [hheld] at hfound
      cases hfound
      rfl
  refine ⟨m.data[i * m.ncols + j], ?_⟩
  constructor
  · rw [entry_eq h hi hj, lookup, if_pos ⟨hi, hj⟩, hheld]
  · exact Dense.set_eq h hi hj
  · exact Dense.erase_eq hi hj
  · exact hheld
  · apply hsome
    rw [← itemAt_map, toList_rows_table h, itemAt_table hi hj]
  · rw [toList_rowCells h, itemAt_table hi hj]
  · apply hsome
    rw [← itemAt_map, toList_cols_table h, itemAt_table hj hi]
  · rw [hcolumns, itemAt_table hj hi]
  · exact getElem?_toList_positioned hj (by rw [Array.getElem?_toList, hheld])
  · exact getElem?_toList_positioned hj (List.getElem?_range hlt)

theorem WellFormed.pathsAgree (h : m.WellFormed) : m.PathsAgree := by
  have hrows := toList_rows_table h
  have hcells := toList_rowCells h
  have hcols := toList_cols_table h
  obtain ⟨columns, hgathered, hcolumns⟩ := exists_colCells h
  refine ⟨⟨?_, ?_⟩, ⟨?_, ?_⟩, ⟨?_, ?_⟩, columns, hgathered, ?_, ?_, ?_⟩
  · have hlength := congrArg List.length hrows
    rwa [List.length_map, length_table] at hlength
  · intro row hrow
    have hmem : row.map some ∈ table m.nrows m.ncols fun i j => m.data[i * m.ncols + j]? :=
      hrows ▸ List.mem_map_of_mem hrow
    rw [← length_of_mem_table hmem, List.length_map]
  · rw [hcells, length_table]
  · rw [hcells]
    exact fun row hrow => length_of_mem_table hrow
  · have hlength := congrArg List.length hcols
    rwa [List.length_map, List.length_map, length_table] at hlength
  · intro col hcol
    have hmem : (Cursor.toList col).map some ∈
        table m.ncols m.nrows fun j i => m.data[i * m.ncols + j]? :=
      hcols ▸ List.mem_map_of_mem (List.mem_map_of_mem hcol)
    rw [← length_of_mem_table hmem, List.length_map]
  · rw [hcolumns, length_table]
  · rw [hcolumns]
    exact fun column hcolumn => length_of_mem_table hcolumn
  · intro i j hi hj
    exact h.cellShared hcolumns hi hj

/-- Without rows there are still columns to go through, and rows without columns. -/
example : (Cursor.toList (⟨0, 3, #[]⟩ : Dense Nat).cols).map Cursor.toList = [[], [], []] ∧
    Cursor.toList (⟨3, 0, #[]⟩ : Dense Nat).rows = [[], [], []] := by
  decide +kernel

end Paths

end Dense

end TransposedViews
