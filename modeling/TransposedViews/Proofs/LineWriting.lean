import TransposedViews.Proofs.Rewriting

/-!
The traversals that write, for each storage. The raw ones come to the cells in
storage order; rows are cut off a buffer, columns and coordinate lines are
grouped, sparse lines are walked. Whichever it is, the cells of one line are
those whose positions have its number.
-/

namespace TransposedViews

section Unlabelled

variable {κ : Type v}

theorem toList_unlabelled (cells : List κ) :
    Cursor.toList (⟨⟨cells⟩, fun cell => ((), cell)⟩ : Mapped (Items κ) κ (Unit × κ)) =
      cells.map fun cell => ((), cell) := by
  rw [Cursor.toList_mapped, Matrix.toList_items]

variable {S : Type u} {α : Type w} [DecidableEq κ] [Cells S κ α] [UniformCells S κ α]
  {position : κ → Nat × Nat} {s : S} {items : List (α × κ)} {entries : List (IndexedEntry α)}
  {cells : List κ}

/-- A traversal of the cells alone. -/
theorem Layout.runCells_overwrites (h : Layout position s items)
    (hentries : entries = items.map (entryAt position)) (f : Nat → Nat → α → α) (n : Nat)
    (hcells : cells = items.map Prod.snd) :
    ∃ cursor', Script.run (replacements f (entries.take n))
        (⟨⟨cells⟩, fun cell => ((), cell)⟩ : Mapped (Items κ) κ (Unit × κ)) s =
      (reports (fun _ => ()) (entries.take n), cursor', mapPositions position
        (overwriting f ((entries.take n).map IndexedEntry.position)) s) := by
  refine h.run_overwrites hentries (fun _ => ()) f n ?_
  rw [toList_unlabelled, hcells, List.map_map]
  rfl

end Unlabelled

namespace Dense

variable {α : Type} {m : Dense α} {entries : List (IndexedEntry α)}

theorem cells_eq (m : Dense α) : m.cells = m.items.map Prod.snd := by
  rw [items, map_snd_zipIdx]
  rfl

/-- The cells of the buffer, each with its position. -/
theorem toList_positioned_cells (m : Dense α) :
    Cursor.toList (⟨⟨m.cells, 0, m.ncols⟩, fun e => ((e.row, e.col), e.value)⟩ :
      Mapped (Positioned Nat) (IndexedEntry Nat) ((Nat × Nat) × Nat)) =
        m.items.map fun p => (m.cellPosition p.2, p.2) := by
  have hcells := zipIdx_range_length m.data.toList
  rw [Array.length_toList] at hcells
  rw [Cursor.toList_mapped, toList_positioned, cells, hcells, List.map_map, List.map_map]
  rfl

theorem runIndexed_overwrites (h : m.WellFormed)
    (hentries : entries = m.items.map (entryAt m.cellPosition)) (f : Nat → Nat → α → α) (n : Nat) :
    m.runIndexed (replacements f (entries.take n)) = (reports id (entries.take n),
      m.mapEntries (overwriting f ((entries.take n).map IndexedEntry.position))) := by
  obtain ⟨cursor', hrun⟩ := (layout h).run_overwrites hentries id f n (toList_positioned_cells m)
  rw [runIndexed, hrun]
  rfl

theorem runRaw_overwrites (h : m.WellFormed)
    (hentries : entries = m.items.map (entryAt m.cellPosition)) (f : Nat → Nat → α → α) (n : Nat) :
    m.runRaw (replacements f (entries.take n)) = (reports (fun _ => ()) (entries.take n),
      m.mapEntries (overwriting f ((entries.take n).map IndexedEntry.position))) := by
  obtain ⟨cursor', hrun⟩ := (layout h).runCells_overwrites hentries f n (cells_eq m)
  rw [runRaw, hrun]
  rfl

/-- The rows still to come, each cut off where it begins. -/
theorem toList_rows {β : Type u} (rest : List β) (ncols remaining : Nat) :
    Cursor.toList (⟨rest, ncols, remaining⟩ : Rows β) =
      (List.range remaining).map fun i => (rest.drop (i * ncols)).take ncols := by
  induction remaining generalizing rest with
  | zero => exact Cursor.toList_of_next_none _ rfl
  | succ remaining ih =>
      rw [Cursor.toList_of_next_some _ _ rfl]
      refine (congrArg (_ :: ·) (ih (rest.drop ncols))).trans ?_
      rw [List.range_succ_eq_map, List.map_cons, List.map_map, Nat.zero_mul, List.drop_zero]
      refine congrArg (_ :: ·) (List.map_congr_left fun i _ => ?_)
      simp [List.drop_drop, Nat.succ_mul, Nat.add_comm]

/-- In its row a cell is found by its column. -/
theorem getElem?_row {c : Nat} (hc : c < m.data.size) (hcols : 0 < m.ncols) :
    ((m.cells.drop (c / m.ncols * m.ncols)).take m.ncols)[c % m.ncols]? = some c := by
  have hmod : c % m.ncols < m.ncols := Nat.mod_lt c hcols
  have hsum : c / m.ncols * m.ncols + c % m.ncols = c := Nat.div_add_mod' c m.ncols
  rw [List.getElem?_take_of_lt hmod, List.getElem?_drop, hsum, cells, List.getElem?_range hc]

theorem runRows_overwrites (h : m.WellFormed)
    (hentries : entries = m.items.map (entryAt m.cellPosition)) (f : Nat → Nat → α → α)
    (count : Nat → Nat) {k : Nat} (hk : k ≤ m.nrows) :
    ∃ left, m.runRows (LineWriter.slice.scripts Prod.fst Prod.snd f entries count k) =
      (.ok (LineWriter.slice.lineReplies Prod.fst Prod.snd entries count k, left),
        m.mapEntries
          (overwriting f ((lineParts Prod.fst entries count k).map IndexedEntry.position))) := by
  have hedit : ∀ i < m.nrows, EditOverwrites m.cellPosition m.data Prod.snd f .slice
      (LineScript.runContiguous ((m.cells.drop (i * m.ncols)).take m.ncols))
      (m.items.filter fun p => (m.cellPosition p.2).1 = i) := by
    intro i _ visited hvisited t _ ht
    rw [LineWriter.script, LineWriter.replies, List.map_map, List.map_map]
    refine LineScript.runContiguous_overwrites (fun c => (m.cellPosition c).2)
      (fun c => f (m.cellPosition c).1 (m.cellPosition c).2) ht fun p hp => ?_
    obtain ⟨hmem, hrow⟩ := List.mem_filter.mp (hvisited.subset hp)
    have hread := (read_array_iff m.data p.2 p.1).mpr hmem
    obtain ⟨hlt, -⟩ := Array.getElem?_eq_some_iff.mp hread
    obtain ⟨-, hcol, -⟩ := position_of_cell (h.size_eq ▸ hlt)
    have hline : p.2 / m.ncols = i := of_decide_eq_true hrow
    rw [← hline]
    exact getElem?_row hlt (Nat.lt_of_le_of_lt (Nat.zero_le _) hcol)
  obtain ⟨left, hrun⟩ := (layout h).runLines_overwrites hentries f Prod.fst Prod.snd .slice count
    (toList_rows m.cells m.ncols m.nrows) hedit hk
  refine ⟨left, ?_⟩
  rw [runRows, rowCells, hrun]
  rfl

/-- Runs a script on a column that was gathered before. -/
def editColumn (column : List Nat) (script : LineScript α) (values : Array α) :
    Except Fault (List (LineReply α)) × Array α :=
  let (replies, values) :=
    LineScript.runWalk (fun (_ : Unit) x => .value x) script
      (⟨⟨column⟩, fun cell => ((), cell)⟩ : Mapped (Items Nat) Nat (Unit × Nat)) values
  (.ok replies, values)

/-- Gathering the columns is never refused, and each one is left with the cells
of its number. -/
theorem colCells_eq (h : m.WellFormed) : ∃ columns, m.colCells = .ok columns ∧
    Cursor.toList columns = (List.range m.ncols).map fun j => m.cells.filter (· % m.ncols = j) := by
  have hinside : ∀ p ∈ m.cells.map fun k => (k % m.ncols, k), p.1 < m.ncols := by
    intro p hp
    obtain ⟨c, hc, rfl⟩ := List.mem_map.mp hp
    have hlt : c < m.nrows * m.ncols := h.size_eq ▸ List.mem_range.mp hc
    exact (position_of_cell hlt).2.1
  obtain ⟨columns, hgrouped, hcolumns⟩ := distribute_eq hinside
  refine ⟨⟨columns.toList⟩, ?_, ?_⟩
  · rw [colCells, hgrouped]
    rfl
  · rw [Matrix.toList_items, hcolumns]
    simp only [List.map_map, List.filter_map, Function.comp_def, List.map_id']

theorem runCols_overwrites (h : m.WellFormed)
    (hentries : entries = m.items.map (entryAt m.cellPosition)) (f : Nat → Nat → α → α)
    (count : Nat → Nat) {k : Nat} (hk : k ≤ m.ncols) :
    ∃ left, m.runCols (LineWriter.values.scripts Prod.snd Prod.fst f entries count k) =
      (.ok (LineWriter.values.lineReplies Prod.snd Prod.fst entries count k, left),
        m.mapEntries
          (overwriting f ((lineParts Prod.snd entries count k).map IndexedEntry.position))) := by
  obtain ⟨columns, hgathered, hlisted⟩ := colCells_eq h
  have hcursor : Cursor.toList columns = (List.range m.ncols).map fun j =>
      (m.items.filter fun p => (m.cellPosition p.2).2 = j).map Prod.snd := by
    rw [hlisted, cells_eq]
    simp only [List.filter_map, Function.comp_def]
    rfl
  have hedit : ∀ j < m.ncols, EditOverwrites m.cellPosition m.data Prod.fst f .values
      (editColumn ((m.items.filter fun p => (m.cellPosition p.2).2 = j).map Prod.snd))
      (m.items.filter fun p => (m.cellPosition p.2).2 = j) := by
    intro j _ visited hvisited t _ ht
    have hbegins : (visited.map fun p => ((), p.2)) <+:
        Cursor.toList (⟨⟨(m.items.filter fun p => (m.cellPosition p.2).2 = j).map Prod.snd⟩,
          fun cell => ((), cell)⟩ : Mapped (Items Nat) Nat (Unit × Nat)) := by
      rw [toList_unlabelled, List.map_map]
      exact hvisited.map fun p => ((), p.2)
    have hwalk := LineScript.runWalk_overwrites (fun (_ : Unit) x => .value x) (fun _ => ())
      (fun c => f (m.cellPosition c).1 (m.cellPosition c).2) ht hbegins
    rw [LineWriter.script, LineWriter.replies, List.map_map, List.map_map]
    exact congrArg (fun run => (Except.ok run.1, run.2)) hwalk
  obtain ⟨left, hrun⟩ := (layout h).runLines_overwrites hentries f Prod.snd Prod.fst .values count
    hcursor hedit hk
  refine ⟨left, ?_⟩
  rw [runCols, hgathered]
  exact congrArg (fun run => (run.1, {m with data := run.2})) hrun

end Dense

namespace Coordinate

variable {α : Type} {m : Coordinate α} {entries : List (IndexedEntry α)}

theorem cells_eq (m : Coordinate α) : m.cells = m.items.map Prod.snd := by
  rw [items, map_snd_zipIdx]
  rfl

theorem zipIdx_cells (m : Coordinate α) : m.cells.zipIdx = m.items.map fun p => (p.2, p.2) :=
  zipIdx_range_length m.values.toList

theorem byRow_cells (h : m.WellFormed) : m.byRow m.cells =
    m.items.map fun p => ((m.cellPosition p.2).1, (m.cellPosition p.2).2, p.2) := by
  have hlength : m.cells.length = m.values.size := List.length_range
  rw [byRow, zip_slots (h.rows_size.trans hlength.symm) (h.cols_size.trans hlength.symm),
    zipIdx_cells, List.map_map]
  rfl

theorem byCol_cells (h : m.WellFormed) : m.byCol m.cells =
    m.items.map fun p => ((m.cellPosition p.2).2, (m.cellPosition p.2).1, p.2) := by
  have hlength : m.cells.length = m.values.size := List.length_range
  rw [byCol, zip_slots (h.cols_size.trans hlength.symm) (h.rows_size.trans hlength.symm),
    zipIdx_cells, List.map_map]
  rfl

/-- The slots, each with its position. -/
theorem toList_indexed_cells (h : m.WellFormed) :
    Cursor.toList (⟨⟨m.rowIndices.toList, m.colIndices.toList, m.cells⟩,
        fun e => ((e.row, e.col), e.value)⟩ :
      Mapped (Indexed Nat) (IndexedEntry Nat) ((Nat × Nat) × Nat)) =
        m.items.map fun p => (m.cellPosition p.2, p.2) := by
  have hcells := byRow_cells h
  rw [byRow] at hcells
  rw [Cursor.toList_mapped, toList_indexed, hcells, List.map_map, List.map_map]
  rfl

theorem runIndexed_overwrites (h : m.WellFormed)
    (hentries : entries = m.items.map (entryAt m.cellPosition)) (f : Nat → Nat → α → α) (n : Nat) :
    m.runIndexed (replacements f (entries.take n)) = (reports id (entries.take n),
      m.mapEntries (overwriting f ((entries.take n).map IndexedEntry.position))) := by
  obtain ⟨cursor', hrun⟩ := (layout h).run_overwrites hentries id f n (toList_indexed_cells h)
  rw [runIndexed, hrun]
  rfl

theorem runRaw_overwrites (h : m.WellFormed)
    (hentries : entries = m.items.map (entryAt m.cellPosition)) (f : Nat → Nat → α → α) (n : Nat) :
    m.runRaw (replacements f (entries.take n)) = (reports (fun _ => ()) (entries.take n),
      m.mapEntries (overwriting f ((entries.take n).map IndexedEntry.position))) := by
  obtain ⟨cursor', hrun⟩ := (layout h).runCells_overwrites hentries f n (cells_eq m)
  rw [runRaw, hrun]
  rfl

/-- Runs a script on a line that was grouped before. -/
def editLine (line : List (Nat × Nat)) (script : LineScript α) (values : Array α) :
    Except Fault (List (LineReply α)) × Array α :=
  let (replies, values) :=
    LineScript.runWalk .stored script (⟨line⟩ : Items (Nat × Nat)) values
  (.ok replies, values)

/-- Grouping by a number that all entries have inside the bound is never
refused, and each line is left with its entries in storage order. -/
theorem groupLines_eq (key index : Nat × Nat → Nat) {number : Nat}
    (hinside : ∀ p ∈ m.items, key (m.cellPosition p.2) < number) :
    ∃ lines, groupLines number (m.items.map fun p =>
        (key (m.cellPosition p.2), index (m.cellPosition p.2), p.2)) = .ok lines ∧
      Cursor.toList lines = (List.range number).map fun i =>
        (m.items.filter fun p => key (m.cellPosition p.2) = i).map fun p =>
          (index (m.cellPosition p.2), p.2) := by
  have hkeys : ∀ p ∈ m.items.map fun p =>
      (key (m.cellPosition p.2), index (m.cellPosition p.2), p.2), p.1 < number :=
    List.forall_mem_map.mpr hinside
  obtain ⟨lines, hdistributed, hlines⟩ := distribute_eq hkeys
  refine ⟨⟨lines.toList⟩, ?_, ?_⟩
  · rw [groupLines, hdistributed]
    rfl
  · rw [Matrix.toList_items, hlines]
    simp only [List.map_map, List.filter_map, Function.comp_def]

/-- Lines in either direction, whichever of row and column selects the line. -/
theorem runGrouped_overwrites (h : m.WellFormed)
    (hentries : entries = m.items.map (entryAt m.cellPosition)) (f : Nat → Nat → α → α)
    (key index : Nat × Nat → Nat) {number : Nat}
    (hinside : ∀ p ∈ m.items, key (m.cellPosition p.2) < number) (count : Nat → Nat) {k : Nat}
    (hk : k ≤ number) :
    ∃ left, m.runGrouped
        (groupLines number (m.items.map fun p =>
          (key (m.cellPosition p.2), index (m.cellPosition p.2), p.2)))
        (LineWriter.pairs.scripts key index f entries count k) =
      (.ok (LineWriter.pairs.lineReplies key index entries count k, left),
        m.mapEntries
          (overwriting f ((lineParts key entries count k).map IndexedEntry.position))) := by
  obtain ⟨lines, hgrouped, hcursor⟩ := groupLines_eq key index hinside
  have hedit : ∀ i < number, EditOverwrites m.cellPosition m.values index f .pairs
      (editLine ((m.items.filter fun p => key (m.cellPosition p.2) = i).map fun p =>
        (index (m.cellPosition p.2), p.2)))
      (m.items.filter fun p => key (m.cellPosition p.2) = i) := by
    intro i _ visited hvisited t _ ht
    have hbegins : (visited.map fun p => (index (m.cellPosition p.2), p.2)) <+:
        Cursor.toList (⟨(m.items.filter fun p => key (m.cellPosition p.2) = i).map fun p =>
          (index (m.cellPosition p.2), p.2)⟩ : Items (Nat × Nat)) := by
      rw [Matrix.toList_items]
      exact hvisited.map fun p => (index (m.cellPosition p.2), p.2)
    have hwalk := LineScript.runWalk_overwrites .stored (fun c => index (m.cellPosition c))
      (fun c => f (m.cellPosition c).1 (m.cellPosition c).2) ht hbegins
    rw [LineWriter.script, LineWriter.replies, List.map_map, List.map_map]
    exact congrArg (fun run => (Except.ok run.1, run.2)) hwalk
  obtain ⟨left, hrun⟩ := (layout h).runLines_overwrites hentries f key index .pairs count hcursor
    hedit hk
  refine ⟨left, ?_⟩
  rw [hgrouped]
  exact congrArg (fun run => (run.1, {m with values := run.2})) hrun

/-- Every slot holds a position inside the matrix. -/
theorem cellPosition_inside (h : m.WellFormed) {p : α × Nat} (hp : p ∈ m.items) :
    (m.cellPosition p.2).1 < m.nrows ∧ (m.cellPosition p.2).2 < m.ncols := by
  have hread := (read_array_iff m.values p.2 p.1).mpr hp
  obtain ⟨hlt, -⟩ := Array.getElem?_eq_some_iff.mp hread
  obtain ⟨i, j, hheld⟩ := h.holds_of_lt hlt
  rw [cellPosition_of_holds hheld]
  exact h.inside p.2 i j hheld

theorem runRows_overwrites (h : m.WellFormed)
    (hentries : entries = m.items.map (entryAt m.cellPosition)) (f : Nat → Nat → α → α)
    (count : Nat → Nat) {k : Nat} (hk : k ≤ m.nrows) :
    ∃ left, m.runRows (LineWriter.pairs.scripts Prod.fst Prod.snd f entries count k) =
      (.ok (LineWriter.pairs.lineReplies Prod.fst Prod.snd entries count k, left),
        m.mapEntries
          (overwriting f ((lineParts Prod.fst entries count k).map IndexedEntry.position))) := by
  rw [runRows, rowCells, byRow_cells h]
  exact runGrouped_overwrites h hentries f Prod.fst Prod.snd
    (fun p hp => (cellPosition_inside h hp).1) count hk

theorem runCols_overwrites (h : m.WellFormed)
    (hentries : entries = m.items.map (entryAt m.cellPosition)) (f : Nat → Nat → α → α)
    (count : Nat → Nat) {k : Nat} (hk : k ≤ m.ncols) :
    ∃ left, m.runCols (LineWriter.pairs.scripts Prod.snd Prod.fst f entries count k) =
      (.ok (LineWriter.pairs.lineReplies Prod.snd Prod.fst entries count k, left),
        m.mapEntries
          (overwriting f ((lineParts Prod.snd entries count k).map IndexedEntry.position))) := by
  rw [runCols, colCells, byCol_cells h]
  exact runGrouped_overwrites h hentries f Prod.snd Prod.fst
    (fun p hp => (cellPosition_inside h hp).2) count hk

end Coordinate

namespace SparseVector

variable {α : Type} {v : SparseVector α}

theorem cells_eq (h : v.WellFormed) :
    v.cells = v.values.zipIdx.map fun q => (v.indices.getD q.2 0, q.2) := by
  have hlength : v.indices.length = (List.range v.values.length).length :=
    h.length_eq.trans List.length_range.symm
  rw [cells, zip_eq_zipIdx_map hlength 0, zipIdx_range_length, List.map_map]
  rfl

/-- A walk over the first values of a line. -/
theorem runScript_overwrites (h : v.WellFormed) (f : Nat → α → α) {visited : List (α × Nat)}
    (hvisited : Contents v.values visited)
    (hbegins : visited.map Prod.snd <+: List.range v.values.length) :
    v.runScript (visited.map fun q => .next (some (f q.2 q.1))) =
      (visited.map fun q => .item (v.indices.getD q.2 0) q.1,
        {v with values := TransposedViews.overwrite f (visited.map Prod.snd) v.values}) := by
  have hcursor : (visited.map fun q => (v.indices.getD q.2 0, q.2)) <+:
      Cursor.toList (⟨v.cells⟩ : Items (Nat × Nat)) := by
    rw [← map_snd_zipIdx] at hbegins
    have hpairs := hbegins.map fun p => (v.indices.getD p 0, p)
    rw [List.map_map, List.map_map] at hpairs
    rw [Matrix.toList_items, cells_eq h]
    exact hpairs
  obtain ⟨cursor', hrun⟩ := Script.run_overwrites (fun p => v.indices.getD p 0) f hvisited hcursor
  rw [runScript, hrun]

end SparseVector

namespace SparseLines

open UniformCells

variable {α : Type} {s : SparseLines α} {i : Nat} {line : SparseVector α}

/-- The cells line by line, each with its position. -/
theorem toList_cellEntries_lines (s : SparseLines α) :
    Cursor.toList s.cellEntries = s.lines.toList.zipIdx.flatMap fun (line, major) =>
      line.cells.map fun (minor, position) => (major, minor, (major, position)) := by
  have hnumbered : (s.lines.toList.zipIdx.map fun (t : SparseVector α × Nat) =>
        t.1.cells.map fun q => (q.1, (t.2, q.2))).zipIdx =
      s.lines.toList.zipIdx.map fun t => (t.1.cells.map fun q => (q.1, (t.2, q.2)), t.2) := by
    refine List.ext_getElem (by simp) fun k _ _ => ?_
    simp
  refine (Entries.toList_ofLines _).trans ?_
  rw [Entries.numbered, hnumbered, List.flatMap_map]
  exact List.flatMap_congr fun t _ => List.map_map

theorem toList_cellEntries (h : s.WellFormed) :
    Cursor.toList s.cellEntries =
      s.items.map fun p => ((s.cellPosition p.2).1, (s.cellPosition p.2).2, p.2) := by
  rw [toList_cellEntries_lines, items, List.map_flatMap]
  refine List.flatMap_congr fun t ht => ?_
  obtain ⟨line, i⟩ := t
  have hget : s.lines[i]? = some line := by
    simpa using List.mem_zipIdx_iff_getElem?.mp ht
  have hwf := (h line (Array.mem_of_getElem? hget)).toWellFormed
  simp only [SparseVector.cells_eq hwf, List.map_map]
  refine List.map_congr_left fun q _ => ?_
  simp [cellPosition, hget]

/-- The cells of a line are the places of its values. -/
theorem items_of_line (hline : s.lines[i]? = some line) :
    s.items.filter (fun p => p.2.1 = i) = line.values.zipIdx.map fun q => (q.1, (i, q.2)) := by
  have hmem : (line, i) ∈ s.lines.toList.zipIdx := by
    rw [List.mem_zipIdx_iff_getElem?, Array.getElem?_toList]
    exact hline
  have hdistinct : (s.lines.toList.zipIdx.map Prod.snd).Nodup := by
    rw [map_snd_zipIdx]
    exact List.nodup_range
  refine filter_flatMap_of_owner (fun t _ p hp => ?_) hdistinct hmem
  obtain ⟨q, -, rfl⟩ := List.mem_map.mp hp
  rfl

section OneLine

variable {lines : Array (SparseVector α)} {places : List (α × Nat)}

/-- Overwriting cells of one line is putting the overwritten line in its
place. -/
theorem overwrite_line (hline : lines[i]? = some line) (f : Nat × Nat → α → α)
    (places : List Nat) :
    overwrite f (places.map fun p => (i, p)) lines =
      lines.setIfInBounds i
        {line with values := overwrite (fun p => f (i, p)) places line.values} := by
  obtain ⟨hi, rfl⟩ := Array.getElem?_eq_some_iff.mp hline
  have hsame : ∀ values : List α, values.mapIdx (fun _ x => x) = values := mapCells_id
  refine Array.ext_getElem? fun k => ?_
  simp only [overwrite, mapCells, Array.getElem?_mapIdx, Array.getElem?_setIfInBounds]
  by_cases hik : i = k
  · subst hik
    simp [hi]
  · have hnot : ∀ p, (k, p) ∉ places.map fun p => (i, p) := by
      intro p hmem
      obtain ⟨q, -, heq⟩ := List.mem_map.mp hmem
      exact hik (congrArg Prod.fst heq)
    simp [hik, hnot, hsame]

theorem contents_of_line (hline : lines[i]? = some line)
    (h : Contents lines (places.map fun q => (q.1, (i, q.2)))) :
    Contents line.values places where
  distinct := by
    have hdistinct := h.distinct
    rw [List.map_map] at hdistinct
    refine List.Nodup.of_map (fun p => (i, p)) ?_
    rwa [List.map_map]
  read_eq q hq := by
    have hread := h.read_eq (q.1, (i, q.2)) (List.mem_map_of_mem hq)
    simpa [Cells.read, hline] using hread

/-- Whatever was overwritten in the lines, a line has its indices and the
number of its values. -/
theorem line_of_recast (hrecast : Recast s.lines lines) (hline : s.lines[i]? = some line) :
    ∃ values, values.length = line.values.length ∧ lines[i]? = some {line with values} := by
  obtain ⟨g, rfl⟩ := hrecast
  refine ⟨mapCells (fun p => g (i, p)) line.values, List.length_mapIdx, ?_⟩
  simp [mapCells, hline]

end OneLine

/-- Runs a script on one of the lines. -/
def editLine (len major : Nat) (script : LineScript α) (lines : Array (SparseVector α)) :
    Except Fault (List (LineReply α)) × Array (SparseVector α) :=
  editElement lines major (LineScript.runSparse len script)

section Frames

variable {frame : Nat × Nat → Nat × Nat} {entries : List (IndexedEntry α)}

theorem runScript_overwrites (h : s.WellFormed) (hframe : Function.Injective frame)
    (hentries : entries = s.items.map (entryAt fun c => frame (s.cellPosition c)))
    (label : Nat × Nat → ι) (f : Nat → Nat → α → α) (n : Nat) :
    s.runScript (fun major minor => label (frame (major, minor)))
        (replacements f (entries.take n)) =
      (reports label (entries.take n), {s with
        lines := mapPositions (fun c => frame (s.cellPosition c))
          (overwriting f ((entries.take n).map IndexedEntry.position)) s.lines}) := by
  have hcursor : Cursor.toList (⟨s.cellEntries,
        fun entry => (label (frame (entry.1, entry.2.1)), entry.2.2)⟩ :
      Mapped (Entries (Nat × Nat)) (Nat × Nat × (Nat × Nat)) (ι × (Nat × Nat))) =
        s.items.map fun p => (label (frame (s.cellPosition p.2)), p.2) := by
    rw [Cursor.toList_mapped, toList_cellEntries h, List.map_map]
    rfl
  obtain ⟨cursor', hrun⟩ := ((layout h).framed hframe).run_overwrites hentries label f n hcursor
  exact congrArg (fun run => (run.1, {s with lines := run.2.2})) hrun

theorem editLine_overwrites (h : s.WellFormed) {index : Nat × Nat → Nat}
    (hindex : ∀ c, index (frame c) = c.2) (f : Nat → Nat → α → α) {writer : LineWriter}
    (hwriter : writer = .walk ∨ writer = .consume) (hline : s.lines[i]? = some line) :
    EditOverwrites (fun c => frame (s.cellPosition c)) s.lines index f writer
      (editLine s.minorDim i) (line.values.zipIdx.map fun q => (q.1, (i, q.2))) := by
  intro visited hvisited lines hrecast hcontents
  obtain ⟨places, hplaces, rfl⟩ : ∃ places, places <+: line.values.zipIdx ∧
      visited = places.map fun q => (q.1, (i, q.2)) := by
    refine ⟨_, List.take_prefix visited.length _, ?_⟩
    rw [List.map_take]
    exact List.prefix_iff_eq_take.mp hvisited
  obtain ⟨values, hlength, hget⟩ := line_of_recast hrecast hline
  have hwf := (h line (Array.mem_of_getElem? hline)).toWellFormed.with_values values hlength
  have hbegins : places.map Prod.snd <+: List.range values.length := by
    rw [hlength, ← map_snd_zipIdx]
    exact hplaces.map Prod.snd
  have hwalk := SparseVector.runScript_overwrites hwf
    (fun p => f (frame (s.cellPosition (i, p))).1 (frame (s.cellPosition (i, p))).2)
    (contents_of_line hget hcontents) hbegins
  have hlabels : reports index ((places.map fun q => (q.1, (i, q.2))).map
        (entryAt fun c => frame (s.cellPosition c))) =
      places.map fun q => .item (line.indices.getD q.2 0) q.1 := by
    rw [reports, List.map_map, List.map_map]
    refine List.map_congr_left fun q _ => ?_
    have hplace : index (frame (s.cellPosition (i, q.2))) = line.indices.getD q.2 0 := by
      rw [hindex]
      simp [cellPosition, hline]
    exact congrArg (Reply.item · q.1) hplace
  have hscript : SparseVector.runScript {line with values} (replacements f ((places.map fun q => (q.1, (i, q.2))).map
        (entryAt fun c => frame (s.cellPosition c)))) =
      (reports index ((places.map fun q => (q.1, (i, q.2))).map
          (entryAt fun c => frame (s.cellPosition c))),
        ⟨line.indices, overwrite
          (fun p => f (frame (s.cellPosition (i, p))).1 (frame (s.cellPosition (i, p))).2)
          (places.map Prod.snd) values⟩) := by
    rw [hlabels, replacements, List.map_map, List.map_map]
    exact hwalk
  have hcells : (places.map fun q => (q.1, (i, q.2))).map Prod.snd =
      (places.map Prod.snd).map fun p => (i, p) := by
    rw [List.map_map, List.map_map]
    rfl
  rw [hcells, overwrite_line hget]
  rcases hwriter with rfl | rfl
  · simp only [editLine, editElement, hget, LineWriter.script, LineWriter.replies,
      LineScript.runSparse, LineScript.answerSparse, hscript]
    rfl
  · simp only [editLine, editElement, hget, LineWriter.script, LineWriter.replies,
      LineScript.runSparse, LineScript.answerSparse, hscript]

theorem runLines_overwrites (h : s.WellFormed) (hframe : Function.Injective frame)
    (hentries : entries = s.items.map (entryAt fun c => frame (s.cellPosition c)))
    (key index : Nat × Nat → Nat) (hkey : ∀ c, key (frame c) = c.1)
    (hindex : ∀ c, index (frame c) = c.2) (f : Nat → Nat → α → α) {writer : LineWriter}
    (hwriter : writer = .walk ∨ writer = .consume) (count : Nat → Nat) {k : Nat}
    (hk : k ≤ s.majorDim) :
    ∃ left, s.runLines (writer.scripts key index f entries count k) =
      (.ok (writer.lineReplies key index entries count k, left), {s with
        lines := mapPositions (fun c => frame (s.cellPosition c))
          (overwriting f ((lineParts key entries count k).map IndexedEntry.position))
          s.lines}) := by
  have hcursor : Cursor.toList (⟨List.range s.lines.size⟩ : Items Nat) =
      (List.range s.majorDim).map id := by
    rw [Matrix.toList_items, List.map_id]
    rfl
  have hedit : ∀ i < s.majorDim, EditOverwrites (fun c => frame (s.cellPosition c)) s.lines index f
      writer (editLine s.minorDim (id i))
      (s.items.filter fun p => key (frame (s.cellPosition p.2)) = i) := by
    intro i hi
    have hline : s.lines[i]? = some s.lines[i] := Array.getElem?_eq_getElem hi
    have hfilter : (s.items.filter fun p => key (frame (s.cellPosition p.2)) = i) =
        s.lines[i].values.zipIdx.map fun q => (q.1, (i, q.2)) := by
      rw [← items_of_line hline]
      simp only [hkey]
      rfl
    rw [hfilter]
    exact editLine_overwrites h hindex f hwriter hline
  obtain ⟨left, hrun⟩ := ((layout h).framed hframe).runLines_overwrites hentries f key index writer
    count hcursor hedit hk
  refine ⟨left, ?_⟩
  exact congrArg (fun run => (run.1, {s with lines := run.2})) hrun

end Frames

end SparseLines

end TransposedViews
