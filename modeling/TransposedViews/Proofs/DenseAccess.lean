import TransposedViews.Proofs.DenseTables
import TransposedViews.Proofs.LineAccounts
import TransposedViews.Proofs.Run

/-!
Access to a dense matrix over whole runs. No step of a traversal can fail,
whatever the shape: nothing is cut off that is not there, and nothing is divided
or stepped by zero. Every request is accounted for by the positions it writes
to, so an entry is the last value written to its position in a run, whichever
way it was written.
-/

namespace TransposedViews

/-- A search by keys that were changed without being confused. -/
theorem lookup_map_key [BEq κ] [LawfulBEq κ] [DecidableEq κ] [BEq κ'] [LawfulBEq κ']
    [DecidableEq κ'] {g : κ → κ'} {pairs : List (κ × β)} {k : κ}
    (h : ∀ p ∈ pairs, g p.1 = g k → p.1 = k) :
    (pairs.map (Prod.map g id)).lookup (g k) = pairs.lookup k := by
  induction pairs with
  | nil => rfl
  | cons p pairs ih =>
      obtain ⟨hp, hrest⟩ := List.forall_mem_cons.mp h
      obtain ⟨l, x⟩ := p
      have hkey : g k = g l ↔ k = l := by
        constructor
        · intro heq
          exact (hp heq.symm).symm
        · exact congrArg g
      rw [List.map_cons, Prod.map_apply, lookup_cons_eq_ite, lookup_cons_eq_ite, ih hrest]
      simp only [hkey, id_eq]

namespace Cursor

variable {σ : Type u} {ι : Type v} [Cursor σ ι]

/-- The state of a cursor after some requests, whatever they found. -/
def after (n : Nat) (s : σ) : σ := (fun s => (next s).2)^[n] s

theorem after_invariant (P : σ → Prop) (hnext : ∀ s, P s → P (next s).2) {s : σ} (h : P s)
    (n : Nat) : P (after n s) := by
  induction n with
  | zero => exact h
  | succ n ih =>
      rw [after, Function.iterate_succ_apply']
      exact hnext _ ih

end Cursor

namespace Dense

variable {α : Type} {β : Type u} {m : Dense α}

section Safety

/-- A state of a traversal of rows from which the next row, if there is one,
can be cut off. -/
def Rows.Cuttable (s : Rows β) : Prop := s.remaining ≠ 0 → s.ncols ≤ s.rest.length

/-- A state of a numbered traversal in which the number of the next item, if
there is one, can be divided by the number of columns. -/
def Positioned.Divisible (s : Positioned β) : Prop := s.rest ≠ [] → s.ncols ≠ 0

theorem rows_cuttable {s : Rows β} (h : s.rest.length = s.remaining * s.ncols) (n : Nat) :
    (Cursor.after n s).Cuttable := by
  have hafter : (Cursor.after n s).rest.length =
      (Cursor.after n s).remaining * (Cursor.after n s).ncols := by
    refine Cursor.after_invariant (fun s : Rows β => s.rest.length = s.remaining * s.ncols) ?_ h n
    rintro ⟨rest, ncols, _ | remaining⟩ hs
    · exact hs
    · change (rest.drop ncols).length = remaining * ncols
      change rest.length = (remaining + 1) * ncols at hs
      rw [List.length_drop, hs, Nat.succ_mul, Nat.add_sub_cancel]
  intro hremaining
  rw [hafter]
  exact Nat.le_mul_of_pos_left _ (Nat.pos_of_ne_zero hremaining)

theorem positioned_divisible {s : Positioned β} (h : s.Divisible) (n : Nat) :
    (Cursor.after n s).Divisible := by
  refine Cursor.after_invariant (fun s : Positioned β => s.Divisible) ?_ h n
  rintro ⟨_ | ⟨x, rest⟩, offset, ncols⟩ hs
  · exact hs
  · intro _
    exact hs (List.cons_ne_nil x rest)

theorem cols_begun_le {s : Cols β} (h : s.begun ≤ s.ncols) (n : Nat) :
    (Cursor.after n s).begun ≤ (Cursor.after n s).ncols := by
  refine Cursor.after_invariant (fun s : Cols β => s.begun ≤ s.ncols) ?_ h n
  intro s hs
  simp only [Cursor.next]
  split
  · exact hs
  · change s.begun + 1 ≤ s.ncols
    omega

theorem stride_pos {s : Strided β} (h : 0 < s.stride) (n : Nat) :
    0 < (Cursor.after n s).stride := by
  refine Cursor.after_invariant (fun s : Strided β => 0 < s.stride) ?_ h n
  rintro ⟨_ | ⟨x, rest⟩, stride⟩ hs
  · exact hs
  · exact hs

/-- Every step of every traversal can be taken, in whichever state it is: rows
are there to be cut off, columns are started inside the matrix and have a step
of at least one, no number is divided by zero, gathering finds every column, and
line scripts are refused for nothing but accesses past the end of a row. -/
structure TraversalsSafe (m : Dense α) : Prop where
  rows_cuttable : ∀ n, (Cursor.after n m.rows).Cuttable
  rowCells_cuttable : ∀ n, (Cursor.after n m.rowCells).Cuttable
  cols_begun : ∀ n, (Cursor.after n m.cols).begun ≤ (Cursor.after n m.cols).ncols
  cols_step : ∀ col ∈ Cursor.toList m.cols, ∀ n, 0 < (Cursor.after n col).stride
  raw_divisible : ∀ n, (Cursor.after n m.rawIndexed).Divisible
  rawCells_divisible : ∀ n, (Cursor.after n (⟨m.cells, 0, m.ncols⟩ : Positioned Nat)).Divisible
  colCells_divisible : ∀ k ∈ m.cells, m.ncols ≠ 0
  colCells_gathered : ∃ columns, m.colCells = .ok columns
  runCols_accepted : ∀ scripts, ∃ replies, (m.runCols scripts).1 = .ok replies
  runRows_refused : ∀ scripts fault, (m.runRows scripts).1 = .error fault →
    ∃ script ∈ scripts, ∃ k, fault = .element k m.ncols ∧ m.ncols ≤ k ∧
      (.get k ∈ script ∨ ∃ x, .set k x ∈ script)

end Safety

section Runs

/-- The positions of a matrix, row by row. -/
def rowPositions (nrows ncols : Nat) : List (List (Nat × Nat)) :=
  table nrows ncols fun i j => (i, j)

/-- The positions of a matrix, column by column. -/
def colPositions (nrows ncols : Nat) : List (List (Nat × Nat)) :=
  table ncols nrows fun j i => (i, j)

/-- The cell that the buffer of a matrix keeps for a position. -/
def cellOf (ncols : Nat) (position : Nat × Nat) : Nat := position.1 * ncols + position.2

theorem toList_rowCells_positions (h : m.WellFormed) : Cursor.toList m.rowCells =
    (rowPositions m.nrows m.ncols).map (·.map (cellOf m.ncols)) := by
  rw [toList_rowCells h, rowPositions, map_table]
  rfl

theorem cells_eq_positions (h : m.WellFormed) :
    m.cells = (rowPositions m.nrows m.ncols).flatten.map (cellOf m.ncols) := by
  rw [cells, h.size_eq, range_mul, List.map_flatten, rowPositions, map_table, table,
    List.flatMap_def]
  rfl

theorem runRows_settles (h : m.WellFormed) (scripts : List (LineScript α)) :
    (LineScript.linesAccount LineScript.sliceAccount scripts (Cursor.toList m.rowCells)).Settles
      m.data ((m.runRows scripts).1, (m.runRows scripts).2.data) := by
  refine LineScript.runLines_settles ?_ rfl
  intro row hrow script after hsize
  apply LineScript.runContiguous_settles
  intro c hc
  rw [toList_rowCells h] at hrow
  obtain ⟨i, hi, rfl⟩ := List.mem_map.mp hrow
  obtain ⟨j, hj, rfl⟩ := List.mem_map.mp hc
  rw [hsize, h.size_eq]
  exact offset_lt (List.mem_range.mp hi) (List.mem_range.mp hj)

theorem runCols_settles (h : m.WellFormed) (scripts : List (LineScript α)) :
    (LineScript.linesAccount LineScript.walkAccount scripts
        ((colPositions m.nrows m.ncols).map (·.map (cellOf m.ncols)))).Settles
      m.data ((m.runCols scripts).1, (m.runCols scripts).2.data) := by
  obtain ⟨columns, hgathered, hcolumns⟩ := exists_colCells h
  have hplaces : Cursor.toList columns =
      (colPositions m.nrows m.ncols).map (·.map (cellOf m.ncols)) := by
    rw [hcolumns, colPositions, map_table]
    rfl
  have hrun : m.runCols scripts =
      ((LineScript.runLines editColumn scripts columns m.data).1,
        {m with data := (LineScript.runLines editColumn scripts columns m.data).2}) := by
    rw [runCols, hgathered]
    rfl
  rw [hrun]
  refine LineScript.runLines_settles ?_ hplaces
  intro column hcolumn script after hsize
  rw [← hplaces, hcolumns] at hcolumn
  obtain ⟨j, hj, rfl⟩ := List.mem_map.mp hcolumn
  have hj : j < m.ncols := List.mem_range.mp hj
  apply LineScript.runWalk_settles
  · refine List.nodup_range.map fun a b hab => ?_
    have hdiv := congrArg (· / m.ncols) hab
    simpa only [offset_div hj] using hdiv
  · intro c hc
    obtain ⟨i, hi, rfl⟩ := List.mem_map.mp hc
    rw [hsize, h.size_eq]
    exact offset_lt (List.mem_range.mp hi) hj

/-- Nothing refuses scripts on columns. -/
theorem exists_runCols (h : m.WellFormed) (scripts : List (LineScript α)) :
    ∃ replies, (m.runCols scripts).1 = .ok replies := by
  cases hrun : (m.runCols scripts).1 with
  | ok replies => exact ⟨replies, rfl⟩
  | error fault =>
      have hrefusal := ((runCols_settles h scripts).refused_iff fault).mp hrun
      obtain ⟨script, -, column, -, hnone⟩ := LineScript.refusal_of_linesAccount hrefusal
      cases hnone

/-- Scripts on rows are refused for an access past the end of a row. -/
theorem access_of_runRows_refused (h : m.WellFormed) {scripts : List (LineScript α)}
    {fault : Fault} (hrun : (m.runRows scripts).1 = .error fault) :
    ∃ script ∈ scripts, ∃ k, fault = .element k m.ncols ∧ m.ncols ≤ k ∧
      (.get k ∈ script ∨ ∃ x, .set k x ∈ script) := by
  have hrefusal := ((runRows_settles h scripts).refused_iff fault).mp hrun
  obtain ⟨script, hscript, row, hrow, hrefused⟩ := LineScript.refusal_of_linesAccount hrefusal
  rw [toList_rowCells h] at hrow
  obtain ⟨k, hfault, hk, hmem⟩ := LineScript.refusal_of_sliceAccount hrefused
  rw [length_of_mem_table hrow] at hfault hk
  exact ⟨script, hscript, k, hfault, hk, hmem⟩

theorem WellFormed.traversalsSafe (h : m.WellFormed) : m.TraversalsSafe := by
  -- without columns there is nothing in the buffer, so no number is divided by theirs
  have hnonempty : m.data.size ≠ 0 → m.ncols ≠ 0 := by
    intro hsize hzero
    rw [h.size_eq, hzero, Nat.mul_zero] at hsize
    exact hsize rfl
  constructor
  · exact rows_cuttable (Array.length_toList.trans h.size_eq)
  · exact rows_cuttable (List.length_range.trans h.size_eq)
  · exact cols_begun_le (Nat.zero_le _)
  · intro col hcol
    rw [cols, toList_cols] at hcol
    obtain ⟨j, hj, rfl⟩ := List.mem_map.mp hcol
    exact stride_pos (Nat.zero_lt_of_lt (List.mem_range.mp hj))
  · apply positioned_divisible
    intro hne
    apply hnonempty
    rw [← Array.length_toList]
    exact fun hzero => hne (List.length_eq_zero_iff.mp hzero)
  · apply positioned_divisible
    intro hne
    apply hnonempty
    rw [← List.length_range (n := m.data.size)]
    exact fun hzero => hne (List.length_eq_zero_iff.mp hzero)
  · intro k hk
    have hlt : k < m.data.size := List.mem_range.mp hk
    exact hnonempty (by omega)
  · obtain ⟨columns, hgathered, -⟩ := exists_colCells h
    exact ⟨columns, hgathered⟩
  · exact exists_runCols h
  · intro scripts fault hrun
    exact access_of_runRows_refused h hrun

/-- What a request writes to the positions of a matrix, in order. A position
outside is refused, erasing writes nothing, and line scripts write up to the
access that is refused. -/
def writesOf (nrows ncols : Nat) : Writing α → List ((Nat × Nat) × α)
  | .set i j x => if i < nrows ∧ j < ncols then [((i, j), x)] else []
  | .erase _ _ => []
  | .raw script | .rawIndexed script => Script.writes script (rowPositions nrows ncols).flatten
  | .rows scripts =>
      (LineScript.linesAccount LineScript.sliceAccount scripts (rowPositions nrows ncols)).writes
  | .cols scripts =>
      (LineScript.linesAccount LineScript.walkAccount scripts (colPositions nrows ncols)).writes

/-- The matrix with values written to positions one after the other. -/
def written (m : Dense α) (writes : List ((Nat × Nat) × α)) : Dense α :=
  {m with data := Cells.writeAll m.data (writes.map (Prod.map (cellOf m.ncols) id))}

theorem written_append (m : Dense α) (earlier later : List ((Nat × Nat) × α)) :
    m.written (earlier ++ later) = (m.written earlier).written later := by
  simp only [written, List.map_append, Cells.writeAll_append]

theorem written_wellFormed (h : m.WellFormed) (writes : List ((Nat × Nat) × α)) :
    (m.written writes).WellFormed :=
  ⟨(LineScript.size_writeAll _).trans h.size_eq, h.fits⟩

theorem mem_rowPositions {nrows ncols : Nat} {row : List (Nat × Nat)} {p : Nat × Nat}
    (hrow : row ∈ rowPositions nrows ncols) (hp : p ∈ row) : p.1 < nrows ∧ p.2 < ncols := by
  obtain ⟨i, hi, rfl⟩ := List.mem_map.mp hrow
  obtain ⟨j, hj, rfl⟩ := List.mem_map.mp hp
  exact ⟨List.mem_range.mp hi, List.mem_range.mp hj⟩

theorem mem_colPositions {nrows ncols : Nat} {column : List (Nat × Nat)} {p : Nat × Nat}
    (hcolumn : column ∈ colPositions nrows ncols) (hp : p ∈ column) :
    p.1 < nrows ∧ p.2 < ncols := by
  obtain ⟨j, hj, rfl⟩ := List.mem_map.mp hcolumn
  obtain ⟨i, hi, rfl⟩ := List.mem_map.mp hp
  exact ⟨List.mem_range.mp hi, List.mem_range.mp hj⟩

/-- Nothing is written outside a matrix. -/
theorem writesOf_inside {nrows ncols : Nat} {request : Writing α} {w : (Nat × Nat) × α}
    (h : w ∈ writesOf nrows ncols request) : w.1.1 < nrows ∧ w.1.2 < ncols := by
  cases request with
  | set i j x =>
      simp only [writesOf] at h
      split at h
      · next hinside =>
          rw [List.mem_singleton.mp h]
          exact hinside
      · cases h
  | erase i j => cases h
  | raw script | rawIndexed script =>
      obtain ⟨row, hrow, hp⟩ := List.mem_flatten.mp (Script.mem_of_mem_writes h)
      exact mem_rowPositions hrow hp
  | rows scripts =>
      obtain ⟨row, hrow, hp⟩ := LineScript.mem_of_mem_linesAccount
        (fun _ _ _ hw => LineScript.mem_of_mem_sliceAccount hw) h
      exact mem_rowPositions hrow hp
  | cols scripts =>
      obtain ⟨column, hcolumn, hp⟩ := LineScript.mem_of_mem_linesAccount
        (fun _ _ _ hw => Script.mem_of_mem_writes hw) h
      exact mem_colPositions hcolumn hp

theorem Overwritten.eq_written {m' : Dense α} {writes : List ((Nat × Nat) × α)}
    (hover : m.Overwritten m')
    (hdata : m'.data = Cells.writeAll m.data (writes.map (Prod.map (cellOf m.ncols) id))) :
    m' = m.written writes := by
  obtain ⟨data, -, rfl⟩ := hover
  exact congrArg (fun data => {m with data}) hdata

/-- A script on the whole buffer writes to the positions in row-major order. -/
theorem runCells_data (h : m.WellFormed) {σ : Type u} {ι : Type v} [Cursor σ (ι × Nat)]
    [Cursor.Exact σ] (label : Nat → ι) {cursor : σ}
    (hcursor : Cursor.toList cursor = m.items.map fun p => (label p.2, p.2))
    (script : List (Request α)) :
    (Script.run script cursor m.data).2.2 = Cells.writeAll m.data
      ((Script.writes script (rowPositions m.nrows m.ncols).flatten).map
        (Prod.map (cellOf m.ncols) id)) := by
  have hcontents : Contents m.data m.items :=
    (layout h).contents (List.Subset.refl _) (layout h).items_nodup
  obtain ⟨final, hrun⟩ := Script.run_eq label script hcontents hcursor
  rw [hrun, ← cells_eq, cells_eq_positions h, Script.writes_map]

theorem runRaw_written (h : m.WellFormed) (script : List (Request α)) : (m.runRaw script).2 =
    m.written (Script.writes script (rowPositions m.nrows m.ncols).flatten) := by
  apply (runRaw_overwritten m script).eq_written
  refine runCells_data h (fun _ => ()) ?_ script
  rw [toList_unlabelled, cells_eq, List.map_map]
  rfl

theorem runIndexed_written (h : m.WellFormed) (script : List (Request α)) :
    (m.runIndexed script).2 =
      m.written (Script.writes script (rowPositions m.nrows m.ncols).flatten) := by
  apply (runIndexed_overwritten m script).eq_written
  exact runCells_data h m.cellPosition (toList_positioned_cells m) script

theorem runRows_written (h : m.WellFormed) (scripts : List (LineScript α)) :
    (m.runRows scripts).2 = m.written (LineScript.linesAccount LineScript.sliceAccount scripts
      (rowPositions m.nrows m.ncols)).writes := by
  have hstore := (runRows_settles h scripts).store_eq
  rw [toList_rowCells_positions h,
    LineScript.linesAccount_map (cellOf m.ncols) (LineScript.sliceAccount_map _)] at hstore
  exact (runRows_overwritten m scripts).eq_written hstore

theorem runCols_written (h : m.WellFormed) (scripts : List (LineScript α)) :
    (m.runCols scripts).2 = m.written (LineScript.linesAccount LineScript.walkAccount scripts
      (colPositions m.nrows m.ncols)).writes := by
  have hstore := (runCols_settles h scripts).store_eq
  rw [LineScript.linesAccount_map (cellOf m.ncols) (LineScript.walkAccount_map _)] at hstore
  exact (runCols_overwritten m scripts).eq_written hstore

/-- A request leaves the matrix with what it writes, in whichever way it does. -/
theorem write_eq_written (h : m.WellFormed) (request : Writing α) :
    ((View.whole (Matrix.dense m)).write request).2.base =
      .dense (m.written (writesOf m.nrows m.ncols request)) := by
  cases request with
  | set i j x =>
      change (View.modified ((Matrix.set (.dense m) i j x).map id .whole)).2.base = _
      rcases Decidable.em (i < m.nrows ∧ j < m.ncols) with hinside | houtside
      · rw [Matrix.set, Dense.set_eq h hinside.1 hinside.2, writesOf, if_pos hinside]
        rfl
      · rw [Matrix.set, set_outside houtside, writesOf, if_neg houtside]
        rfl
  | erase i j =>
      change (View.modified ((Matrix.erase (.dense m) i j).map id .whole)).2.base = _
      rcases Decidable.em (i < m.nrows ∧ j < m.ncols) with hinside | houtside
      · rw [Matrix.erase, Dense.erase_eq hinside.1 hinside.2]
        rfl
      · rw [Matrix.erase, erase, guarded_of_outside houtside]
        rfl
  | raw script => exact congrArg Matrix.dense (runRaw_written h script)
  | rawIndexed script => exact congrArg Matrix.dense (runIndexed_written h script)
  | rows scripts => exact congrArg Matrix.dense (runRows_written h scripts)
  | cols scripts => exact congrArg Matrix.dense (runCols_written h scripts)

/-- A run of requests leaves all that they write, one after the other. -/
theorem writtenAll_eq_written (h : m.WellFormed) (run : List (Writing α)) :
    (Matrix.dense m).writtenAll (run.map fun request => ([], request)) =
      .dense (m.written (run.flatMap (writesOf m.nrows m.ncols))) := by
  induction run generalizing m with
  | nil => rfl
  | cons request run ih =>
      have hrest := ih (written_wellFormed h (writesOf m.nrows m.ncols request))
      rw [List.flatMap_cons, written_append, List.map_cons, Matrix.writtenAll, List.foldl_cons]
      change Matrix.writtenAll ((View.whole (Matrix.dense m)).write request).2.base _ = _
      rw [write_eq_written h]
      exact hrest

/-- A matrix reads at a position what was written there last, or else what it
read before. -/
theorem entry_written (h : m.WellFormed) {writes : List ((Nat × Nat) × α)}
    (hinside : ∀ w ∈ writes, w.1.1 < m.nrows ∧ w.1.2 < m.ncols) {i j : Nat} (hi : i < m.nrows)
    (hj : j < m.ncols) {x : α} (hx : m.data[i * m.ncols + j]? = some x) :
    (m.written writes).entry i j = .ok (some ((writes.reverse.lookup (i, j)).getD x)) := by
  have hkey : ∀ w ∈ writes.reverse, cellOf m.ncols w.1 = cellOf m.ncols (i, j) → w.1 = (i, j) := by
    rintro ⟨⟨a, b⟩, y⟩ hw hcell
    obtain ⟨-, hb⟩ := hinside _ (List.mem_reverse.mp hw)
    have hcell : a * m.ncols + b = i * m.ncols + j := hcell
    refine Prod.ext ?_ ?_
    · rw [← offset_div (i := a) hb, hcell, offset_div hj]
    · rw [← offset_mod (i := a) hb, hcell, offset_mod hj]
  have hread := Cells.read_writeAll m.data (writes.map (Prod.map (cellOf m.ncols) id))
    (cellOf m.ncols (i, j))
  rw [← List.map_reverse, lookup_map_key hkey] at hread
  have hbefore : Cells.read m.data (cellOf m.ncols (i, j)) = some x := hx
  rw [hbefore, Option.map_some] at hread
  have hafter : (m.written writes).data[i * (m.written writes).ncols + j]?
      = some ((writes.reverse.lookup (i, j)).getD x) := hread
  rw [entry_eq (written_wellFormed h writes) hi hj, lookup, if_pos ⟨hi, hj⟩, hafter]

/-- Every access path of a reachable dense matrix comes to the same cells, no
traversal of it can fail in any state, and after any run of requests an entry
is the last value that was written to its position. -/
theorem access_paths_agree (h : (Matrix.dense m).Reachable) :
    m.PathsAgree ∧ m.TraversalsSafe ∧
      ∀ run : List (Writing α), ∃ m' : Dense α,
        (Matrix.dense m).writtenAll (run.map fun request => ([], request)) = .dense m' ∧
        m'.nrows = m.nrows ∧ m'.ncols = m.ncols ∧
        ∀ i j, i < m.nrows → j < m.ncols → ∃ x, m.entry i j = .ok (some x) ∧
          m'.entry i j = .ok (some
            (((run.flatMap (writesOf m.nrows m.ncols)).reverse.lookup (i, j)).getD x)) := by
  have hwf : m.WellFormed := h.wellFormed
  refine ⟨hwf.pathsAgree, hwf.traversalsSafe, fun run => ?_⟩
  refine ⟨_, writtenAll_eq_written hwf run, rfl, rfl, fun i j hi hj => ?_⟩
  obtain ⟨-, hlt⟩ := cell_eq hwf hi hj
  have hx : m.data[i * m.ncols + j]? = some m.data[i * m.ncols + j] :=
    Array.getElem?_eq_getElem hlt
  refine ⟨m.data[i * m.ncols + j], ?_, entry_written hwf ?_ hi hj hx⟩
  · rw [entry_eq hwf hi hj, lookup, if_pos ⟨hi, hj⟩, hx]
  · intro w hw
    obtain ⟨request, -, hmem⟩ := List.mem_flatMap.mp hw
    exact writesOf_inside hmem

/-- Two rows of three columns. -/
def twoByThree : Dense Nat := ⟨2, 3, #[1, 2, 3, 4, 5, 6]⟩

/-- Entries are set and erased, then a row is written to until an access past
its end is refused, then two columns are written to. -/
def twoByThreeRun : List (Writing Nat) :=
  [.set 0 2 9, .erase 0 2, .set 1 1 7, .rows [[], [.set 0 8, .get 3, .set 2 8]],
    .cols [[.next none, .next (some 0)], [.next (some 1)]]]

theorem twoByThree_last_written : ∃ m' : Dense Nat,
    (Matrix.dense twoByThree).writtenAll (twoByThreeRun.map fun request => ([], request)) =
        .dense m' ∧
      m'.entry 0 0 = .ok (some 1) ∧ m'.entry 0 1 = .ok (some 1) ∧ m'.entry 0 2 = .ok (some 9) ∧
      m'.entry 1 0 = .ok (some 0) ∧ m'.entry 1 1 = .ok (some 7) ∧ m'.entry 1 2 = .ok (some 6) := by
  have hbuilt : ofArray 2 3 #[1, 2, 3, 4, 5, 6] = .ok twoByThree := rfl
  obtain ⟨-, -, hruns⟩ := access_paths_agree (.built (.rowMajor hbuilt))
  obtain ⟨m', hm', -, -, hentries⟩ := hruns twoByThreeRun
  have hwrites : twoByThreeRun.flatMap (writesOf 2 3) =
      [((0, 2), 9), ((1, 1), 7), ((1, 0), 8), ((1, 0), 0), ((0, 1), 1)] := by decide
  have hread : ∀ i j x, i < 2 → j < 3 → twoByThree.entry i j = .ok (some x) →
      m'.entry i j = .ok (some
        (([((0, 2), 9), ((1, 1), 7), ((1, 0), 8), ((1, 0), 0), ((0, 1), 1)] :
          List ((Nat × Nat) × Nat)).reverse.lookup (i, j) |>.getD x)) := by
    intro i j x hi hj hx
    obtain ⟨y, hy, hlast⟩ := hentries i j hi hj
    cases hx.symm.trans hy
    rw [← hwrites]
    exact hlast
  refine ⟨m', hm', ?_, ?_, ?_, ?_, ?_, ?_⟩
  · exact hread 0 0 1 (by decide) (by decide) rfl
  · exact hread 0 1 2 (by decide) (by decide) rfl
  · exact hread 0 2 3 (by decide) (by decide) rfl
  · exact hread 1 0 4 (by decide) (by decide) rfl
  · exact hread 1 1 5 (by decide) (by decide) rfl
  · exact hread 1 2 6 (by decide) (by decide) rfl

end Runs

end Dense

end TransposedViews
