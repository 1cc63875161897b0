import TransposedViews.Proofs.HintReplies
import TransposedViews.Proofs.Parity

namespace TransposedViews

section Stores

variable {S : Type u} {κ : Type v} {α : Type w} [DecidableEq κ] [Cells S κ α] [UniformCells S κ α]
  {position : κ → Nat × Nat} {s : S} {items : List (α × κ)} {σ : Type x} {ι : Type y}
  [Cursor σ (ι × κ)] {cursor : σ} {promise : SizeHint → Nat → Prop}

/-- A traversal of all cells of a store answers for as many items as there are
entries. -/
theorem Layout.run_answers (h : Layout position s items)
    (hcursor : Cursor.Promises promise cursor) (label : κ → ι)
    (hlist : Cursor.toList cursor = items.map fun p => (label p.2, p.2))
    (script : List (Request α)) :
    Script.Answers promise items.length script (Script.run script cursor s).1 := by
  have hready : Script.Ready promise cursor s := by
    refine ⟨hcursor, fun q hq => ?_⟩
    rw [hlist] at hq
    obtain ⟨p, hp, rfl⟩ := List.mem_map.mp hq
    rw [(h.read_iff p.2 p.1).mpr hp]
    rfl
  have hanswers := Script.run_answers hready script
  rwa [hlist, List.length_map] at hanswers

end Stores

/-- Lists of lists that differ in their items alone are of the same lengths. -/
theorem map_length_of_map_map {f : β → δ} {g : γ → δ} {xs : List (List β)} {ys : List (List γ)}
    (h : xs.map (·.map f) = ys.map (·.map g)) : xs.map List.length = ys.map List.length := by
  have hlengths := congrArg (List.map List.length) h
  simpa only [List.map_map, Function.comp_def, List.length_map] using hlengths

namespace LineScript

variable {α : Type u}

/-- Lines that are walked, each one by a cursor of its own inside the values, are
answered for by their cells. -/
theorem runLines_walked {τ : Type v} {line : Type w} {σ : Type x} {ι : Type y} [Cursor τ line]
    [Cursor σ (ι × Nat)] {cursor : τ} (hcursor : Cursor.ExactSize cursor) (walk : line → σ)
    (hwalk : ∀ line, Cursor.ExactSize (walk line)) (item : ι → α → Item α) {values : Array α}
    (hinside : ∀ line ∈ Cursor.toList cursor, ∀ p ∈ Cursor.toList (walk line), p.2 < values.size)
    {scripts : List (LineScript α)} {replies : List (List (LineReply α))} {left : SizeHint}
    (hrun : (runLines
      (fun line script values =>
        let (replies, values) := runWalk item script (walk line) values
        (.ok replies, values))
      scripts cursor values).1 = .ok (replies, left)) :
    LinesAnswered SizeHint.Pins
      ((Cursor.toList cursor).map fun line => (Cursor.toList (walk line)).length)
      scripts replies left := by
  refine runLines_answered hcursor
    (fun lines values => ∀ line ∈ lines, ∀ p ∈ Cursor.toList (walk line), p.2 < values.size)
    (fun line => (Cursor.toList (walk line)).length) ?_ hinside hrun
  intro line lines script values hcells
  obtain ⟨hline, hlines⟩ := List.forall_mem_cons.mp hcells
  constructor
  · intro later hlater p hp
    change p.2 < (runWalk item script (walk line) values).2.size
    rw [runWalk_size]
    exact hlines later hlater p hp
  · intro answered hanswered
    cases hanswered
    refine runWalk_answers ⟨hwalk line, fun p hp => ?_⟩ item script
    simp [Cells.read, hline p hp]

end LineScript

/-- The traversal of cells that nothing is said about. -/
def unlabelled {κ : Type u} (cells : List κ) : Mapped (Items κ) κ (Unit × κ) :=
  ⟨⟨cells⟩, fun cell => ((), cell)⟩

namespace Dense

variable {α : Type} {m : Dense α}

/-- The traversals of a dense matrix that write know how many items they have
left. -/
structure WriteHints (m : Dense α) : Prop where
  rows : Cursor.ExactSize m.rowCells
  cols : ∃ columns, m.colCells = .ok columns ∧ Cursor.ExactSize columns ∧
    ∀ column ∈ Cursor.toList columns, Cursor.ExactSize (unlabelled column)
  raw : Cursor.ExactSize (unlabelled m.cells)
  rawIndexed : Cursor.ExactSize (⟨⟨m.cells, 0, m.ncols⟩, fun e => ((e.row, e.col), e.value)⟩ :
    Mapped (Positioned Nat) (IndexedEntry Nat) ((Nat × Nat) × Nat))

theorem WellFormed.writeHints (h : m.WellFormed) : m.WriteHints := by
  obtain ⟨columns, hgathered, -⟩ := exists_colCells h
  exact ⟨Rows.exactSize _, ⟨columns, hgathered, .of_exact _, fun _ _ => .of_exact _⟩, .of_exact _,
    .of_exact _⟩

/-- The rows that are read are as long as the rows of cells. -/
theorem length_rowCells (m : Dense α) :
    (Cursor.toList m.rowCells).map List.length = (Cursor.toList m.rows).map List.length :=
  (map_length_of_map_map (toList_rows_values m.data.toList m.nrows m.ncols)).symm

/-- So are the columns. -/
theorem length_columns (h : m.WellFormed) {columns : Items (List Nat)}
    (hgathered : m.colCells = .ok columns) : (Cursor.toList columns).map List.length =
      ((Cursor.toList m.cols).map Cursor.toList).map List.length := by
  obtain ⟨columns', hgathered', hlisted⟩ := exists_colCells h
  cases hgathered.symm.trans hgathered'
  refine map_length_of_map_map (f := fun k => m.data[k]?) (g := some) ?_
  rw [toList_cols_table h, hlisted, map_table]

theorem runRows_answered {scripts : List (LineScript α)} {replies : List (List (LineReply α))}
    {left : SizeHint} (hrun : (m.runRows scripts).1 = .ok (replies, left)) :
    LineScript.LinesAnswered SizeHint.Pins ((Cursor.toList m.rowCells).map List.length)
      scripts replies left := by
  rw [runRows] at hrun
  refine LineScript.runLines_answered (Rows.exactSize m.rowCells) (fun _ _ => True) List.length
    ?_ trivial hrun
  intro row rows script values _
  exact ⟨trivial, fun answered hanswered => LineScript.runContiguous_answers _ hanswered⟩

theorem runCols_answered (h : m.WellFormed) {columns : Items (List Nat)}
    (hgathered : m.colCells = .ok columns) {scripts : List (LineScript α)}
    {replies : List (List (LineReply α))} {left : SizeHint}
    (hrun : (m.runCols scripts).1 = .ok (replies, left)) :
    LineScript.LinesAnswered SizeHint.Pins ((Cursor.toList columns).map List.length)
      scripts replies left := by
  obtain ⟨columns', hgathered', hlisted⟩ := exists_colCells h
  cases hgathered.symm.trans hgathered'
  have hcells : ∀ column : List Nat, Cursor.toList (unlabelled column) =
      column.map fun cell => ((), cell) := toList_unlabelled
  rw [runCols, hgathered] at hrun
  have hanswered := LineScript.runLines_walked (.of_exact columns) unlabelled (fun _ => .of_exact _)
    (fun (_ : Unit) x => .value x) ?_ hrun
  · simpa only [hcells, List.length_map] using hanswered
  · intro column hcolumn p hp
    rw [hlisted] at hcolumn
    obtain ⟨j, hj, rfl⟩ := List.mem_map.mp hcolumn
    rw [hcells] at hp
    obtain ⟨c, hc, rfl⟩ := List.mem_map.mp hp
    obtain ⟨i, hi, rfl⟩ := List.mem_map.mp hc
    rw [h.size_eq]
    exact offset_lt (List.mem_range.mp hi) (List.mem_range.mp hj)

end Dense

namespace SparseLines

variable {α : Type} {s : SparseLines α}

/-- The traversals of sparse lines that write: those over the lines, and over the
entries of one, know how many items they have left, and the others promise
nothing that is wrong. -/
structure WriteHints (s : SparseLines α) : Prop where
  lines : Cursor.ExactSize (⟨List.range s.lines.size⟩ : Items Nat)
  line : ∀ v ∈ s.lines, Cursor.ExactSize (⟨v.cells⟩ : Items (Nat × Nat))
  entries : ∀ {ι : Type} (label : Nat → Nat → ι), Cursor.Honest
    (⟨s.cellEntries, fun (major, minor, cell) => (label major minor, cell)⟩ :
      Mapped (Entries (Nat × Nat)) (Nat × Nat × (Nat × Nat)) (ι × (Nat × Nat)))

theorem writeHints (s : SparseLines α) : s.WriteHints where
  lines := .of_exact _
  line _ _ := .of_exact _
  entries _ := (Entries.honest s.cellEntries).mapped _

/-- Scripts on the entries of lines, whatever labels they are given. -/
theorem runScript_answers {ι : Type} (h : s.WellFormed) (label : Nat → Nat → ι)
    (script : List (Request α)) :
    Script.Answers SizeHint.Admits s.items.length script (s.runScript label script).1 := by
  refine (layout h).run_answers (s.writeHints.entries label)
    (fun c => label (s.cellPosition c).1 (s.cellPosition c).2) ?_ script
  rw [Cursor.toList_mapped, toList_cellEntries h, List.map_map]
  rfl

/-- Lines that are still to be edited are the ones they were. -/
structure Untouched (s : SparseLines α) (later : List Nat) (lines : Array (SparseVector α)) :
    Prop where
  distinct : later.Nodup
  kept : ∀ i ∈ later, lines[i]? = s.lines[i]?

/-- Editing a line touches no line but this one. -/
theorem Untouched.editLine {major : Nat} {later : List Nat} {lines : Array (SparseVector α)}
    (h : s.Untouched (major :: later) lines) (script : LineScript α) :
    s.Untouched later (editElement lines major (LineScript.runSparse s.minorDim script)).2 := by
  obtain ⟨hfresh, hdistinct⟩ := List.nodup_cons.mp h.distinct
  refine ⟨hdistinct, fun i hi => ?_⟩
  have hne : major ≠ i := fun heq => hfresh (heq ▸ hi)
  rw [← h.kept i (List.mem_cons_of_mem major hi), editElement_elements, Array.getElem?_modify,
    if_neg hne]

theorem runLines_answered (h : s.WellFormed) {scripts : List (LineScript α)}
    {replies : List (List (LineReply α))} {left : SizeHint}
    (hrun : (s.runLines scripts).1 = .ok (replies, left)) :
    LineScript.LinesAnswered SizeHint.Pins (s.lines.toList.map fun v => v.toList.length)
      scripts replies left := by
  have hlist : Cursor.toList (⟨List.range s.lines.size⟩ : Items Nat) = List.range s.lines.size :=
    Matrix.toList_items _
  have hcounts : (List.range s.lines.size).map
      (fun i => (s.lines[i]?.map fun v => v.toList.length).getD 0) =
        s.lines.toList.map fun v => v.toList.length := by
    refine List.ext_getElem (by simp) fun i hi _ => ?_
    have hlt : i < s.lines.size := by simpa using hi
    simp [hlt]
  rw [← hcounts, ← hlist]
  refine LineScript.runLines_answered (Cursor.ExactSize.of_exact _) s.Untouched _ ?_ ?_ hrun
  · intro major later script lines huntouched
    refine ⟨huntouched.editLine script, fun answered hanswered => ?_⟩
    simp only [editElement, huntouched.kept major List.mem_cons_self] at hanswered
    cases hget : s.lines[major]? with
    | none =>
        rw [hget] at hanswered
        cases hanswered
    | some v =>
        rw [hget] at hanswered
        exact LineScript.runSparse_answers (h v (Array.mem_of_getElem? hget)).toWellFormed hanswered
  · rw [hlist]
    exact ⟨List.nodup_range, fun _ _ => rfl⟩

end SparseLines

namespace Coordinate

variable {α : Type} {m : Coordinate α}

/-- The traversals of a coordinate form that write know how many items they have
left. -/
structure WriteHints (m : Coordinate α) : Prop where
  rows : ∃ lines, m.rowCells = .ok lines ∧ Cursor.ExactSize lines ∧
    ∀ line ∈ Cursor.toList lines, Cursor.ExactSize (⟨line⟩ : Items (Nat × Nat))
  cols : ∃ lines, m.colCells = .ok lines ∧ Cursor.ExactSize lines ∧
    ∀ line ∈ Cursor.toList lines, Cursor.ExactSize (⟨line⟩ : Items (Nat × Nat))
  raw : Cursor.ExactSize (unlabelled m.cells)
  rawIndexed : Cursor.ExactSize (⟨⟨m.rowIndices.toList, m.colIndices.toList, m.cells⟩,
    fun e => ((e.row, e.col), e.value)⟩ :
      Mapped (Indexed Nat) (IndexedEntry Nat) ((Nat × Nat) × Nat))

theorem WellFormed.writeHints (h : m.WellFormed) : m.WriteHints := by
  obtain ⟨byRow, hrows, -⟩ := (rows_partitioned h).grouped_eq
  obtain ⟨byCol, hcols, -⟩ := (cols_partitioned h).grouped_eq
  refine ⟨⟨byRow, hrows, .of_exact _, fun _ _ => .of_exact _⟩,
    ⟨byCol, hcols, .of_exact _, fun _ _ => .of_exact _⟩, .of_exact _, ?_⟩
  have hcells : m.cells.length = m.values.size := List.length_range
  exact (Indexed.exactSize ⟨h.rows_size.trans hcells.symm, h.cols_size.trans hcells.symm⟩).mapped _

/-- Scripts on grouped lines are answered for the lines that are scanned. -/
theorem Partitioned.runGrouped_answered {major minor : IndexedEntry α → Nat} {count : Nat}
    {lines : Lines α} {grouped : Except Fault (Items (List (Nat × Nat)))}
    (h : m.Partitioned major minor count lines grouped) {scripts : List (LineScript α)}
    {replies : List (List (LineReply α))} {left : SizeHint}
    (hrun : (m.runGrouped grouped scripts).1 = .ok (replies, left)) :
    LineScript.LinesAnswered SizeHint.Pins
      (((Cursor.toList lines).map Cursor.toList).map List.length) scripts replies left := by
  obtain ⟨cells, rfl, -, hcells⟩ := h.grouped_eq
  have hlengths : (Cursor.toList cells).map List.length =
      ((Cursor.toList lines).map Cursor.toList).map List.length := by
    refine map_length_of_map_map (f := fun q => (q.1, m.values[q.2]?))
      (g := fun q => (q.1, some q.2)) ?_
    rw [hcells, List.map_map]
    rfl
  have hlist : ∀ line : List (Nat × Nat), Cursor.toList (⟨line⟩ : Items (Nat × Nat)) = line :=
    Matrix.toList_items
  rw [← hlengths]
  have hanswered := LineScript.runLines_walked (.of_exact cells)
    (fun line => (⟨line⟩ : Items (Nat × Nat))) (fun _ => .of_exact _) .stored ?_ hrun
  · simpa only [hlist] using hanswered
  · intro line hline p hp
    rw [hlist] at hp
    have hmem : p.2 ∈ (Cursor.toList cells).flatten.map Prod.snd :=
      List.mem_map_of_mem (List.mem_flatten_of_mem hline hp)
    exact List.mem_range.mp ((h.cells_perm cells rfl).subset hmem)

end Coordinate

namespace Matrix

variable {α : Type} {m : Matrix α}

section Raw

theorem Raw.honest (cursor : Raw α) : Cursor.Honest cursor := by
  cases cursor with
  | buffer cursor =>
      exact (Cursor.ExactSize.of_exact cursor).honest.wrapped (f := Raw.buffer) (fun _ => rfl)
        fun _ => rfl
  | flattened cursor =>
      exact ((Entries.honest cursor.inner).mapped cursor.onItem).wrapped (f := Raw.flattened)
        (fun _ => rfl) fun _ => rfl

theorem rawIndexed_honest (h : m.WellFormed) : Cursor.Honest m.rawIndexed := by
  have hflattened : ∀ (entries : Entries α) (position : Nat × Nat × α → IndexedEntry α),
      Cursor.Honest (RawIndexed.flattened ⟨entries, position⟩) := fun entries position =>
    ((Entries.honest entries).mapped position).wrapped (f := RawIndexed.flattened) (fun _ => rfl)
      fun _ => rfl
  cases m with
  | dense m =>
      exact (Cursor.ExactSize.of_exact m.rawIndexed).honest.wrapped (f := RawIndexed.positioned)
        (fun _ => rfl) fun _ => rfl
  | row m => exact hflattened m.storage.entries RowMatrix.position
  | col m => exact hflattened m.storage.entries ColMatrix.position
  | coordinate m =>
      have hbalanced : m.rawIndexed.Balanced :=
        ⟨Coordinate.WellFormed.rows_size h, Coordinate.WellFormed.cols_size h⟩
      exact (Coordinate.Indexed.exactSize hbalanced).honest.wrapped (f := RawIndexed.indexed)
        (fun _ => rfl) fun _ => rfl

theorem runRaw_answers (h : m.WellFormed) (script : List (Request α)) :
    Script.Answers SizeHint.Admits (Cursor.toList m.raw).length script (m.runRaw script).1 := by
  rw [toList_raw h, List.length_map]
  cases m with
  | dense m =>
      rw [rawIndexed_dense_items, List.length_map]
      refine (Dense.layout h).run_answers (Dense.WellFormed.writeHints h).raw.honest (fun _ => ())
        ?_ script
      rw [unlabelled, toList_unlabelled, Dense.cells_eq, List.map_map]
      rfl
  | row m =>
      rw [rawIndexed_row_items h, List.length_map]
      exact SparseLines.runScript_answers h (fun _ _ => ()) script
  | col m =>
      rw [rawIndexed_col_items h, List.length_map]
      exact SparseLines.runScript_answers h (fun _ _ => ()) script
  | coordinate m =>
      rw [rawIndexed_coordinate_items h, List.length_map]
      refine (Coordinate.layout h).run_answers (Coordinate.WellFormed.writeHints h).raw.honest
        (fun _ => ()) ?_ script
      rw [unlabelled, toList_unlabelled, Coordinate.cells_eq, List.map_map]
      rfl

theorem runIndexed_answers (h : m.WellFormed) (script : List (Request α)) :
    Script.Answers SizeHint.Admits (Cursor.toList m.rawIndexed).length script
      (m.runIndexed script).1 := by
  cases m with
  | dense m =>
      rw [rawIndexed_dense_items, List.length_map]
      exact (Dense.layout h).run_answers (Dense.WellFormed.writeHints h).rawIndexed.honest
        m.cellPosition (Dense.toList_positioned_cells m) script
  | row m =>
      rw [rawIndexed_row_items h, List.length_map]
      exact SparseLines.runScript_answers h (fun major minor => (major, minor)) script
  | col m =>
      rw [rawIndexed_col_items h, List.length_map]
      exact SparseLines.runScript_answers h (fun major minor => (minor, major)) script
  | coordinate m =>
      rw [rawIndexed_coordinate_items h, List.length_map]
      exact (Coordinate.layout h).run_answers (Coordinate.WellFormed.writeHints h).rawIndexed.honest
        m.cellPosition (Coordinate.toList_indexed_cells h) script

/-- The traversals that write, for the storage that a matrix has. -/
def WriteHints : Matrix α → Prop
  | .dense m => m.WriteHints
  | .row m => m.storage.WriteHints
  | .col m => m.storage.WriteHints
  | .coordinate m => m.WriteHints

theorem WellFormed.writeHints (h : m.WellFormed) : m.WriteHints := by
  cases m with
  | dense m => exact Dense.WellFormed.writeHints h
  | row m => exact m.storage.writeHints
  | col m => exact m.storage.writeHints
  | coordinate m => exact Coordinate.WellFormed.writeHints h

end Raw

section Lines

/-- A traversal of lines that has not begun more of them than there are, so that
those left can be counted by subtraction. -/
def Lines.Bounded : Lines α → Prop
  | .strided cursor => cursor.begun ≤ cursor.ncols
  | .scans cursor => cursor.begun ≤ cursor.count
  | .contiguous _ | .sparse _ => True

/-- A line whose items left can be counted by division. -/
def Line.Stepped : Line α → Prop
  | .strided cursor => 0 < cursor.stride
  | .contiguous _ | .sparse _ | .scan _ => True

/-- A line that knows how many items it has. Only lines that are scanned for do
not. -/
def Line.Counted : Line α → Prop
  | .scan _ => False
  | .contiguous _ | .strided _ | .sparse _ => True

theorem Lines.bounded_after {lines : Lines α} (h : lines.Bounded) (n : Nat) :
    (Cursor.after n lines).Bounded := by
  refine Cursor.after_invariant (fun lines : Lines α => lines.Bounded) ?_ h n
  rintro (cursor | cursor | cursor | cursor) hbounded
  · trivial
  · exact Dense.cols_begun_le hbounded 1
  · trivial
  · exact Coordinate.lines_begun_le hbounded 1

theorem Line.stepped_after {line : Line α} (h : line.Stepped) (n : Nat) :
    (Cursor.after n line).Stepped := by
  refine Cursor.after_invariant (fun line : Line α => line.Stepped) ?_ h n
  rintro (cursor | cursor | cursor | cursor) hstepped
  · trivial
  · exact Dense.stride_pos hstepped 1
  · trivial
  · trivial

theorem Line.exactSize {line : Line α} (hcounted : line.Counted) (hstepped : line.Stepped) :
    Cursor.ExactSize line := by
  cases line with
  | contiguous cursor =>
      exact (Cursor.ExactSize.of_exact cursor).embed (f := Line.contiguous) (fun _ => rfl)
        fun _ => rfl
  | strided cursor =>
      exact (Dense.Strided.exactSize hstepped).embed (f := Line.strided) (fun _ => rfl)
        fun _ => rfl
  | sparse cursor =>
      exact (Cursor.ExactSize.of_exact cursor).embed (f := Line.sparse) (fun _ => rfl)
        fun _ => rfl
  | scan cursor => exact hcounted.elim

theorem Line.honest {line : Line α} (hstepped : line.Stepped) : Cursor.Honest line := by
  by_cases hcounted : line.Counted
  · exact (Line.exactSize hcounted hstepped).honest
  · cases line with
    | scan cursor =>
        exact (Coordinate.Scan.honest cursor).embed (f := Line.scan) (fun _ => rfl) fun _ => rfl
    | _ => exact absurd trivial hcounted

theorem Lines.exactSize (lines : Lines α) : Cursor.ExactSize lines := by
  cases lines with
  | contiguous cursor =>
      exact (Dense.Rows.exactSize cursor).embed (f := Lines.contiguous) (fun _ => rfl)
        fun _ => rfl
  | strided cursor =>
      exact (Dense.Cols.exactSize cursor).embed (f := Lines.strided) (fun _ => rfl) fun _ => rfl
  | sparse cursor =>
      exact (Cursor.ExactSize.of_exact cursor).embed (f := Lines.sparse) (fun _ => rfl)
        fun _ => rfl
  | scans cursor =>
      exact (Coordinate.Lines.exactSize cursor).embed (f := Lines.scans) (fun _ => rfl)
        fun _ => rfl

/-- A traversal of lines keeps to its hints and so does every line it hands out:
it always knows how many lines are left, a line that is counted always knows how
many items, and what has to be subtracted or divided by for that is never out
of range. -/
structure Lines.HintsKept (lines : Lines α) : Prop where
  exactSize : Cursor.ExactSize lines
  bounded : ∀ n, (Cursor.after n lines).Bounded
  line_honest : ∀ line ∈ Cursor.toList lines, Cursor.Honest line
  line_exactSize : ∀ line ∈ Cursor.toList lines, line.Counted → Cursor.ExactSize line
  line_stepped : ∀ line ∈ Cursor.toList lines, ∀ n, (Cursor.after n line).Stepped

theorem Lines.hintsKept {lines : Lines α} (hbounded : lines.Bounded)
    (hstepped : ∀ line ∈ Cursor.toList lines, line.Stepped) : lines.HintsKept where
  exactSize := lines.exactSize
  bounded := Lines.bounded_after hbounded
  line_honest line hline := Line.honest (hstepped line hline)
  line_exactSize line hline hcounted := Line.exactSize hcounted (hstepped line hline)
  line_stepped line hline := Line.stepped_after (hstepped line hline)

theorem Lines.toList_contiguous (cursor : Dense.Rows α) :
    Cursor.toList (Lines.contiguous cursor) =
      (Cursor.toList cursor).map fun row => .contiguous ⟨row⟩ :=
  Cursor.toList_of_embedding (f := Lines.contiguous) (fun _ => rfl) cursor

theorem Lines.toList_strided (cursor : Dense.Cols α) :
    Cursor.toList (Lines.strided cursor) = (Cursor.toList cursor).map .strided :=
  Cursor.toList_of_embedding (f := Lines.strided) (fun _ => rfl) cursor

theorem Lines.toList_sparse (cursor : Items (SparseVector α)) :
    Cursor.toList (Lines.sparse cursor) = (Cursor.toList cursor).map fun v => .sparse v.cursor :=
  Cursor.toList_of_embedding (f := Lines.sparse) (fun _ => rfl) cursor

theorem Lines.toList_scans (cursor : Coordinate.Lines α) :
    Cursor.toList (Lines.scans cursor) = (Cursor.toList cursor).map .scan :=
  Cursor.toList_of_embedding (f := Lines.scans) (fun _ => rfl) cursor

theorem Lines.hintsKept_sparse (cursor : Items (SparseVector α)) :
    (Lines.sparse cursor).HintsKept := by
  refine Lines.hintsKept trivial fun line hline => ?_
  rw [Lines.toList_sparse] at hline
  obtain ⟨v, -, rfl⟩ := List.mem_map.mp hline
  trivial

theorem Lines.hintsKept_scans (count : Nat) (stored : List (Nat × Nat × α)) :
    (Lines.scans ⟨0, count, stored⟩).HintsKept := by
  refine Lines.hintsKept (Nat.zero_le count) fun line hline => ?_
  rw [Lines.toList_scans] at hline
  obtain ⟨scan, -, rfl⟩ := List.mem_map.mp hline
  trivial

theorem rows?_hintsKept {lines : Lines α} (h : m.rows? = some lines) : lines.HintsKept := by
  cases m with
  | dense m =>
      cases h
      refine Lines.hintsKept trivial fun line hline => ?_
      rw [Lines.toList_contiguous] at hline
      obtain ⟨row, -, rfl⟩ := List.mem_map.mp hline
      trivial
  | row m =>
      cases h
      exact Lines.hintsKept_sparse m.rows
  | col m => cases h
  | coordinate m =>
      cases h
      exact Lines.hintsKept_scans m.nrows _

theorem cols?_hintsKept {lines : Lines α} (h : m.cols? = some lines) : lines.HintsKept := by
  cases m with
  | dense m =>
      cases h
      refine Lines.hintsKept (Nat.zero_le m.ncols) fun line hline => ?_
      rw [Lines.toList_strided, Dense.cols, Dense.toList_cols, List.map_map] at hline
      obtain ⟨j, hj, rfl⟩ := List.mem_map.mp hline
      -- a matrix that has a column takes steps of at least one
      exact Nat.zero_lt_of_lt (List.mem_range.mp hj)
  | row m => cases h
  | col m =>
      cases h
      exact Lines.hintsKept_sparse m.cols
  | coordinate m =>
      cases h
      exact Lines.hintsKept_scans m.ncols _

end Lines

section LineRuns

/-- How many items each of the lines has. -/
def Lines.counts (lines : Lines α) : List Nat :=
  (Cursor.toList lines).map fun line => (Cursor.toList line).length

theorem Lines.counts_contiguous (cursor : Dense.Rows α) :
    (Lines.contiguous cursor).counts = (Cursor.toList cursor).map List.length := by
  rw [Lines.counts, Lines.toList_contiguous, List.map_map]
  refine List.map_congr_left fun row _ => ?_
  have hitems := Cursor.toList_of_embedding (f := Line.contiguous (α := α)) (fun _ => rfl) ⟨row⟩
  rw [Function.comp_apply, hitems, List.length_map, toList_items]

theorem Lines.counts_strided (cursor : Dense.Cols α) : (Lines.strided cursor).counts =
    ((Cursor.toList cursor).map Cursor.toList).map List.length := by
  rw [Lines.counts, Lines.toList_strided, List.map_map, List.map_map]
  refine List.map_congr_left fun column _ => ?_
  have hitems := Cursor.toList_of_embedding (f := Line.strided) (fun _ => rfl) column
  rw [Function.comp_apply, Function.comp_apply, hitems, List.length_map]

theorem Lines.counts_sparse (lines : List (SparseVector α)) :
    (Lines.sparse ⟨lines⟩).counts = lines.map fun v => v.toList.length := by
  rw [Lines.counts, Lines.toList_sparse, toList_items, List.map_map]
  refine List.map_congr_left fun v _ => ?_
  have hitems := Cursor.toList_of_embedding (f := Line.sparse) (fun _ => rfl) v.cursor
  rw [Function.comp_apply, hitems, List.length_map, SparseVector.cursor, toList_items]

theorem Lines.counts_scans (cursor : Coordinate.Lines α) : (Lines.scans cursor).counts =
    ((Cursor.toList cursor).map Cursor.toList).map List.length := by
  rw [Lines.counts, Lines.toList_scans, List.map_map, List.map_map]
  refine List.map_congr_left fun scan _ => ?_
  have hitems := Cursor.toList_of_embedding (f := Line.scan) (fun _ => rfl) scan
  rw [Function.comp_apply, Function.comp_apply, hitems, List.length_map]

/-- Scripts on lines to be written are answered for the lines that are read. -/
def LinesAnswered (lines? : Option (Lines α)) (scripts : List (LineScript α))
    (result : LineReplies α) : Prop :=
  ∀ replies left, result = .ok (replies, left) → ∃ lines, lines? = some lines ∧
    LineScript.LinesAnswered SizeHint.Pins lines.counts scripts replies left

theorem runRows?_answered (h : m.WellFormed) {scripts : List (LineScript α)}
    {result : LineReplies α} {m' : Matrix α} (hrun : m.runRows? scripts = some (result, m')) :
    LinesAnswered m.rows? scripts result := by
  rintro replies left rfl
  cases m with
  | dense m =>
      have hresult : (m.runRows scripts).1 = .ok (replies, left) :=
        congrArg Prod.fst (Option.some.inj hrun)
      refine ⟨_, rfl, ?_⟩
      rw [Lines.counts_contiguous, ← Dense.length_rowCells]
      exact Dense.runRows_answered hresult
  | row m =>
      have hresult : (m.storage.runLines scripts).1 = .ok (replies, left) :=
        congrArg Prod.fst (Option.some.inj hrun)
      refine ⟨_, rfl, ?_⟩
      rw [RowMatrix.rows, Lines.counts_sparse]
      exact SparseLines.runLines_answered h hresult
  | col m => cases hrun
  | coordinate m =>
      have hresult : (m.runGrouped m.rowCells scripts).1 = .ok (replies, left) :=
        congrArg Prod.fst (Option.some.inj hrun)
      refine ⟨_, rfl, ?_⟩
      rw [Lines.counts_scans]
      exact (Coordinate.rows_partitioned h).runGrouped_answered hresult

theorem runCols?_answered (h : m.WellFormed) {scripts : List (LineScript α)}
    {result : LineReplies α} {m' : Matrix α} (hrun : m.runCols? scripts = some (result, m')) :
    LinesAnswered m.cols? scripts result := by
  rintro replies left rfl
  cases m with
  | dense m =>
      have hresult : (m.runCols scripts).1 = .ok (replies, left) :=
        congrArg Prod.fst (Option.some.inj hrun)
      obtain ⟨columns, hgathered, -⟩ := Dense.exists_colCells h
      refine ⟨_, rfl, ?_⟩
      rw [Lines.counts_strided, ← Dense.length_columns h hgathered]
      exact Dense.runCols_answered h hgathered hresult
  | row m => cases hrun
  | col m =>
      have hresult : (m.storage.runLines scripts).1 = .ok (replies, left) :=
        congrArg Prod.fst (Option.some.inj hrun)
      refine ⟨_, rfl, ?_⟩
      rw [ColMatrix.cols, Lines.counts_sparse]
      exact SparseLines.runLines_answered h hresult
  | coordinate m =>
      have hresult : (m.runGrouped m.colCells scripts).1 = .ok (replies, left) :=
        congrArg Prod.fst (Option.some.inj hrun)
      refine ⟨_, rfl, ?_⟩
      rw [Lines.counts_scans]
      exact (Coordinate.cols_partitioned h).runGrouped_answered hresult

end LineRuns

end Matrix

namespace View

variable {α : Type} {v : View α}

/-- Every traversal of a view keeps to its hints: raw, positioned, of entries and
of lines to be read, and the same to be written, as far as the answers to a script
tell. -/
structure HintsKept (v : View α) : Prop where
  raw : Cursor.Honest v.raw
  rawIndexed : Cursor.Honest v.rawIndexed
  entries : ∀ cursor, v.entries? = some cursor → Cursor.Honest cursor
  rows : ∀ lines, v.rows? = some lines → lines.HintsKept
  cols : ∀ lines, v.cols? = some lines → lines.HintsKept
  runRaw : ∀ script, Script.Answers SizeHint.Admits (Cursor.toList v.raw).length script
    (v.runRaw script).1
  runIndexed : ∀ script, Script.Answers SizeHint.Admits (Cursor.toList v.rawIndexed).length script
    (v.runIndexed script).1
  runRows : ∀ scripts result w, v.runRows? scripts = some (result, w) →
    Matrix.LinesAnswered v.rows? scripts result
  runCols : ∀ scripts result w, v.runCols? scripts = some (result, w) →
    Matrix.LinesAnswered v.cols? scripts result

theorem lines_hintsKept (v : View α) :
    (∀ lines, v.rows? = some lines → lines.HintsKept) ∧
      ∀ lines, v.cols? = some lines → lines.HintsKept := by
  induction v with
  | whole m => exact ⟨fun _ => Matrix.rows?_hintsKept, fun _ => Matrix.cols?_hintsKept⟩
  | transposed access v ih => exact ⟨ih.2, ih.1⟩

theorem runLines_answered (h : v.base.WellFormed) (scripts : List (LineScript α))
    (result : Matrix.LineReplies α) :
    (∀ w, v.runRows? scripts = some (result, w) → Matrix.LinesAnswered v.rows? scripts result) ∧
      ∀ w, v.runCols? scripts = some (result, w) →
        Matrix.LinesAnswered v.cols? scripts result := by
  induction v with
  | whole m =>
      constructor
      · intro w hrun
        obtain ⟨⟨result', m'⟩, hbase, heq⟩ := Option.map_eq_some_iff.mp hrun
        cases heq
        exact Matrix.runRows?_answered h hbase
      · intro w hrun
        obtain ⟨⟨result', m'⟩, hbase, heq⟩ := Option.map_eq_some_iff.mp hrun
        cases heq
        exact Matrix.runCols?_answered h hbase
  | transposed access v ih =>
      constructor
      · intro w hrun
        obtain ⟨⟨result', v'⟩, hinner, heq⟩ := Option.map_eq_some_iff.mp hrun
        cases heq
        exact (ih h).2 v' hinner
      · intro w hrun
        obtain ⟨⟨result', v'⟩, hinner, heq⟩ := Option.map_eq_some_iff.mp hrun
        cases heq
        exact (ih h).1 v' hinner

theorem rawIndexed_honest (h : v.base.WellFormed) : Cursor.Honest v.rawIndexed := by
  rw [rawIndexed_base]
  exact Matrix.rawIndexed_honest h

theorem entries_honest (h : v.base.WellFormed)
    {cursor : Mapped (Matrix.RawIndexed α) (IndexedEntry α) (IndexedEntry α)}
    (hentries : v.entries? = some cursor) : Cursor.Honest cursor := by
  cases v with
  | whole m => cases hentries
  | transposed access v =>
      cases hentries
      exact (rawIndexed_honest h).mapped IndexedEntry.transposed

theorem hintsKept (h : v.base.WellFormed) : v.HintsKept where
  raw := v.raw.honest
  rawIndexed := rawIndexed_honest h
  entries _ hentries := entries_honest h hentries
  rows := v.lines_hintsKept.1
  cols := v.lines_hintsKept.2
  runRaw script := by
    rw [raw_base, runRaw_rebased]
    exact Matrix.runRaw_answers h script
  runIndexed script := by
    rw [rawIndexed_base, runIndexed_rebased]
    exact Matrix.runIndexed_answers h script
  runRows scripts result := (runLines_answered h scripts result).1
  runCols scripts result := (runLines_answered h scripts result).2

end View

/-- A vector knows how many entries are left, to be read and to be written. -/
structure SparseVector.HintsKept {α : Type} (v : SparseVector α) : Prop where
  cursor : Cursor.ExactSize v.cursor
  cells : Cursor.ExactSize (⟨v.cells⟩ : Items (Nat × Nat))
  runScript : ∀ script, Script.Answers SizeHint.Pins v.toList.length script (v.runScript script).1

theorem SparseVector.hintsKept {α : Type} (v : SparseVector α) : v.HintsKept where
  cursor := .of_exact _
  cells := .of_exact _
  runScript := v.runScript_answers

/-- Every traversal of a reachable matrix, handed out by itself or by any chain of
views, keeps to its hints in every state, also past the end: the bounds are never
wrong, they are the number of items left wherever that is promised, and nothing is
handed out any more once the end was reported. The same is true of every vector. -/
theorem size_hints_kept {α : Type} {m : Matrix α} (h : m.Reachable) (accesses : List Access)
    (v : SparseVector α) :
    (View.chain m accesses).HintsKept ∧ m.WriteHints ∧ v.HintsKept := by
  have hbase : (View.chain m accesses).base.WellFormed := by
    rw [View.base_chain]
    exact h.wellFormed
  exact ⟨View.hintsKept hbase, h.wellFormed.writeHints, v.hintsKept⟩

/-- Seen through a view, a dense matrix of two rows and three columns has three
rows of two: with two of them handed out one is left, and beyond the third there
is none. -/
theorem twoByThree_hints_kept :
    (Matrix.dense Dense.twoByThree).Reachable ∧
      (View.chain (.dense Dense.twoByThree) [.exclusive]).rows? =
        some (.strided Dense.twoByThree.cols) ∧
      (Cursor.hint (Cursor.after 2 (Matrix.Lines.strided Dense.twoByThree.cols))).Pins 1 ∧
      ∀ k, (Cursor.next (Cursor.after (3 + k) (Matrix.Lines.strided Dense.twoByThree.cols))).1 =
        none := by
  have hbuilt : Dense.ofArray 2 3 #[1, 2, 3, 4, 5, 6] = .ok Dense.twoByThree := rfl
  have hreachable : (Matrix.dense Dense.twoByThree).Reachable := .built (.rowMajor hbuilt)
  obtain ⟨hview, -, -⟩ := size_hints_kept hreachable [.exclusive] .empty
  have hrows : (View.chain (.dense Dense.twoByThree) [.exclusive]).rows? =
      some (.strided Dense.twoByThree.cols) := rfl
  have hexact := (hview.rows _ hrows).exactSize
  have hcount : (Cursor.toList (Matrix.Lines.strided Dense.twoByThree.cols)).length = 3 := by
    rw [Matrix.Lines.toList_strided, Dense.cols, Dense.toList_cols, List.length_map,
      List.length_map, List.length_range]
    rfl
  refine ⟨hreachable, hrows, ?_, hexact.fused 3 ?_⟩
  · have hhint := hexact.hint_kept 2
    rwa [hexact.toList_after, List.length_drop, hcount] at hhint
  · rfl

end TransposedViews
