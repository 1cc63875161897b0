import TransposedViews.Proofs.Construction
import TransposedViews.Proofs.Operation
import TransposedViews.Proofs.Parity
import TransposedViews.Proofs.Refusal

/-!
A transposed view against the matrix it shows. The mirror of a matrix stores
the transposed entries the way a transposed view finds them: rows and columns
share one storage of lines, and a coordinate form has its two index sequences
exchanged. Every operation through the view and on the mirror gives the same
answer, keeps the two mirrored and is refused on both sides or on none.
-/

namespace TransposedViews

/-- Both sides of a transposition let the same positions through. -/
theorem asserted_exchanged {i j nrows ncols : Nat} {access access' : Unit → Except Fault β}
    (h : i < nrows → j < ncols → access () = (access' ()).mapError Fault.exchanged) :
    (assertInBounds j i ncols nrows >>= access) =
      (assertInBounds i j nrows ncols >>= access').mapError Fault.exchanged := by
  by_cases hinside : i < nrows ∧ j < ncols
  · rw [asserted_of_inside hinside.1 hinside.2, asserted_of_inside hinside.2 hinside.1]
    exact h hinside.1 hinside.2
  · rw [asserted_of_outside hinside, asserted_of_outside fun h => hinside h.symm]
    rfl

namespace Coordinate

variable {α : Type}

/-- The same entries in the same slots, with rows and columns exchanged. -/
structure Mirrors (m m' : Coordinate α) : Prop where
  nrows_eq : m'.nrows = m.ncols
  ncols_eq : m'.ncols = m.nrows
  rows_eq : m'.rowIndices = m.colIndices
  cols_eq : m'.colIndices = m.rowIndices
  values_eq : m'.values = m.values
  slots_eq : ∀ i j : Nat, m'.slots[(i, j)]? = m.slots[(j, i)]?

namespace Mirrors

variable {m m' : Coordinate α} {i j : Nat}

theorem symm (h : m.Mirrors m') : m'.Mirrors m where
  nrows_eq := h.ncols_eq.symm
  ncols_eq := h.nrows_eq.symm
  rows_eq := h.cols_eq.symm
  cols_eq := h.rows_eq.symm
  values_eq := h.values_eq.symm
  slots_eq i j := (h.slots_eq j i).symm

theorem empty (nrows ncols : Nat) :
    (empty nrows ncols : Coordinate α).Mirrors (.empty ncols nrows) where
  nrows_eq := rfl
  ncols_eq := rfl
  rows_eq := rfl
  cols_eq := rfl
  values_eq := rfl
  slots_eq i j := by simp [Coordinate.empty]

theorem with_values (h : m.Mirrors m') (values : Array α) :
    ({m with values} : Coordinate α).Mirrors {m' with values} where
  nrows_eq := h.nrows_eq
  ncols_eq := h.ncols_eq
  rows_eq := h.rows_eq
  cols_eq := h.cols_eq
  values_eq := rfl
  slots_eq := h.slots_eq

/-- Storing at exchanged positions appends to both or overwrites the same
slot of both. -/
theorem store (h : m.Mirrors m') (x : α) : (m.store j i x).Mirrors (m'.store i j x) := by
  have hslot := h.slots_eq i j
  unfold Coordinate.store
  rw [hslot]
  cases m.slots[(j, i)]? with
  | some slot =>
      simp only [h.values_eq]
      exact h.with_values _
  | none =>
      refine ⟨h.nrows_eq, h.ncols_eq, ?_, ?_, ?_, ?_⟩
      · simp only [h.rows_eq]
      · simp only [h.cols_eq]
      · simp only [h.values_eq]
      · intro a b
        simp [Std.ExtHashMap.getElem?_insert, h.slots_eq, h.values_eq, and_comm]

/-- Both removals move the same last slot. -/
theorem discard (h : m.Mirrors m') : (m.discard j i).Mirrors (m'.discard i j) := by
  have hslot := h.slots_eq i j
  unfold Coordinate.discard
  rw [hslot]
  cases m.slots[(j, i)]? with
  | none => exact h
  | some slot =>
      refine ⟨h.nrows_eq, h.ncols_eq, ?_, ?_, ?_, ?_⟩
      · simp only [h.rows_eq]
      · simp only [h.cols_eq]
      · simp only [h.values_eq]
      · intro a b
        simp only [h.rows_eq, h.cols_eq]
        cases (swapRemoved m.rowIndices slot)[slot]? with
        | none =>
            cases (swapRemoved m.colIndices slot)[slot]? with
            | none => simp [Std.ExtHashMap.getElem?_erase, h.slots_eq, and_comm]
            | some col => simp [Std.ExtHashMap.getElem?_erase, h.slots_eq, and_comm]
        | some row =>
            cases (swapRemoved m.colIndices slot)[slot]? with
            | none => simp [Std.ExtHashMap.getElem?_erase, h.slots_eq, and_comm]
            | some col =>
                simp [Std.ExtHashMap.getElem?_insert, Std.ExtHashMap.getElem?_erase, h.slots_eq,
                  and_comm]

theorem entry_eq (h : m.Mirrors m') :
    m.entry j i = (m'.entry i j).mapError Fault.exchanged := by
  unfold entry
  rw [h.nrows_eq, h.ncols_eq]
  apply asserted_exchanged
  intro _ _
  rw [h.slots_eq i j, h.values_eq]
  cases m.slots[(j, i)]? with
  | none => rfl
  | some slot => exact (frameFree_readElement m.values slot).map.symm

theorem byCol_eq (h : m.Mirrors m') (payloads : List β) : m.byCol payloads = m'.byRow payloads := by
  rw [byCol, byRow, h.rows_eq, h.cols_eq]

theorem cols_cursor_eq (h : m.Mirrors m') : m.cols = m'.rows := by
  rw [cols, rows, h.byCol_eq, h.nrows_eq, h.values_eq]

theorem colCells_eq (h : m.Mirrors m') : m.colCells = m'.rowCells := by
  rw [colCells, rowCells, h.byCol_eq, h.nrows_eq, cells, cells, h.values_eq]

/-- Runs over the same grouping answer alike and leave the two mirrored. -/
theorem runGrouped (h : m.Mirrors m') (grouped : Except Fault (Items (List (Nat × Nat))))
    (scripts : List (LineScript α)) :
    (m.runGrouped grouped scripts).1 = (m'.runGrouped grouped scripts).1 ∧
      (m.runGrouped grouped scripts).2.Mirrors (m'.runGrouped grouped scripts).2 := by
  cases grouped with
  | error fault => exact ⟨rfl, h⟩
  | ok lines =>
      simp only [Coordinate.runGrouped, h.values_eq, true_and]
      exact h.with_values _

end Mirrors

end Coordinate

namespace Matrix

variable {α : Type}

/-- The second matrix stores the transposed entries of the first, in the way
that offers its lines and its raw traversal in the same order. -/
inductive Mirrors : Matrix α → Matrix α → Prop where
  | rowCol (storage : SparseLines α) : Mirrors (.row ⟨storage⟩) (.col ⟨storage⟩)
  | colRow (storage : SparseLines α) : Mirrors (.col ⟨storage⟩) (.row ⟨storage⟩)
  | byEntry {m m' : Coordinate α} (hwf : m.WellFormed) (hwf' : m'.WellFormed)
      (h : m.Mirrors m') : Mirrors (.coordinate m) (.coordinate m')

/-- Outcomes of a modification on both sides: done or refused on both, with
mirrored matrices left. -/
def MirroredOutcomes (outcome outcome' : Except Fault Unit × Matrix α) : Prop :=
  outcome.1 = outcome'.1.mapError Fault.exchanged ∧ outcome.2.Mirrors outcome'.2

namespace Mirrors

variable {m m' : Matrix α}

theorem symm (h : m.Mirrors m') : m'.Mirrors m := by
  cases h with
  | rowCol storage => exact .colRow storage
  | colRow storage => exact .rowCol storage
  | byEntry hwf hwf' h => exact .byEntry hwf' hwf h.symm

theorem nrows_eq (h : m.Mirrors m') : m'.nrows = m.ncols := by
  cases h with
  | rowCol storage => rfl
  | colRow storage => rfl
  | byEntry _ _ h => exact h.nrows_eq

theorem category_eq (h : m.Mirrors m') : m'.category = m.category.transposed := by
  cases h <;> rfl

theorem nnz_eq (h : m.Mirrors m') : m.nnz = m'.nnz := by
  cases h with
  | rowCol storage => rfl
  | colRow storage => rfl
  | byEntry _ _ h => simp only [nnz, Coordinate.nnz, h.values_eq]

theorem entry_eq (h : m.Mirrors m') (i j : Nat) :
    m.entry j i = (m'.entry i j).mapError Fault.exchanged := by
  cases h with
  | rowCol storage =>
      apply asserted_exchanged
      intro _ _
      exact (storage.frameFree_get? j i).symm
  | colRow storage =>
      apply asserted_exchanged
      intro _ _
      exact (storage.frameFree_get? i j).symm
  | byEntry _ _ h => exact h.entry_eq

theorem fetch_eq (h : m.Mirrors m') (x : α) (i j : Nat) :
    m.fetch x j i = (m'.fetch x i j).map (Except.mapError Fault.exchanged) id := by
  rw [fetch, fetch, h.entry_eq i j]
  rcases m'.entry i j with fault | _ | y <;> rfl

theorem outside (h : m.Mirrors m') {i j : Nat} (houtside : ¬ (i < m'.nrows ∧ j < m'.ncols)) :
    ¬ (j < m.nrows ∧ i < m.ncols) := by
  rw [h.symm.nrows_eq, ← h.nrows_eq]
  exact fun hinside => houtside hinside.symm

theorem outcomes_of_outside (h : m.Mirrors m') {i j : Nat}
    {outcome outcome' : Except Fault Unit × Matrix α}
    (houtcome : outcome = (.error (.position j i m.nrows m.ncols), m))
    (houtcome' : outcome' = (.error (.position i j m'.nrows m'.ncols), m')) :
    MirroredOutcomes outcome outcome' := by
  rw [← h.nrows_eq, h.symm.nrows_eq] at houtcome
  subst houtcome houtcome'
  exact ⟨rfl, h⟩

/-- Behind the check the lines are edited, in whichever order the position
names them. -/
theorem row_set_inside {storage : SparseLines α} {i j : Nat} (hi : i < storage.majorDim)
    (hj : j < storage.minorDim) (x : α) :
    Matrix.set (.row ⟨storage⟩) i j x =
      (((storage.insert i j x).1.map fun _ => ()), .row ⟨(storage.insert i j x).2⟩) :=
  congrArg (Prod.map id row)
    (guarded_of_inside hi hj (fun m : RowMatrix α => m.insert i j x) ⟨storage⟩)

theorem col_set_inside {storage : SparseLines α} {i j : Nat} (hi : i < storage.minorDim)
    (hj : j < storage.majorDim) (x : α) :
    Matrix.set (.col ⟨storage⟩) i j x =
      (((storage.insert j i x).1.map fun _ => ()), .col ⟨(storage.insert j i x).2⟩) :=
  congrArg (Prod.map id col)
    (guarded_of_inside hi hj (fun m : ColMatrix α => m.insert i j x) ⟨storage⟩)

theorem row_erase_inside {storage : SparseLines α} {i j : Nat} (hi : i < storage.majorDim)
    (hj : j < storage.minorDim) :
    Matrix.erase (.row ⟨storage⟩) i j =
      (((storage.remove i j).1.map fun _ => ()), .row ⟨(storage.remove i j).2⟩) :=
  congrArg (Prod.map id row)
    (guarded_of_inside hi hj (fun m : RowMatrix α => m.remove i j) ⟨storage⟩)

theorem col_erase_inside {storage : SparseLines α} {i j : Nat} (hi : i < storage.minorDim)
    (hj : j < storage.majorDim) :
    Matrix.erase (.col ⟨storage⟩) i j =
      (((storage.remove j i).1.map fun _ => ()), .col ⟨(storage.remove j i).2⟩) :=
  congrArg (Prod.map id col)
    (guarded_of_inside hi hj (fun m : ColMatrix α => m.remove i j) ⟨storage⟩)

theorem set (h : m.Mirrors m') (i j : Nat) (x : α) :
    MirroredOutcomes (m.set j i x) (m'.set i j x) := by
  by_cases hinside : i < m'.nrows ∧ j < m'.ncols
  · obtain ⟨hi, hj⟩ := hinside
    cases h with
    | rowCol storage =>
        rw [row_set_inside hj hi, col_set_inside hi hj]
        exact ⟨(storage.frameFree_insert j i x).map.symm, .rowCol _⟩
    | colRow storage =>
        rw [col_set_inside hj hi, row_set_inside hi hj]
        exact ⟨(storage.frameFree_insert i j x).map.symm, .colRow _⟩
    | @byEntry m m' hwf hwf' h =>
        have hinside : j < m.nrows ∧ i < m.ncols := ⟨h.ncols_eq ▸ hj, h.nrows_eq ▸ hi⟩
        rw [Matrix.set, Matrix.set, Coordinate.set_eq hwf hinside.1 hinside.2 x,
          Coordinate.set_eq hwf' hi hj x]
        exact ⟨rfl, .byEntry (Coordinate.store_wellFormed x hwf hinside.1 hinside.2)
          (Coordinate.store_wellFormed x hwf' hi hj) (h.store x)⟩
  · have hexchanged := h.outside hinside
    exact outcomes_of_outside h (set_outside m hexchanged x) (set_outside m' hinside x)

theorem erase (h : m.Mirrors m') (i j : Nat) :
    MirroredOutcomes (m.erase j i) (m'.erase i j) := by
  by_cases hinside : i < m'.nrows ∧ j < m'.ncols
  · obtain ⟨hi, hj⟩ := hinside
    cases h with
    | rowCol storage =>
        rw [row_erase_inside hj hi, col_erase_inside hi hj]
        exact ⟨(storage.frameFree_remove j i).map.symm, .rowCol _⟩
    | colRow storage =>
        rw [col_erase_inside hj hi, row_erase_inside hi hj]
        exact ⟨(storage.frameFree_remove i j).map.symm, .colRow _⟩
    | @byEntry m m' hwf hwf' h =>
        have hinside : j < m.nrows ∧ i < m.ncols := ⟨h.ncols_eq ▸ hj, h.nrows_eq ▸ hi⟩
        rw [Matrix.erase, Matrix.erase, Coordinate.erase_eq hwf hinside.1 hinside.2,
          Coordinate.erase_eq hwf' hi hj]
        exact ⟨rfl, .byEntry (Coordinate.discard_wellFormed hwf)
          (Coordinate.discard_wellFormed hwf') h.discard⟩
  · have hexchanged := h.outside hinside
    exact outcomes_of_outside h (erase_outside m hexchanged) (erase_outside m' hinside)

theorem raw_eq (h : m.Mirrors m') : m.raw = m'.raw := by
  cases h with
  | rowCol storage => rfl
  | colRow storage => rfl
  | byEntry _ _ h =>
      simp only [raw, Coordinate.raw, h.values_eq]

theorem cols?_eq (h : m.Mirrors m') : m.cols? = m'.rows? := by
  cases h with
  | rowCol storage => rfl
  | colRow storage => rfl
  | byEntry _ _ h => simp only [cols?, rows?, h.cols_cursor_eq]

theorem runRaw (h : m.Mirrors m') (script : List (Request α)) :
    (m.runRaw script).1 = (m'.runRaw script).1 ∧
      (m.runRaw script).2.Mirrors (m'.runRaw script).2 := by
  cases h with
  | rowCol storage => exact ⟨rfl, .rowCol _⟩
  | colRow storage => exact ⟨rfl, .colRow _⟩
  | @byEntry m m' hwf hwf' h =>
      have hover := (m.runRaw_overwritten script).wellFormed hwf
      have hover' := (m'.runRaw_overwritten script).wellFormed hwf'
      simp only [Matrix.runRaw, Coordinate.runRaw, Coordinate.cells, h.values_eq, true_and]
        at hover hover' ⊢
      exact .byEntry hover hover' (h.with_values _)

/-- The raw traversal with positions exchanged is the raw traversal of the
mirror: the same items in the same order, with the same hints. -/
theorem collect_rawIndexed (h : m.Mirrors m') (limit : Option Nat) :
    Cursor.collect limit
        (⟨m.rawIndexed, IndexedEntry.transposed⟩ :
          Mapped (RawIndexed α) (IndexedEntry α) (IndexedEntry α)) =
      Cursor.collect limit m'.rawIndexed := by
  have hflattened (entries : Entries α) (position : Nat × Nat × α → IndexedEntry α) :=
    Cursor.collect_of_embedding (f := fun s => RawIndexed.flattened ⟨s, position⟩) (fun _ => rfl)
      (fun _ => rfl) limit entries
  rw [Cursor.collect_mapped]
  cases h with
  | rowCol storage =>
      simp only [rawIndexed, hflattened, List.map_map]
      rfl
  | colRow storage =>
      simp only [rawIndexed, hflattened, List.map_map]
      rfl
  | @byEntry m m' _ _ h =>
      have hexchanged := Cursor.collect_of_embedding (g := IndexedEntry.transposed)
        (f := fun s : Coordinate.Indexed α => (⟨s.cols, s.rows, s.payloads⟩ : Coordinate.Indexed α))
        (by rintro ⟨_ | _, _ | _, _ | _⟩ <;> rfl) (fun _ => rfl) limit m.rawIndexed
      have hindexed (cursor : Coordinate.Indexed α) := Cursor.collect_of_embedding
        (f := RawIndexed.indexed) (g := id) (fun s => by simp [Cursor.next]) (fun _ => rfl) limit
        cursor
      have hmirror : m'.rawIndexed =
          ⟨m.rawIndexed.cols, m.rawIndexed.rows, m.rawIndexed.payloads⟩ := by
        simp only [Coordinate.rawIndexed, h.rows_eq, h.cols_eq, h.values_eq]
      simp only [rawIndexed, hindexed, List.map_id, hmirror, hexchanged]

/-- Runs over the columns of a matrix and over the rows of its mirror exist
together, answer alike and leave the two mirrored. -/
theorem runCols? (h : m.Mirrors m') (scripts : List (LineScript α)) :
    (m.runCols? scripts = none ∧ m'.runRows? scripts = none) ∨
      ∃ replies a a', m.runCols? scripts = some (replies, a) ∧
        m'.runRows? scripts = some (replies, a') ∧ a.Mirrors a' := by
  cases h with
  | rowCol storage => exact Or.inl ⟨rfl, rfl⟩
  | colRow storage => exact Or.inr ⟨_, _, _, rfl, rfl, .colRow _⟩
  | @byEntry m m' hwf hwf' h =>
      obtain ⟨hreplies, hafter⟩ := h.runGrouped m'.rowCells scripts
      have hover := (m.runGrouped_overwritten m'.rowCells scripts).wellFormed hwf
      have hover' := (m'.runGrouped_overwritten m'.rowCells scripts).wellFormed hwf'
      refine Or.inr ⟨(m'.runRows scripts).1, .coordinate (m.runGrouped m'.rowCells scripts).2,
        .coordinate (m'.runRows scripts).2, ?_, rfl, .byEntry hover hover' hafter⟩
      rw [Matrix.runCols?, Coordinate.runCols, h.colCells_eq, Coordinate.runRows, ← hreplies]

theorem runRows? (h : m.Mirrors m') (scripts : List (LineScript α)) :
    (m.runRows? scripts = none ∧ m'.runCols? scripts = none) ∨
      ∃ replies a a', m.runRows? scripts = some (replies, a) ∧
        m'.runCols? scripts = some (replies, a') ∧ a.Mirrors a' := by
  rcases h.symm.runCols? scripts with ⟨hcols, hrows⟩ | ⟨replies, a', a, hcols, hrows, ha⟩
  · exact Or.inl ⟨hrows, hcols⟩
  · exact Or.inr ⟨replies, a, a', hrows, hcols, ha.symm⟩

end Mirrors

end Matrix

/-- Operations that a matrix offers as well as a view over one, and that do
not speak of positions in the frame of the storage. -/
def Operation.Shared {α : Type} : Operation α → Prop
  | .read (.rawIndexed _) | .read (.entries _) | .read .inner | .write (.rawIndexed _) => False
  | _ => True

namespace View

variable {α : Type}

/-- The answer to an operation and the view after it. -/
def perform (v : View α) : Operation α → Operation.Answer α × View α
  | .read request => ((v.read request).map .inl, v)
  | .write request => (v.write request).map (Except.map .inr) id

/-- The answers to operations one after the other and the view after them. -/
def performAll (v : View α) : List (Operation α) → List (Operation.Answer α) × View α
  | [] => ([], v)
  | op :: ops =>
      let (answers, after) := (v.perform op).2.performAll ops
      ((v.perform op).1 :: answers, after)

/-- A transposed view that may write, and the matrix that it shows. -/
inductive Mirrors : View α → View α → Prop where
  | transposed {m m' : Matrix α} (h : m.Mirrors m') :
      Mirrors (.transposed .exclusive (.whole m)) (.whole m')

theorem orFault_exchanged (result : Except Fault β) (f : β → γ) :
    (orFault (result.mapError Fault.exchanged)).map f =
      ((orFault result).map f).mapError Refusal.exchanged := by
  cases result <;> rfl

theorem readLines_exchanged (limit : Option Nat) (lines : Option (Matrix.Lines α)) :
    (readLines limit lines).mapError Refusal.exchanged = readLines limit lines := by
  cases lines <;> rfl

theorem readLine_exchanged (k : Nat) (limit : Option Nat) (lines : Option (Matrix.Lines α)) :
    (readLine k limit lines).mapError Refusal.exchanged = readLine k limit lines := by
  cases lines <;> rfl

namespace Mirrors

variable {v w : View α}

theorem nrows_eq (h : v.Mirrors w) : v.nrows = w.nrows := by
  cases h with
  | transposed h => exact h.nrows_eq.symm

theorem ncols_eq (h : v.Mirrors w) : v.ncols = w.ncols := by
  cases h with
  | transposed h => exact h.symm.nrows_eq

theorem category_eq (h : v.Mirrors w) : v.category = w.category := by
  cases h with
  | transposed h => exact h.category_eq.symm

theorem entry_eq (h : v.Mirrors w) (i j : Nat) :
    v.entry i j = (w.entry i j).mapError Fault.exchanged := by
  cases h with
  | transposed h => exact h.entry_eq i j

theorem fetch_eq (h : v.Mirrors w) (x : α) (i j : Nat) :
    v.fetch x i j = (w.fetch x i j).map (Except.mapError Fault.exchanged) id := by
  cases h with
  | transposed h => exact h.fetch_eq x i j

theorem grid_eq (h : v.Mirrors w) : v.grid = w.grid.mapError Fault.exchanged := by
  simp only [grid, h.nrows_eq, h.ncols_eq, h.entry_eq, mapM_mapError]

theorem raw_eq (h : v.Mirrors w) : v.raw = w.raw := by
  cases h with
  | transposed h => exact h.raw_eq

theorem rows?_eq (h : v.Mirrors w) : v.rows? = w.rows? := by
  cases h with
  | transposed h => exact h.cols?_eq

theorem cols?_eq (h : v.Mirrors w) : v.cols? = w.cols? := by
  cases h with
  | transposed h => exact h.symm.cols?_eq.symm

/-- Reading answers alike, line by line and in the same order. -/
theorem read_eq (h : v.Mirrors w) (request : Reading α)
    (hshared : (Operation.read request).Shared) :
    v.read request = (w.read request).mapError Refusal.exchanged := by
  cases request with
  | dimensions =>
      simp only [read, h.nrows_eq, h.ncols_eq]
      rfl
  | category =>
      simp only [read, h.category_eq]
      rfl
  | entry i j => simp only [read, h.entry_eq, orFault_exchanged]
  | fetch i j x => simp only [read, h.fetch_eq, Prod.map_fst, Prod.map_snd, id, orFault_exchanged]
  | grid => simp only [read, h.grid_eq, orFault_exchanged]
  | raw limit =>
      simp only [read, h.raw_eq]
      rfl
  | rows limit => simp only [read, h.rows?_eq, readLines_exchanged]
  | cols limit => simp only [read, h.cols?_eq, readLines_exchanged]
  | row k limit => simp only [read, h.rows?_eq, readLine_exchanged]
  | col k limit => simp only [read, h.cols?_eq, readLine_exchanged]
  | rawIndexed limit => exact hshared.elim
  | entries limit => exact hshared.elim
  | inner => exact hshared.elim

end Mirrors

section Writing

variable {m m' : Matrix α}

/-- Outcomes of a modification on both sides: the same answer but for the
frame of a refusal, and views that are mirrored again. -/
def OutcomesMirror (outcome outcome' : Except Refusal (WriteAnswer α) × View α) : Prop :=
  outcome.1 = outcome'.1.mapError Refusal.exchanged ∧ outcome.2.Mirrors outcome'.2

theorem modified_mirrors {outcome outcome' : Except Fault Unit × Matrix α}
    (h : Matrix.MirroredOutcomes outcome outcome') :
    OutcomesMirror (modified ((outcome.map id whole).map id (transposed .exclusive)))
      (modified (outcome'.map id whole)) := by
  refine ⟨?_, .transposed h.2⟩
  simp only [modified, Prod.map_fst, id, h.1, orFault_exchanged]

theorem linesRun_mirrors (h : m.Mirrors m')
    {runs runs' : Option (Matrix.LineReplies α × Matrix α)}
    (hruns : (runs = none ∧ runs' = none) ∨
      ∃ replies a a', runs = some (replies, a) ∧ runs' = some (replies, a') ∧ a.Mirrors a')
    (hfree : ∀ {replies a}, runs = some (replies, a) → FrameFree replies) :
    OutcomesMirror
      ((transposed .exclusive (whole m)).linesRun
        ((runs.map fun (result, m) => (result, whole m)).map
          fun (result, v) => (result, transposed .exclusive v)))
      ((whole m').linesRun (runs'.map fun (result, m) => (result, whole m))) := by
  rcases hruns with ⟨rfl, rfl⟩ | ⟨replies, a, a', rfl, rfl, ha⟩
  · exact ⟨rfl, .transposed h⟩
  · refine ⟨?_, .transposed ha⟩
    have hanswer := orFault_exchanged replies
      fun result => (WriteAnswer.lines result.1 result.2 : WriteAnswer α)
    rw [hfree rfl] at hanswer
    exact hanswer

/-- Writing answers alike, is refused on both sides or on none, and keeps view
and matrix mirrored. -/
theorem Mirrors.write {v w : View α} (h : v.Mirrors w) (request : Writing α)
    (hshared : (Operation.write request).Shared) :
    OutcomesMirror (v.write request) (w.write request) := by
  cases h with
  | @transposed m m' h =>
      cases request with
      | set i j x => exact modified_mirrors (h.set i j x)
      | erase i j => exact modified_mirrors (h.erase i j)
      | raw script =>
          obtain ⟨hreplies, hafter⟩ := h.runRaw script
          have hanswer : (.ok (.values (m.runRaw script).1) : Except Refusal (WriteAnswer α)) =
              .ok (.values (m'.runRaw script).1) := by rw [hreplies]
          exact ⟨hanswer, .transposed hafter⟩
      | rows scripts => exact linesRun_mirrors h (h.runCols? scripts) Matrix.frameFree_runCols?
      | cols scripts => exact linesRun_mirrors h (h.runRows? scripts) Matrix.frameFree_runRows?
      | rawIndexed script => exact hshared.elim

end Writing

section Runs

variable {v w : View α}

theorem Mirrors.perform (h : v.Mirrors w) (op : Operation α) (hshared : op.Shared) :
    (v.perform op).1 = (w.perform op).1.mapError Refusal.exchanged ∧
      (v.perform op).2.Mirrors (w.perform op).2 := by
  cases op with
  | read request =>
      refine ⟨?_, h⟩
      simp only [View.perform, h.read_eq request hshared]
      cases w.read request <;> rfl
  | write request =>
      obtain ⟨hanswer, hafter⟩ := h.write request hshared
      refine ⟨?_, hafter⟩
      simp only [View.perform, Prod.map_fst, hanswer]
      cases (w.write request).1 <;> rfl

theorem Mirrors.performAll (h : v.Mirrors w) (ops : List (Operation α))
    (hshared : ∀ op ∈ ops, op.Shared) :
    (v.performAll ops).1 = (w.performAll ops).1.map (Except.mapError Refusal.exchanged) ∧
      (v.performAll ops).2.Mirrors (w.performAll ops).2 := by
  induction ops generalizing v w with
  | nil => exact ⟨rfl, h⟩
  | cons op ops ih =>
      obtain ⟨hanswer, hafter⟩ := h.perform op (hshared op (by simp))
      obtain ⟨hanswers, hend⟩ := ih hafter fun op hop => hshared op (by simp [hop])
      refine ⟨?_, hend⟩
      simp only [View.performAll, hanswer, hanswers, List.map_cons]

/-- Without a transposition a run is one on the matrix itself. -/
theorem perform_whole (m : Matrix α) (op : Operation α) :
    (whole m).perform op = (m.perform op).map id whole := by
  cases op with
  | read request =>
      rw [perform, read_whole]
      rfl
  | write request =>
      rw [perform, write_whole]
      rfl

theorem performAll_whole (m : Matrix α) (ops : List (Operation α)) :
    (whole m).performAll ops = (m.performAll ops).map id whole := by
  induction ops generalizing m with
  | nil => rfl
  | cons op ops ih =>
      simp only [View.performAll, Matrix.performAll, perform_whole, Prod.map_fst, Prod.map_snd, ih]
      rfl

/-- A transposed view shows a matrix: whatever is stored below it is stored
there too, exchanged and in the same order, the view has its shape and its
traversals, lists its entries, and gives its answers but for the frame that a
refusal names. -/
structure ShowsMirror (v : View α) (m : Matrix α) : Prop where
  stored : ∃ below, v = transposed .exclusive (whole below) ∧ below.Mirrors m
  nrows_eq : v.nrows = m.nrows
  ncols_eq : v.ncols = m.ncols
  category_eq : v.category = m.category
  nnz_eq : v.base.nnz = m.nnz
  entry_eq : ∀ i j, v.entry i j = (m.entry i j).mapError Fault.exchanged
  raw_eq : v.raw = m.raw
  rows?_eq : v.rows? = m.rows?
  cols?_eq : v.cols? = m.cols?
  entries_eq : ∃ entries, v.entries? = some entries ∧
    ∀ limit, Cursor.collect limit entries = Cursor.collect limit m.rawIndexed
  answer_eq : ∀ op : Operation α, op.Shared →
    (v.perform op).1 = (m.perform op).1.mapError Refusal.exchanged

theorem Mirrors.shows {m : Matrix α} (h : v.Mirrors (whole m)) : v.ShowsMirror m where
  stored := by
    cases h with
    | @transposed below _ h => exact ⟨below, rfl, h⟩
  nrows_eq := h.nrows_eq
  ncols_eq := h.ncols_eq
  category_eq := h.category_eq
  nnz_eq := by
    cases h with
    | transposed h => exact h.nnz_eq
  entry_eq := h.entry_eq
  raw_eq := h.raw_eq
  rows?_eq := h.rows?_eq
  cols?_eq := h.cols?_eq
  entries_eq := by
    cases h with
    | transposed h => exact ⟨_, rfl, h.collect_rawIndexed⟩
  answer_eq op hshared := by
    rw [(h.perform op hshared).1, perform_whole]
    rfl

/-- A run through a transposed view is a run on the matrix it shows. -/
theorem runs_as_mirror {m m' : Matrix α} (h : m.Mirrors m') (ops : List (Operation α))
    (hshared : ∀ op ∈ ops, op.Shared) :
    ((transposed .exclusive (whole m)).performAll ops).1 =
        (m'.performAll ops).1.map (Except.mapError Refusal.exchanged) ∧
      ((transposed .exclusive (whole m)).performAll ops).2.ShowsMirror (m'.performAll ops).2 := by
  obtain ⟨hanswers, hend⟩ := (Mirrors.transposed h).performAll ops hshared
  rw [performAll_whole] at hanswers hend
  exact ⟨hanswers, hend.shows⟩

end Runs

end View

section Triplets

/-- A triplet seen from the other side of a transposition. -/
def Triplet.exchanged {α : Type} (t : Triplet α) : Triplet α := (t.2.1, t.1, t.2.2)

variable {M M' α : Type} {nrows ncols : Nat}

theorem inside_exchanged {triplets : List (Triplet α)}
    (h : ∀ t ∈ triplets, t.1 < nrows ∧ t.2.1 < ncols) :
    ∀ t ∈ triplets.map Triplet.exchanged, t.1 < ncols ∧ t.2.1 < nrows := by
  intro t ht
  obtain ⟨original, hmem, rfl⟩ := List.mem_map.mp ht
  exact (h original hmem).symm

/-- Storing triplets and storing the exchanged ones run side by side. -/
theorem foldl_exchanged (store : M → Nat → Nat → α → M) (store' : M' → Nat → Nat → α → M')
    (related : M → M' → Prop)
    (hstore : ∀ m m' i j x, related m m' → related (store m i j x) (store' m' j i x))
    (triplets : List (Triplet α)) (start : M) (start' : M') (hstart : related start start') :
    related (triplets.foldl (fun m t => store m t.1 t.2.1 t.2.2) start)
      ((triplets.map Triplet.exchanged).foldl (fun m t => store' m t.1 t.2.1 t.2.2) start') := by
  induction triplets generalizing start start' with
  | nil => exact hstart
  | cons t rest ih => exact ih _ _ (hstore start start' t.1 t.2.1 t.2.2 hstart)

variable {triplets : List (Triplet α)} (h : ∀ t ∈ triplets, t.1 < nrows ∧ t.2.1 < ncols)

include h

theorem row_mirrors_col :
    ∃ (byRow : RowMatrix α) (mirror : ColMatrix α),
      RowMatrix.ofTriplets nrows ncols triplets = .ok byRow ∧
      ColMatrix.ofTriplets ncols nrows (triplets.map Triplet.exchanged) = .ok mirror ∧
      (Matrix.row byRow).Mirrors (.col mirror) := by
  refine ⟨_, _, Matrix.row_accepts_inside h, Matrix.col_accepts_inside (inside_exchanged h), ?_⟩
  apply foldl_exchanged RowMatrix.store ColMatrix.store
    fun (m : RowMatrix α) (m' : ColMatrix α) => (Matrix.row m).Mirrors (.col m')
  · intro m m' i j x hmirrors
    cases hmirrors with
    | rowCol storage => exact .rowCol (storage.store i j x)
  · exact .rowCol (.empty nrows ncols)

theorem col_mirrors_row :
    ∃ (byCol : ColMatrix α) (mirror : RowMatrix α),
      ColMatrix.ofTriplets nrows ncols triplets = .ok byCol ∧
      RowMatrix.ofTriplets ncols nrows (triplets.map Triplet.exchanged) = .ok mirror ∧
      (Matrix.col byCol).Mirrors (.row mirror) := by
  refine ⟨_, _, Matrix.col_accepts_inside h, Matrix.row_accepts_inside (inside_exchanged h), ?_⟩
  apply foldl_exchanged ColMatrix.store RowMatrix.store
    fun (m : ColMatrix α) (m' : RowMatrix α) => (Matrix.col m).Mirrors (.row m')
  · intro m m' i j x hmirrors
    cases hmirrors with
    | colRow storage => exact .colRow (storage.store j i x)
  · exact .colRow (.empty ncols nrows)

theorem coordinate_mirrors_coordinate :
    ∃ byEntry mirror : Coordinate α,
      Coordinate.ofTriplets nrows ncols triplets = .ok byEntry ∧
      Coordinate.ofTriplets ncols nrows (triplets.map Triplet.exchanged) = .ok mirror ∧
      (Matrix.coordinate byEntry).Mirrors (.coordinate mirror) := by
  have hentry := Matrix.coordinate_accepts_inside h
  have hmirror := Matrix.coordinate_accepts_inside (inside_exchanged h)
  refine ⟨_, _, hentry, hmirror,
    .byEntry (Matrix.triplets_wellFormed hentry) (Matrix.triplets_wellFormed hmirror) ?_⟩
  exact foldl_exchanged Coordinate.store Coordinate.store Coordinate.Mirrors
    (fun _ _ _ _ x hmirrors => hmirrors.store x) triplets _ _
    (Coordinate.Mirrors.empty nrows ncols)

omit h

end Triplets

namespace View

variable {α : Type}

/-- A matrix built from triplets and seen through a transposed view cannot be
told from the matrix built the complementary way from the exchanged triplets:
a run of operations through the view and the same run on the other matrix
itself give the same answers, and at the end of it the view shows what the
other matrix stores, in the same order. -/
theorem transposed_runs_as_mirror (nrows ncols : Nat) (triplets : List (Triplet α))
    (h : ∀ t ∈ triplets, t.1 < nrows ∧ t.2.1 < ncols) :
    ∃ (byRow rowMirror : RowMatrix α) (byCol colMirror : ColMatrix α)
      (byEntry entryMirror : Coordinate α),
      RowMatrix.ofTriplets nrows ncols triplets = .ok byRow ∧
      ColMatrix.ofTriplets ncols nrows (triplets.map Triplet.exchanged) = .ok colMirror ∧
      ColMatrix.ofTriplets nrows ncols triplets = .ok byCol ∧
      RowMatrix.ofTriplets ncols nrows (triplets.map Triplet.exchanged) = .ok rowMirror ∧
      Coordinate.ofTriplets nrows ncols triplets = .ok byEntry ∧
      Coordinate.ofTriplets ncols nrows (triplets.map Triplet.exchanged) = .ok entryMirror ∧
      ∀ pair ∈ [(Matrix.row byRow, Matrix.col colMirror), (.col byCol, .row rowMirror),
          (.coordinate byEntry, .coordinate entryMirror)],
        ∀ ops : List (Operation α), (∀ op ∈ ops, op.Shared) →
          ((transposed .exclusive (whole pair.1)).performAll ops).1 =
              (pair.2.performAll ops).1.map (Except.mapError Refusal.exchanged) ∧
            ((transposed .exclusive (whole pair.1)).performAll ops).2.ShowsMirror
              (pair.2.performAll ops).2 := by
  obtain ⟨byRow, colMirror, hrow, hcolMirror, hrowMirrors⟩ := row_mirrors_col h
  obtain ⟨byCol, rowMirror, hcol, hrowMirror, hcolMirrors⟩ := col_mirrors_row h
  obtain ⟨byEntry, entryMirror, hentry, hentryMirror, hentryMirrors⟩ :=
    coordinate_mirrors_coordinate h
  refine ⟨byRow, rowMirror, byCol, colMirror, byEntry, entryMirror, hrow, hcolMirror, hcol,
    hrowMirror, hentry, hentryMirror, ?_⟩
  intro pair hpair ops hshared
  simp only [List.mem_cons, List.not_mem_nil, or_false] at hpair
  rcases hpair with rfl | rfl | rfl
  · exact runs_as_mirror hrowMirrors ops hshared
  · exact runs_as_mirror hcolMirrors ops hshared
  · exact runs_as_mirror hentryMirrors ops hshared

/-- An erasure, a refused setting, an edit of the lines and a reading, through
views of two rows by three columns and on their mirrors. -/
def erasingThenEditing : List (Operation Nat) :=
  [.write (.erase 2 0), .write (.set 9 9 1), .write (.set 1 1 4),
    .write (.rows [[.next (some 3)]]), .read (.entry 1 1)]

/-- The line of the coordinate form is edited; the lines of a matrix by rows
are not offered as rows of the view. -/
theorem transposed_two_by_three_runs_as_mirror :
    ∃ (byRow : RowMatrix Nat) (mirror : ColMatrix Nat) (byEntry entryMirror : Coordinate Nat),
      RowMatrix.ofTriplets 2 3 [(0, 2, 5), (1, 0, 7), (0, 1, 6)] = .ok byRow ∧
      ColMatrix.ofTriplets 3 2 [(2, 0, 5), (0, 1, 7), (1, 0, 6)] = .ok mirror ∧
      Coordinate.ofTriplets 2 3 [(0, 2, 5), (1, 0, 7), (0, 1, 6)] = .ok byEntry ∧
      Coordinate.ofTriplets 3 2 [(2, 0, 5), (0, 1, 7), (1, 0, 6)] = .ok entryMirror ∧
      ((transposed .exclusive (whole (.row byRow))).performAll erasingThenEditing).1 =
        [.ok (.inr .done), .error (.fault (.position 9 9 2 3)), .ok (.inr .done),
          .error .unsupported, .ok (.inl (.entry (some 4)))] ∧
      ((transposed .exclusive (whole (.row byRow))).performAll erasingThenEditing).2.ShowsMirror
        ((Matrix.col mirror).performAll erasingThenEditing).2 ∧
      ((transposed .exclusive (whole (.coordinate byEntry))).performAll
          erasingThenEditing).2.ShowsMirror
        ((Matrix.coordinate entryMirror).performAll erasingThenEditing).2 := by
  obtain ⟨byRow, _, _, mirror, byEntry, entryMirror, hrow, hmirror, _, _, hentry, hentryMirror,
    hruns⟩ := transposed_runs_as_mirror 2 3 [(0, 2, 5), (1, 0, 7), (0, 1, 6)] (by decide)
  have hshared : ∀ op ∈ erasingThenEditing, op.Shared := by
    simp [erasingThenEditing, Operation.Shared]
  obtain ⟨hanswers, hshows⟩ := hruns (.row byRow, .col mirror) (by simp) erasingThenEditing hshared
  have hentryRun := hruns (.coordinate byEntry, .coordinate entryMirror) (by simp)
    erasingThenEditing hshared
  refine ⟨byRow, mirror, byEntry, entryMirror, hrow, hmirror, hentry, hentryMirror, ?_, hshows,
    hentryRun.2⟩
  rw [hanswers]
  cases hmirror
  rfl

end View

end TransposedViews
