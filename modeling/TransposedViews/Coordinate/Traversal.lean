import TransposedViews.Coordinate
import TransposedViews.IndexedEntry
import TransposedViews.Traversal.Buckets
import TransposedViews.LineScript

/-!
The traversals of a matrix in coordinate form. A line is read by scanning the
storage for its entries, so nothing is known about their number beforehand;
lines to be written are grouped in one pass when the traversal starts. Both
keep storage order, and neither sorts.
-/

namespace TransposedViews

namespace Coordinate

/-- A scan of the storage, given as `(major, minor, payload)`, for the entries
of one line. -/
structure Scan (β : Type u) where
  line : Nat
  rest : List (Nat × Nat × β)
  deriving DecidableEq, Repr

/-- Moves on to the next entry of the line. -/
def Scan.advance (line : Nat) : List (Nat × Nat × β) → Option (Nat × β) × Scan β
  | [] => (none, ⟨line, []⟩)
  | (major, minor, x) :: rest =>
      if major = line then (some (minor, x), ⟨line, rest⟩) else Scan.advance line rest

theorem Scan.length_advance_lt (line : Nat) (stored : List (Nat × Nat × β)) (a : Nat × β)
    (h : (Scan.advance line stored).1 = some a) :
    (Scan.advance line stored).2.rest.length < stored.length := by
  fun_induction Scan.advance line stored with
  | case1 => simp at h
  | case2 => simp
  | case3 _ _ _ _ _ ih => exact Nat.lt_succ_of_lt (ih h)

instance : Cursor (Scan β) (Nat × β) where
  next s := Scan.advance s.line s.rest
  hint _ := .unknown
  ahead s := s.rest.length
  ahead_next s a h := Scan.length_advance_lt s.line s.rest a h

/-- The lines not yet begun. Every one scans the whole storage. -/
structure Lines (β : Type u) where
  begun : Nat
  count : Nat
  stored : List (Nat × Nat × β)
  deriving DecidableEq, Repr

instance : Cursor (Lines β) (Scan β) where
  next s :=
    if s.count ≤ s.begun then (none, s)
    else (some ⟨s.begun, s.stored⟩, {s with begun := s.begun + 1})
  hint s := .exactly (s.count - s.begun)
  ahead s := s.count - s.begun
  ahead_next s a h := by
    by_cases hs : s.count ≤ s.begun
    · simp [hs] at h
    · simp only [hs, if_false]
      omega

/-- The storage in order, from its three sequences. -/
structure Indexed (β : Type u) where
  rows : List Nat
  cols : List Nat
  payloads : List β
  deriving DecidableEq, Repr

instance : Cursor (Indexed β) (IndexedEntry β) where
  next
    | ⟨row :: rows, col :: cols, x :: payloads⟩ => (some ⟨row, col, x⟩, ⟨rows, cols, payloads⟩)
    | s => (none, s)
  hint s := .exactly s.payloads.length
  ahead s := s.payloads.length
  ahead_next s a h := by
    split at h
    · simp
    · simp at h

variable {α : Type}

/-- The cells of the value sequence in order. -/
def cells (m : Coordinate α) : List Nat := List.range m.values.size

/-- The storage as `(row, col, payload)`. -/
def byRow (m : Coordinate α) (payloads : List β) : List (Nat × Nat × β) :=
  m.rowIndices.toList.zip (m.colIndices.toList.zip payloads)

/-- The storage as `(col, row, payload)`. -/
def byCol (m : Coordinate α) (payloads : List β) : List (Nat × Nat × β) :=
  m.colIndices.toList.zip (m.rowIndices.toList.zip payloads)

def rows (m : Coordinate α) : Lines α := ⟨0, m.nrows, m.byRow m.values.toList⟩

def cols (m : Coordinate α) : Lines α := ⟨0, m.ncols, m.byCol m.values.toList⟩

def raw (m : Coordinate α) : Items α := ⟨m.values.toList⟩

def rawIndexed (m : Coordinate α) : Indexed α :=
  ⟨m.rowIndices.toList, m.colIndices.toList, m.values.toList⟩

/-- Groups the storage, given as `(major, minor, cell)`, into lines. -/
def groupLines (count : Nat) (stored : List (Nat × Nat × Nat)) :
    Except Fault (Items (List (Nat × Nat))) :=
  (distribute count stored).map fun lines => ⟨lines.toList⟩

/-- The rows to be written. -/
def rowCells (m : Coordinate α) : Except Fault (Items (List (Nat × Nat))) :=
  groupLines m.nrows (m.byRow m.cells)

/-- The columns to be written. -/
def colCells (m : Coordinate α) : Except Fault (Items (List (Nat × Nat))) :=
  groupLines m.ncols (m.byCol m.cells)

/-- Runs a script on the traversal of all values. -/
def runRaw (m : Coordinate α) (script : List (Request α)) :
    List (Reply Unit α) × Coordinate α :=
  let (replies, _, values) :=
    Script.run script (⟨⟨m.cells⟩, fun cell => ((), cell)⟩ : Mapped (Items Nat) Nat (Unit × Nat))
      m.values
  (replies, {m with values})

/-- Runs a script on the traversal of all values with their positions. -/
def runIndexed (m : Coordinate α) (script : List (Request α)) :
    List (Reply (Nat × Nat) α) × Coordinate α :=
  let (replies, _, values) :=
    Script.run script
      (⟨⟨m.rowIndices.toList, m.colIndices.toList, m.cells⟩,
          fun e => ((e.row, e.col), e.value)⟩ :
        Mapped (Indexed Nat) (IndexedEntry Nat) ((Nat × Nat) × Nat))
      m.values
  (replies, {m with values})

/-- Runs one script per line on lines that were grouped before. -/
def runGrouped (m : Coordinate α) (grouped : Except Fault (Items (List (Nat × Nat))))
    (scripts : List (LineScript α)) :
    Except Fault (List (List (LineReply α)) × SizeHint) × Coordinate α :=
  match grouped with
  | .error fault => (.error fault, m)
  | .ok lines =>
      let (result, values) :=
        LineScript.runLines
          (fun (line : List (Nat × Nat)) script (values : Array α) =>
            let (replies, values) :=
              LineScript.runWalk .stored script (⟨line⟩ : Items (Nat × Nat)) values
            (.ok replies, values))
          scripts lines m.values
      (result, {m with values})

/-- Runs one script per row. -/
def runRows (m : Coordinate α) (scripts : List (LineScript α)) :
    Except Fault (List (List (LineReply α)) × SizeHint) × Coordinate α :=
  m.runGrouped m.rowCells scripts

/-- Runs one script per column. -/
def runCols (m : Coordinate α) (scripts : List (LineScript α)) :
    Except Fault (List (List (LineReply α)) × SizeHint) × Coordinate α :=
  m.runGrouped m.colCells scripts

end Coordinate

end TransposedViews
