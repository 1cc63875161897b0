import TransposedViews.Dense
import TransposedViews.IndexedEntry
import TransposedViews.Traversal.Buckets
import TransposedViews.LineScript

/-!
The traversals of a dense matrix. What they deliver is left open: values for
reading, or the cells that hold them for writing. Rows are cut off the buffer
one after the other and columns are read through a stride; columns to be
written interleave, so their cells are gathered before the traversal starts.
-/

namespace TransposedViews

namespace Dense

/-- The rows still to be cut off the rest of the buffer. The count is kept
apart, since rows of length zero use nothing up. -/
structure Rows (β : Type u) where
  rest : List β
  ncols : Nat
  remaining : Nat
  deriving DecidableEq, Repr

instance : Cursor (Rows β) (List β) where
  next
    | s@⟨_, _, 0⟩ => (none, s)
    | ⟨rest, ncols, remaining + 1⟩ =>
        (some (rest.take ncols), ⟨rest.drop ncols, ncols, remaining⟩)
  hint s := .exactly s.remaining
  ahead s := s.remaining
  ahead_next
    | ⟨_, _, 0⟩, _, h => by simp at h
    | ⟨_, _, _ + 1⟩, _, _ => by simp

/-- Every `stride`-th element, from the first on. -/
structure Strided (β : Type u) where
  rest : List β
  stride : Nat
  deriving DecidableEq, Repr

instance : Cursor (Strided β) β where
  next
    | s@⟨[], _⟩ => (none, s)
    | ⟨x :: rest, stride⟩ => (some x, ⟨rest.drop (stride - 1), stride⟩)
  hint s := .exactly ((s.rest.length + (s.stride - 1)) / s.stride)
  ahead s := s.rest.length
  ahead_next
    | ⟨[], _⟩, _, h => by simp at h
    | ⟨_ :: _, _⟩, _, _ => by
        simp only [List.length_drop, List.length_cons]
        omega

/-- The columns not yet begun, each a stride through the buffer from its own
start. A matrix without rows still has its columns, which are then empty. -/
structure Cols (β : Type u) where
  data : List β
  ncols : Nat
  begun : Nat
  deriving DecidableEq, Repr

instance : Cursor (Cols β) (Strided β) where
  next s :=
    if s.ncols ≤ s.begun then (none, s)
    else (some ⟨s.data.drop s.begun, s.ncols⟩, {s with begun := s.begun + 1})
  hint s := .exactly (s.ncols - s.begun)
  ahead s := s.ncols - s.begun
  ahead_next s a h := by
    by_cases hs : s.ncols ≤ s.begun
    · simp [hs] at h
    · simp only [hs, if_false]
      omega

/-- The buffer in order, each element with the position it is kept for. -/
structure Positioned (β : Type u) where
  rest : List β
  offset : Nat
  ncols : Nat
  deriving DecidableEq, Repr

instance : Cursor (Positioned β) (IndexedEntry β) where
  next
    | s@⟨[], _, _⟩ => (none, s)
    | ⟨x :: rest, offset, ncols⟩ =>
        (some ⟨offset / ncols, offset % ncols, x⟩, ⟨rest, offset + 1, ncols⟩)
  hint s := .exactly s.rest.length
  ahead s := s.rest.length
  ahead_next
    | ⟨[], _, _⟩, _, h => by simp at h
    | ⟨_ :: _, _, _⟩, _, _ => by simp

variable {α : Type}

def rows (m : Dense α) : Rows α := ⟨m.data.toList, m.ncols, m.nrows⟩

def cols (m : Dense α) : Cols α := ⟨m.data.toList, m.ncols, 0⟩

def raw (m : Dense α) : Items α := ⟨m.data.toList⟩

def rawIndexed (m : Dense α) : Positioned α := ⟨m.data.toList, 0, m.ncols⟩

/-- The cells of the buffer in order. -/
def cells (m : Dense α) : List Nat := List.range m.data.size

/-- The rows to be written. -/
def rowCells (m : Dense α) : Rows Nat := ⟨m.cells, m.ncols, m.nrows⟩

/-- The columns to be written, gathered in one pass over the buffer. -/
def colCells (m : Dense α) : Except Fault (Items (List Nat)) :=
  (distribute m.ncols (m.cells.map fun k => (k % m.ncols, k))).map fun columns =>
    ⟨columns.toList⟩

/-- Runs a script on the traversal of all values. -/
def runRaw (m : Dense α) (script : List (Request α)) : List (Reply Unit α) × Dense α :=
  let (replies, _, data) :=
    Script.run script (⟨⟨m.cells⟩, fun cell => ((), cell)⟩ : Mapped (Items Nat) Nat (Unit × Nat))
      m.data
  (replies, {m with data})

/-- Runs a script on the traversal of all values with their positions. -/
def runIndexed (m : Dense α) (script : List (Request α)) :
    List (Reply (Nat × Nat) α) × Dense α :=
  let (replies, _, data) :=
    Script.run script
      (⟨⟨m.cells, 0, m.ncols⟩, fun e => ((e.row, e.col), e.value)⟩ :
        Mapped (Positioned Nat) (IndexedEntry Nat) ((Nat × Nat) × Nat))
      m.data
  (replies, {m with data})

/-- Runs one script per row. -/
def runRows (m : Dense α) (scripts : List (LineScript α)) :
    Except Fault (List (List (LineReply α)) × SizeHint) × Dense α :=
  let (result, data) := LineScript.runLines LineScript.runContiguous scripts m.rowCells m.data
  (result, {m with data})

/-- Runs one script per column. -/
def runCols (m : Dense α) (scripts : List (LineScript α)) :
    Except Fault (List (List (LineReply α)) × SizeHint) × Dense α :=
  match m.colCells with
  | .error fault => (.error fault, m)
  | .ok columns =>
      let (result, data) :=
        LineScript.runLines
          (fun (column : List Nat) script (values : Array α) =>
            let (replies, values) :=
              LineScript.runWalk (fun (_ : Unit) x => .value x) script
                (⟨⟨column⟩, fun cell => ((), cell)⟩ : Mapped (Items Nat) Nat (Unit × Nat)) values
            (.ok replies, values))
          scripts columns m.data
      (result, {m with data})

end Dense

end TransposedViews
