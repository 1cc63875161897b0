import TransposedViews.SparseVector
import TransposedViews.SparseLines.Entries
import TransposedViews.LineScript

/-!
The storage behind line-oriented sparse matrices: one sparse vector per line.
A matrix stored by rows and one stored by columns differ only in which index
selects the line, so everything here is said of a major index, which selects
the line, and a minor index inside it.
-/

namespace TransposedViews

structure SparseLines (α : Type u) where
  minorDim : Nat
  lines : Array (SparseVector α)
  deriving DecidableEq, BEq, Repr

instance : Cells (Array (SparseVector α)) (Nat × Nat) α where
  read lines cell := (lines[cell.1]?).bind fun line => line.values[cell.2]?
  write lines cell x :=
    lines.modify cell.1 fun line => {line with values := line.values.set cell.2 x}

namespace SparseLines

variable {α : Type}

def empty (majorDim minorDim : Nat) : SparseLines α := ⟨minorDim, .replicate majorDim .empty⟩

def majorDim (s : SparseLines α) : Nat := s.lines.size

/-- The number of stored entries. -/
def nnz (s : SparseLines α) : Nat := s.lines.foldl (fun n line => n + line.nnz) 0

def line (s : SparseLines α) (major : Nat) : Except Fault (SparseVector α) :=
  readElement s.lines major

def get? (s : SparseLines α) (major minor : Nat) : Except Fault (Option α) :=
  (s.line major).bind (·.get? minor)

/-- Stores a value and returns the one that was at its position. -/
def insert (s : SparseLines α) (major minor : Nat) (x : α) :
    Except Fault (Option α) × SparseLines α :=
  let (previous, lines) := editElement s.lines major fun v => v.insert minor x
  (previous, {s with lines})

/-- Removes the value at a position, if one is stored, and returns it. -/
def remove (s : SparseLines α) (major minor : Nat) : Except Fault (Option α) × SparseLines α :=
  let (removed, lines) := editElement s.lines major fun v => v.remove minor
  (removed, {s with lines})

/-- The first line whose largest index reaches the minor dimension, with that
index. -/
def outOfRange? (s : SparseLines α) : Option (Nat × Nat) :=
  (s.lines.toList.zipIdx).findSome? fun (line, major) =>
    (line.lastIndex?.filter (s.minorDim ≤ ·)).map fun minor => (major, minor)

/-- The stored entries line by line, as `(major, minor, value)`. -/
def entries (s : SparseLines α) : Entries α :=
  .ofLines (s.lines.toList.map SparseVector.toList)

/-- The stored positions line by line, each with the cell its value is kept
in. -/
def cellEntries (s : SparseLines α) : Entries (Nat × Nat) :=
  .ofLines (s.lines.toList.zipIdx.map fun (line, major) =>
    line.cells.map fun (minor, position) => (minor, (major, position)))

/-- Runs a script on the traversal of all entries, each labelled from its
major and minor index. -/
def runScript (label : Nat → Nat → ι) (s : SparseLines α) (script : List (Request α)) :
    List (Reply ι α) × SparseLines α :=
  let (replies, _, lines) :=
    Script.run script
      (⟨s.cellEntries, fun (major, minor, cell) => (label major minor, cell)⟩ :
        Mapped (Entries (Nat × Nat)) (Nat × Nat × (Nat × Nat)) (ι × (Nat × Nat)))
      s.lines
  (replies, {s with lines})

/-- Runs one script per line on the lines in order. Each line accepts indices
below the minor dimension. -/
def runLines (s : SparseLines α) (scripts : List (LineScript α)) :
    Except Fault (List (List (LineReply α)) × SizeHint) × SparseLines α :=
  let (result, lines) :=
    LineScript.runLines
      (fun major script (lines : Array (SparseVector α)) =>
        editElement lines major (LineScript.runSparse s.minorDim script))
      scripts (⟨List.range s.lines.size⟩ : Items Nat) s.lines
  (result, {s with lines})

end SparseLines

end TransposedViews
