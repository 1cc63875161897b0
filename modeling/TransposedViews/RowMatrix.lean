import TransposedViews.IndexedEntry
import TransposedViews.SparseLines
import TransposedViews.Triplets

namespace TransposedViews

/-- One sparse vector per row. What is not stored is absent. -/
structure RowMatrix (α : Type) where
  storage : SparseLines α
  deriving DecidableEq, BEq, Repr

namespace RowMatrix

variable {α : Type}

def empty (nrows ncols : Nat) : RowMatrix α := ⟨.empty nrows ncols⟩

def nrows (m : RowMatrix α) : Nat := m.storage.majorDim

def ncols (m : RowMatrix α) : Nat := m.storage.minorDim

def nnz (m : RowMatrix α) : Nat := m.storage.nnz

/-- Stores an entry at a position, over the one that was there. -/
def insert (m : RowMatrix α) (i j : Nat) (x : α) : Except Fault Unit × RowMatrix α :=
  let (previous, storage) := m.storage.insert i j x
  (previous.map fun _ => (), ⟨storage⟩)

/-- Removes the entry at a position, if one is stored. -/
def remove (m : RowMatrix α) (i j : Nat) : Except Fault Unit × RowMatrix α :=
  let (removed, storage) := m.storage.remove i j
  (removed.map fun _ => (), ⟨storage⟩)

/-- Accepts triplets inside the dimensions; later ones overwrite earlier ones
at the same position. -/
def ofTriplets (nrows ncols : Nat) (triplets : List (Triplet α)) :
    Except BuildFailure (RowMatrix α) :=
  storeTriplets nrows ncols insert triplets (empty nrows ncols)

/-- Accepts lines that store nothing outside the matrix they form. -/
def ofLines (storage : SparseLines α) : Except MatrixError (RowMatrix α) :=
  match storage.outOfRange? with
  | none => .ok ⟨storage⟩
  | some (i, j) =>
      (validateIndex i j storage.majorDim storage.minorDim).map fun _ => ⟨storage⟩

/-- The stored entries of row `i`. -/
def row (m : RowMatrix α) (i : Nat) : Except Fault (SparseVector α) := m.storage.line i

def entry (m : RowMatrix α) (i j : Nat) : Except Fault (Option α) := do
  assertInBounds i j m.nrows m.ncols
  m.storage.get? i j

def set (m : RowMatrix α) (i j : Nat) (x : α) : Except Fault Unit × RowMatrix α :=
  guarded i j m.nrows m.ncols (fun m => m.insert i j x) m

def erase (m : RowMatrix α) (i j : Nat) : Except Fault Unit × RowMatrix α :=
  guarded i j m.nrows m.ncols (fun m => m.remove i j) m

/-- The traversal of the rows, top to bottom. -/
def rows (m : RowMatrix α) : Items (SparseVector α) := ⟨m.storage.lines.toList⟩

/-- The position of an entry of the storage. -/
def position : Nat × Nat × ν → IndexedEntry ν
  | (major, minor, x) => ⟨major, minor, x⟩

/-- Runs a script on the traversal of all values. -/
def runRaw (m : RowMatrix α) (script : List (Request α)) : List (Reply Unit α) × RowMatrix α :=
  let (replies, storage) := m.storage.runScript (fun _ _ => ()) script
  (replies, ⟨storage⟩)

/-- Runs a script on the traversal of all values with their positions. -/
def runIndexed (m : RowMatrix α) (script : List (Request α)) :
    List (Reply (Nat × Nat) α) × RowMatrix α :=
  let (replies, storage) := m.storage.runScript (fun major minor => (major, minor)) script
  (replies, ⟨storage⟩)

end RowMatrix

end TransposedViews
