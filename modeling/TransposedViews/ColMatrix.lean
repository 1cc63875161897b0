import TransposedViews.IndexedEntry
import TransposedViews.SparseLines
import TransposedViews.Triplets

/-!
Sparse matrices stored as one sparse vector per column. They are traversed by
columns only. The storage is addressed by `(col, row)`, while everything that
a caller sees is addressed by `(row, col)`.
-/

namespace TransposedViews

structure ColMatrix (α : Type) where
  storage : SparseLines α
  deriving DecidableEq, BEq, Repr

namespace ColMatrix

variable {α : Type}

def empty (nrows ncols : Nat) : ColMatrix α := ⟨.empty ncols nrows⟩

def nrows (m : ColMatrix α) : Nat := m.storage.minorDim

def ncols (m : ColMatrix α) : Nat := m.storage.majorDim

def nnz (m : ColMatrix α) : Nat := m.storage.nnz

/-- Stores an entry at a position, over the one that was there. -/
def insert (m : ColMatrix α) (i j : Nat) (x : α) : Except Fault Unit × ColMatrix α :=
  let (previous, storage) := m.storage.insert j i x
  (previous.map fun _ => (), ⟨storage⟩)

/-- Removes the entry at a position, if one is stored. -/
def remove (m : ColMatrix α) (i j : Nat) : Except Fault Unit × ColMatrix α :=
  let (removed, storage) := m.storage.remove j i
  (removed.map fun _ => (), ⟨storage⟩)

/-- Accepts triplets inside the dimensions; later ones overwrite earlier ones
at the same position. -/
def ofTriplets (nrows ncols : Nat) (triplets : List (Triplet α)) :
    Except BuildFailure (ColMatrix α) :=
  storeTriplets nrows ncols insert triplets (empty nrows ncols)

/-- Accepts lines that store nothing outside the matrix they form. -/
def ofLines (storage : SparseLines α) : Except MatrixError (ColMatrix α) :=
  match storage.outOfRange? with
  | none => .ok ⟨storage⟩
  | some (j, i) =>
      (validateIndex i j storage.minorDim storage.majorDim).map fun _ => ⟨storage⟩

/-- The stored entries of column `j`. -/
def col (m : ColMatrix α) (j : Nat) : Except Fault (SparseVector α) := m.storage.line j

def entry (m : ColMatrix α) (i j : Nat) : Except Fault (Option α) := do
  assertInBounds i j m.nrows m.ncols
  m.storage.get? j i

def set (m : ColMatrix α) (i j : Nat) (x : α) : Except Fault Unit × ColMatrix α :=
  guarded i j m.nrows m.ncols (fun m => m.insert i j x) m

def erase (m : ColMatrix α) (i j : Nat) : Except Fault Unit × ColMatrix α :=
  guarded i j m.nrows m.ncols (fun m => m.remove i j) m

/-- The traversal of the columns, left to right. -/
def cols (m : ColMatrix α) : Items (SparseVector α) := ⟨m.storage.lines.toList⟩

/-- The position of an entry of the storage. -/
def position : Nat × Nat × ν → IndexedEntry ν
  | (major, minor, x) => ⟨minor, major, x⟩

/-- Runs a script on the traversal of all values. -/
def runRaw (m : ColMatrix α) (script : List (Request α)) : List (Reply Unit α) × ColMatrix α :=
  let (replies, storage) := m.storage.runScript (fun _ _ => ()) script
  (replies, ⟨storage⟩)

/-- Runs a script on the traversal of all values with their positions. -/
def runIndexed (m : ColMatrix α) (script : List (Request α)) :
    List (Reply (Nat × Nat) α) × ColMatrix α :=
  let (replies, storage) := m.storage.runScript (fun major minor => (minor, major)) script
  (replies, ⟨storage⟩)

end ColMatrix

end TransposedViews
