import TransposedViews.Attempt
import TransposedViews.Element
import TransposedViews.Validation

namespace TransposedViews

/-- A value for every position, row after row in one buffer. -/
structure Dense (α : Type) where
  nrows : Nat
  ncols : Nat
  data : Array α
  deriving DecidableEq, BEq, Repr

/-- Dimensions and row-major data, before they are checked. -/
structure Dense.Parts (α : Type) where
  nrows : Nat
  ncols : Nat
  data : Array α
  deriving DecidableEq, Repr

namespace Dense

variable {α : Type}

/-- Accepts row-major data that fills the matrix. -/
def ofArray (nrows ncols : Nat) (data : Array α) : Except MatrixError (Dense α) :=
  (validateDenseLen nrows ncols data.size).map fun _ => {nrows, ncols, data}

def ofParts (parts : Parts α) : Except MatrixError (Dense α) :=
  ofArray parts.nrows parts.ncols parts.data

/-- The matrix whose entry at `(i, j)` is what `f i j` returns. The calls are
made row by row and share a state. Rows without a single position are not
gone through. -/
def generate (nrows ncols : Nat) (f : Nat → Nat → StateM σ α) : StateM σ (Dense α) := do
  if ncols = 0 then
    return {nrows, ncols, data := #[]}
  else
    let rows ← (List.range nrows).mapM fun i => (List.range ncols).mapM fun j => f i j
    return {nrows, ncols, data := rows.flatten.toArray}

/-- The matrix that holds zero everywhere. -/
def zeros [Element α] (nrows ncols : Nat) : Dense α :=
  ((generate nrows ncols fun _ _ => pure Element.zero : StateM Unit (Dense α)).run ()).1

/-- Where the entry at `(i, j)` is kept, in machine arithmetic. For a position
of a matrix that was accepted nothing is cut off. -/
def offset (m : Dense α) (i j : Nat) : Nat := (i * m.ncols + j) % wordLimit

/-- The cell of a position, refused outside the matrix. -/
def cell (m : Dense α) (i j : Nat) : Except Fault Nat :=
  (assertInBounds i j m.nrows m.ncols).map fun _ => m.offset i j

def entry (m : Dense α) (i j : Nat) : Except Fault (Option α) := do
  let cell ← m.cell i j
  let x ← readElement m.data cell
  return some x

def set (m : Dense α) (i j : Nat) (x : α) : Except Fault Unit × Dense α :=
  attempt m do
    let cell ← m.cell i j
    let (_, data) ← replaceElement m.data cell x
    modify ({· with data})

/-- Dense storage has no way to forget a position, so the value is kept. -/
def erase (m : Dense α) (i j : Nat) : Except Fault Unit × Dense α :=
  guarded i j m.nrows m.ncols (fun m => (.ok (), m)) m

/-- The buffer as bytes. -/
def bytes [Element α] (m : Dense α) : List UInt8 := m.data.toList.flatMap Element.bytes

end Dense

end TransposedViews
