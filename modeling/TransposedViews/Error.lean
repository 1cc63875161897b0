namespace TransposedViews

/-- Why the data handed to a constructor does not describe a matrix. -/
inductive MatrixError where
  | dimensionMismatch (expected actual : Nat)
  | indexOutOfBounds (row col nrows ncols : Nat)
  | sizeOverflow (nrows ncols : Nat)
  | unsortedIndices (index : Nat)
  deriving DecidableEq, Repr

/-- Short, stable name of the cause. -/
def MatrixError.kind : MatrixError → String
  | .dimensionMismatch .. => "dimension mismatch"
  | .indexOutOfBounds .. => "index out of bounds"
  | .sizeOverflow .. => "size overflow"
  | .unsortedIndices .. => "unsorted indices"

def MatrixError.message : MatrixError → String
  | .dimensionMismatch expected actual =>
      s!"Dimension mismatch: expected {expected} elements, got {actual}"
  | .indexOutOfBounds row col nrows ncols =>
      s!"Index ({row}, {col}) out of bounds for {nrows}x{ncols} matrix"
  | .sizeOverflow nrows ncols => s!"Matrix size {nrows}x{ncols} overflows usize"
  | .unsortedIndices index => s!"Sparse index {index} is out of order or repeated"

/-- A refused access. `position` names the frame of the matrix that stores
the entries, whichever view the request came through; `lineInsert` guards a
bounded sparse line. The others are accesses to a plain sequence at an index
that it does not have. -/
inductive Fault where
  | position (row col nrows ncols : Nat)
  | lineInsert (index length : Nat)
  | element (index length : Nat)
  | insertion (index length : Nat)
  | removal (index length : Nat)
  | swapRemoval (index length : Nat)
  deriving DecidableEq, Repr

def Fault.message : Fault → String
  | .position row col nrows ncols =>
      (MatrixError.indexOutOfBounds row col nrows ncols).message
  | .lineInsert index length =>
      s!"Index {index} out of bounds for sparse line of length {length}"
  | .element index length =>
      s!"index out of bounds: the len is {length} but the index is {index}"
  | .insertion index length => s!"insertion index (is {index}) should be <= len (is {length})"
  | .removal index length => s!"removal index (is {index}) should be < len (is {length})"
  | .swapRemoval index length => s!"swap_remove index (is {index}) should be < len (is {length})"

/-- Why nothing was built: the data were rejected, or an access on the way was
refused. -/
inductive BuildFailure where
  | rejected (error : MatrixError)
  | fault (fault : Fault)
  deriving DecidableEq, Repr

end TransposedViews
