import TransposedViews.Error

/-!
Checks shared by every way of storing a matrix. Sizes and indices are machine
words: they are natural numbers here, and `wordLimit` is the first one that
no longer fits, two to the power of 64.
-/

namespace TransposedViews

/-- The number of values a size or an index can take. -/
def wordLimit : Nat := 18446744073709551616

/-- Checks that `(i, j)` is a position of an `nrows` by `ncols` matrix. -/
def validateIndex (i j nrows ncols : Nat) : Except MatrixError Unit :=
  if nrows ≤ i ∨ ncols ≤ j then .error (.indexOutOfBounds i j nrows ncols) else .ok ()

/-- The number of positions of an `nrows` by `ncols` matrix, if it is a size. -/
def checkedLen (nrows ncols : Nat) : Except MatrixError Nat :=
  if nrows * ncols < wordLimit then .ok (nrows * ncols) else .error (.sizeOverflow nrows ncols)

/-- Checks that `len` elements fill a dense `nrows` by `ncols` matrix. A
product that is no size is reported whatever `len` is. -/
def validateDenseLen (nrows ncols len : Nat) : Except MatrixError Unit :=
  match checkedLen nrows ncols with
  | .error e => .error e
  | .ok expected =>
      if expected = len then .ok () else .error (.dimensionMismatch expected len)

/-- Checks that the indices ascend strictly; the error names the first one
that does not exceed its predecessor. -/
def validateSortedIndices : List Nat → Except MatrixError Unit
  | first :: second :: rest =>
      if second ≤ first then .error (.unsortedIndices second)
      else validateSortedIndices (second :: rest)
  | _ => .ok ()

/-- Entry access outside a matrix is refused before anything is touched. -/
def assertInBounds (i j nrows ncols : Nat) : Except Fault Unit :=
  match validateIndex i j nrows ncols with
  | .error _ => .error (.position i j nrows ncols)
  | .ok _ => .ok ()

theorem assertInBounds_of_inside {i j nrows ncols : Nat} (hi : i < nrows) (hj : j < ncols) :
    assertInBounds i j nrows ncols = .ok () := by
  have hinside : ¬ (nrows ≤ i ∨ ncols ≤ j) := by omega
  simp [assertInBounds, validateIndex, hinside]

theorem assertInBounds_of_outside {i j nrows ncols : Nat} (h : ¬ (i < nrows ∧ j < ncols)) :
    assertInBounds i j nrows ncols = .error (.position i j nrows ncols) := by
  have houtside : nrows ≤ i ∨ ncols ≤ j := by omega
  simp [assertInBounds, validateIndex, houtside]

/-- An access behind the check is made inside the matrix. -/
theorem asserted_of_inside {i j nrows ncols : Nat} (hi : i < nrows) (hj : j < ncols)
    (access : Unit → Except Fault β) :
    (assertInBounds i j nrows ncols >>= access) = access () := by
  rw [assertInBounds_of_inside hi hj]
  rfl

theorem asserted_of_outside {i j nrows ncols : Nat} (h : ¬ (i < nrows ∧ j < ncols))
    (access : Unit → Except Fault β) :
    (assertInBounds i j nrows ncols >>= access) = .error (.position i j nrows ncols) := by
  rw [assertInBounds_of_outside h]
  rfl

/-- Works on a matrix at a position, after the check. -/
def guarded (i j nrows ncols : Nat) (work : M → Except Fault Unit × M) (matrix : M) :
    Except Fault Unit × M :=
  match assertInBounds i j nrows ncols with
  | .error fault => (.error fault, matrix)
  | .ok _ => work matrix

theorem guarded_of_inside {i j nrows ncols : Nat} (hi : i < nrows) (hj : j < ncols)
    (work : M → Except Fault Unit × M) (matrix : M) :
    guarded i j nrows ncols work matrix = work matrix := by
  rw [guarded, assertInBounds_of_inside hi hj]

theorem guarded_of_outside {i j nrows ncols : Nat} (h : ¬ (i < nrows ∧ j < ncols))
    (work : M → Except Fault Unit × M) (matrix : M) :
    guarded i j nrows ncols work matrix = (.error (.position i j nrows ncols), matrix) := by
  rw [guarded, assertInBounds_of_outside h]

end TransposedViews
