import TransposedViews.Validation

namespace TransposedViews

abbrev Triplet (α : Type u) := Nat × Nat × α

/-- Stores triplets from left to right into a matrix of the given
dimensions. -/
def storeTriplets (nrows ncols : Nat) (insert : M → Nat → Nat → α → Except Fault Unit × M) :
    List (Triplet α) → M → Except BuildFailure M
  | [], matrix => .ok matrix
  | (i, j, x) :: triplets, matrix =>
      match validateIndex i j nrows ncols with
      | .error e => .error (.rejected e)
      | .ok _ =>
          match insert matrix i j x with
          | (.error fault, _) => .error (.fault fault)
          | (.ok _, matrix) => storeTriplets nrows ncols insert triplets matrix

end TransposedViews
