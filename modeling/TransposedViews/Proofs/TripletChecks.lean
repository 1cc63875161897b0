import TransposedViews.Proofs.Access
import TransposedViews.Proofs.EntryMap
import TransposedViews.Proofs.Occurrence

namespace TransposedViews

variable {α : Type} {nrows ncols : Nat} {triplets : List (Triplet α)} {e : MatrixError}

/-- The error for the first triplet of a list that is outside the dimensions. -/
def FirstOutside (nrows ncols : Nat) (triplets : List (Triplet α)) (e : MatrixError) : Prop :=
  ∃ earlier i j x later, triplets = earlier ++ (i, j, x) :: later ∧
    (∀ t ∈ earlier, t.1 < nrows ∧ t.2.1 < ncols) ∧ (nrows ≤ i ∨ ncols ≤ j) ∧
    e = .indexOutOfBounds i j nrows ncols

section Checks

variable {M : Type} {insert : M → Nat → Nat → α → Except Fault Unit × M}
  {store : M → Nat → Nat → α → M} {Intact : M → Prop} {matrix : M}

/-- The checks alone, made in order until one fails. -/
def checkTriplets (nrows ncols : Nat) (triplets : List (Triplet α)) :
    Except MatrixError (List Unit) :=
  triplets.mapM fun t => validateIndex t.1 t.2.1 nrows ncols

/-- Storing between the checks does not change their outcome: a triplet that
passed its check is stored without a fault. -/
theorem StoresInside.storeTriplets_eq_checks (h : StoresInside nrows ncols insert store Intact)
    (hstart : Intact matrix) : storeTriplets nrows ncols insert triplets matrix =
      ((checkTriplets nrows ncols triplets).map fun _ =>
        triplets.foldl (fun m t => store m t.1 t.2.1 t.2.2) matrix).mapError .rejected := by
  induction triplets generalizing matrix with
  | nil => rfl
  | cons t triplets ih =>
      obtain ⟨i, j, x⟩ := t
      rw [storeTriplets, checkTriplets, List.mapM_cons]
      cases hcheck : validateIndex i j nrows ncols with
      | error e => rfl
      | ok passed =>
          obtain ⟨hi, hj⟩ := inside_of_validateIndex hcheck
          simp only [h.insert_eq hstart hi hj x]
          rw [ih (h.intact hstart hi hj x), checkTriplets]
          cases triplets.mapM fun t => validateIndex t.1 t.2.1 nrows ncols <;> rfl

theorem validateIndex_eq_ok_iff {i j : Nat} :
    (∃ passed, validateIndex i j nrows ncols = .ok passed) ↔ i < nrows ∧ j < ncols :=
  ⟨fun ⟨_, h⟩ => inside_of_validateIndex h, fun h => ⟨(), validateIndex_of_inside h.1 h.2⟩⟩

theorem validateIndex_eq_error_iff {i j : Nat} :
    validateIndex i j nrows ncols = .error e ↔
      (nrows ≤ i ∨ ncols ≤ j) ∧ e = .indexOutOfBounds i j nrows ncols := by
  by_cases houtside : nrows ≤ i ∨ ncols ≤ j
  · rw [validateIndex_of_outside houtside, Except.error.injEq, eq_comm]
    exact (and_iff_right houtside).symm
  · rw [validateIndex_of_inside (by omega) (by omega)]
    exact ⟨nofun, fun h => absurd h.1 houtside⟩

theorem checkTriplets_eq_error_iff :
    checkTriplets nrows ncols triplets = .error e ↔ FirstOutside nrows ncols triplets e := by
  rw [checkTriplets, mapM_eq_error_iff]
  simp only [validateIndex_eq_ok_iff, validateIndex_eq_error_iff]
  constructor
  · rintro ⟨earlier, ⟨i, j, x⟩, later, hsplit, hearlier, houtside, herror⟩
    exact ⟨earlier, i, j, x, later, hsplit, hearlier, houtside, herror⟩
  · rintro ⟨earlier, i, j, x, later, hsplit, hearlier, houtside, herror⟩
    exact ⟨earlier, (i, j, x), later, hsplit, hearlier, houtside, herror⟩

/-- Whatever triplets are stored into, they are refused for the first one that
is outside and for nothing else. -/
theorem StoresInside.refused_iff (h : StoresInside nrows ncols insert store Intact)
    (hstart : Intact matrix) {failure : BuildFailure} :
    storeTriplets nrows ncols insert triplets matrix = .error failure ↔
      ∃ e, failure = .rejected e ∧ FirstOutside nrows ncols triplets e := by
  rw [h.storeTriplets_eq_checks hstart]
  simp only [← checkTriplets_eq_error_iff]
  cases checkTriplets nrows ncols triplets with
  | ok passed => exact ⟨nofun, nofun⟩
  | error cause =>
      constructor
      · intro hfailed
        cases hfailed
        exact ⟨cause, rfl, rfl⟩
      · rintro ⟨e, rfl, hcause⟩
        cases hcause
        rfl

/-- There is a first one outside if there is one at all. -/
theorem exists_firstOutside_iff :
    (∃ e, FirstOutside nrows ncols triplets e) ↔ ∃ t ∈ triplets, nrows ≤ t.1 ∨ ncols ≤ t.2.1 := by
  constructor
  · rintro ⟨e, earlier, i, j, x, later, rfl, -, houtside, -⟩
    exact ⟨(i, j, x), List.mem_append_right earlier List.mem_cons_self, houtside⟩
  · rintro ⟨t, hmem, houtside⟩
    cases hchecked : checkTriplets nrows ncols triplets with
    | error e => exact ⟨e, checkTriplets_eq_error_iff.mp hchecked⟩
    | ok passed =>
        have hinside := validateIndex_eq_ok_iff.mp (forall_ok_of_mapM_ok hchecked t hmem)
        omega

end Checks

section Storages

/-- The entries of a matrix are the last triplets at their positions. -/
def EntriesLast (triplets : List (Triplet α)) (m : Matrix α) : Prop :=
  ∀ i j x, m.entry i j = .ok (some x) ↔ LastAt triplets i j x

/-- Matrices of one map have the same entries. -/
theorem entriesLast_of_represents {m : Coordinate α} {m' : Matrix α} {f : EntryMap α}
    (hcollapses : Collapses triplets m.toList) (h : (Matrix.coordinate m).Represents f)
    (h' : m'.Represents f) : EntriesLast triplets m' := by
  intro i j x
  rw [Matrix.entry_eq_some_iff h'.wellFormed, ← hcollapses.mem_iff,
    Coordinate.mem_toList h.wellFormed, h'.lookup_eq, ← h.lookup_eq]
  rfl

/-- How lists of triplets are judged: every storage refuses the same ones with
the same error and meets no fault, and the matrices that are built have the
given dimensions and, at each position that a triplet names, the value of the
last one. The sequences of the coordinate form are those of the collapsed
triplets, where each position stands in the place of its first triplet. -/
structure JudgedAlike (nrows ncols : Nat) (triplets : List (Triplet α)) : Prop where
  row_refused_iff : ∀ failure, RowMatrix.ofTriplets nrows ncols triplets = .error failure ↔
    ∃ e, failure = .rejected e ∧ FirstOutside nrows ncols triplets e
  col_refused_iff : ∀ failure, ColMatrix.ofTriplets nrows ncols triplets = .error failure ↔
    ∃ e, failure = .rejected e ∧ FirstOutside nrows ncols triplets e
  coordinate_refused_iff : ∀ failure,
    Coordinate.ofTriplets nrows ncols triplets = .error failure ↔
      ∃ e, failure = .rejected e ∧ FirstOutside nrows ncols triplets e
  parts_refused_iff : ∀ failure,
    Coordinate.ofParts ⟨nrows, ncols, triplets⟩ = .error failure ↔
      ∃ e, failure = .rejected e ∧ FirstOutside nrows ncols triplets e
  refused_iff : (∃ e, FirstOutside nrows ncols triplets e) ↔
    ∃ t ∈ triplets, nrows ≤ t.1 ∨ ncols ≤ t.2.1
  accepted : (∀ t ∈ triplets, t.1 < nrows ∧ t.2.1 < ncols) →
    ∃ (row : RowMatrix α) (col : ColMatrix α) (coordinate : Coordinate α),
      RowMatrix.ofTriplets nrows ncols triplets = .ok row ∧
      ColMatrix.ofTriplets nrows ncols triplets = .ok col ∧
      Coordinate.ofTriplets nrows ncols triplets = .ok coordinate ∧
      Coordinate.ofParts ⟨nrows, ncols, triplets⟩ = .ok coordinate ∧
      (row.nrows = nrows ∧ row.ncols = ncols) ∧ (col.nrows = nrows ∧ col.ncols = ncols) ∧
      (coordinate.nrows = nrows ∧ coordinate.ncols = ncols) ∧
      (∀ m ∈ [.row row, .col col, .coordinate coordinate], EntriesLast triplets m) ∧
      ∃ collapsed, Collapses triplets collapsed ∧
        coordinate.rowIndices.toList = collapsed.map (·.1) ∧
        coordinate.colIndices.toList = collapsed.map (·.2.1) ∧
        coordinate.values.toList = collapsed.map (·.2.2)

/-- The storages differ in what they store and not in what they check, so all of
them come to the same verdict on every list of triplets. -/
theorem triplets_judged_alike (nrows ncols : Nat) (triplets : List (Triplet α)) :
    JudgedAlike nrows ncols triplets where
  row_refused_iff _ :=
    (Matrix.row_storesInside nrows ncols).refused_iff (Matrix.row_empty_intact nrows ncols)
  col_refused_iff _ :=
    (Matrix.col_storesInside nrows ncols).refused_iff (Matrix.col_empty_intact nrows ncols)
  coordinate_refused_iff _ :=
    (Matrix.coordinate_storesInside nrows ncols).refused_iff
      (Matrix.coordinate_empty_intact nrows ncols)
  parts_refused_iff _ :=
    (Matrix.coordinate_storesInside nrows ncols).refused_iff
      (Matrix.coordinate_empty_intact nrows ncols)
  refused_iff := exists_firstOutside_iff
  accepted h := by
    obtain ⟨row, hrow, hrowNrows, hrowNcols, hrowMap⟩ := Matrix.row_represents_triplets h
    obtain ⟨col, hcol, hcolNrows, hcolNcols, hcolMap⟩ := Matrix.col_represents_triplets h
    obtain ⟨m, hm, hnrows, hncols, hmap⟩ := Matrix.coordinate_represents_triplets h
    obtain ⟨hwf, -, -, hcollapses⟩ := Coordinate.ofTriplets_collapses hm
    obtain ⟨hrowIndices, hcolIndices, hvalues⟩ := Coordinate.toList_columns hwf
    rw [List.map_map] at hcolIndices hvalues
    refine ⟨row, col, m, hrow, hcol, hm, hm, ⟨hrowNrows, hrowNcols⟩, ⟨hcolNrows, hcolNcols⟩,
      ⟨hnrows, hncols⟩, ?_, m.toList, hcollapses, hrowIndices, hcolIndices, hvalues⟩
    intro stored hstored
    simp only [List.mem_cons, List.not_mem_nil, or_false] at hstored
    rcases hstored with rfl | rfl | rfl
    · exact entriesLast_of_represents hcollapses hmap hrowMap
    · exact entriesLast_of_represents hcollapses hmap hcolMap
    · exact entriesLast_of_represents hcollapses hmap hmap

/-- Of two triplets outside, the second one is reported if it comes first. -/
example : RowMatrix.ofTriplets 2 3 [(0, 1, 5), (0, 1, 6), (1, 3, 7), (2, 0, 8)] =
    .error (.rejected (.indexOutOfBounds 1 3 2 3)) := by
  decide

end Storages

end TransposedViews
