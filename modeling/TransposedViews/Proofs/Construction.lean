import Mathlib.Data.List.Pairwise
import TransposedViews.Proofs.Matrix

namespace TransposedViews

section Triplets

variable {M α : Type} {nrows ncols : Nat} {insert : M → Nat → Nat → α → Except Fault Unit × M}

theorem validateIndex_of_inside {i j : Nat} (hi : i < nrows) (hj : j < ncols) :
    validateIndex i j nrows ncols = .ok () := by
  have hinside : ¬ (nrows ≤ i ∨ ncols ≤ j) := by omega
  rw [validateIndex, if_neg hinside]

theorem validateIndex_of_outside {i j : Nat} (h : nrows ≤ i ∨ ncols ≤ j) :
    validateIndex i j nrows ncols = .error (.indexOutOfBounds i j nrows ncols) := if_pos h

theorem inside_of_validateIndex {i j : Nat} {passed : Unit}
    (h : validateIndex i j nrows ncols = .ok passed) : i < nrows ∧ j < ncols := by
  unfold validateIndex at h
  split at h
  · cases h
  · omega

/-- An insertion that meets no fault inside the dimensions: as long as a matrix
is intact the insertion stores, and leaves the matrix intact. -/
structure StoresInside (nrows ncols : Nat) (insert : M → Nat → Nat → α → Except Fault Unit × M)
    (store : M → Nat → Nat → α → M) (Intact : M → Prop) : Prop where
  insert_eq : ∀ {m i j}, Intact m → i < nrows → j < ncols → ∀ x,
    insert m i j x = (.ok (), store m i j x)
  intact : ∀ {m i j}, Intact m → i < nrows → j < ncols → ∀ x, Intact (store m i j x)

/-- Triplets inside the dimensions are all stored, from left to right. -/
theorem StoresInside.storeTriplets_eq {store : M → Nat → Nat → α → M} {Intact : M → Prop}
    (h : StoresInside nrows ncols insert store Intact) {triplets : List (Triplet α)} {matrix : M}
    (hstart : Intact matrix) (hinside : ∀ t ∈ triplets, t.1 < nrows ∧ t.2.1 < ncols) :
    storeTriplets nrows ncols insert triplets matrix =
        .ok (triplets.foldl (fun m t => store m t.1 t.2.1 t.2.2) matrix) ∧
      Intact (triplets.foldl (fun m t => store m t.1 t.2.1 t.2.2) matrix) := by
  induction triplets generalizing matrix with
  | nil => exact ⟨rfl, hstart⟩
  | cons t rest ih =>
      obtain ⟨i, j, x⟩ := t
      obtain ⟨hi, hj⟩ := hinside (i, j, x) (by simp)
      have hrest := ih (h.intact hstart hi hj x) fun t ht => hinside t (by simp [ht])
      simpa only [storeTriplets, validateIndex_of_inside hi hj, h.insert_eq hstart hi hj,
        List.foldl_cons] using hrest

/-- Triplets are accepted only if all of them are inside. -/
theorem inside_of_storeTriplets {triplets : List (Triplet α)} {matrix result : M}
    (h : storeTriplets nrows ncols insert triplets matrix = .ok result) :
    ∀ t ∈ triplets, t.1 < nrows ∧ t.2.1 < ncols := by
  induction triplets generalizing matrix with
  | nil => simp
  | cons t rest ih =>
      obtain ⟨i, j, x⟩ := t
      simp only [storeTriplets] at h
      split at h
      · cases h
      · next hcheck =>
          split at h
          · cases h
          · exact List.forall_mem_cons.mpr ⟨inside_of_validateIndex hcheck, ih h⟩

/-- What is accepted has stored all triplets and is intact. -/
theorem StoresInside.of_storeTriplets {store : M → Nat → Nat → α → M} {Intact : M → Prop}
    (h : StoresInside nrows ncols insert store Intact) {triplets : List (Triplet α)}
    {matrix result : M} (hstart : Intact matrix)
    (hresult : storeTriplets nrows ncols insert triplets matrix = .ok result) :
    result = triplets.foldl (fun m t => store m t.1 t.2.1 t.2.2) matrix ∧ Intact result := by
  obtain ⟨heq, hintact⟩ := h.storeTriplets_eq hstart (inside_of_storeTriplets hresult)
  obtain rfl := Except.ok.inj (hresult.symm.trans heq)
  exact ⟨rfl, hintact⟩

end Triplets

namespace SparseVector

variable {α : Type}

theorem ascending_of_validateSortedIndices (indices : List Nat) {passed : Unit}
    (h : validateSortedIndices indices = .ok passed) : indices.Pairwise (· < ·) := by
  rw [← List.isChain_iff_pairwise]
  induction indices with
  | nil => exact List.IsChain.nil
  | cons first rest ih =>
      cases rest with
      | nil => exact List.IsChain.singleton first
      | cons second rest =>
          simp only [validateSortedIndices] at h
          split at h
          · cases h
          · exact List.IsChain.cons_cons (by omega) (ih h)

theorem ofParts_wellFormed {parts : Parts α} {v : SparseVector α} (h : ofParts parts = .ok v) :
    v.WellFormed := by
  unfold ofParts at h
  split at h
  · next hlength =>
      cases hsorted : validateSortedIndices parts.indices with
      | error e =>
          rw [hsorted] at h
          cases h
      | ok passed =>
          rw [hsorted] at h
          cases h
          exact ⟨hlength, ascending_of_validateSortedIndices _ hsorted⟩
  · cases h

/-- A well-formed vector fits where its largest index does. -/
theorem WellFormed.fits_of_last {v : SparseVector α} (h : v.WellFormed) {len : Nat}
    (hlast : ∀ k, v.lastIndex? = some k → k < len) : v.FitsIn len := by
  refine ⟨h, ?_⟩
  intro k hk
  have hne : v.indices ≠ [] := List.ne_nil_of_mem hk
  have hlt := hlast (v.indices.getLast hne) (List.getLast?_eq_getLast_of_ne_nil hne)
  have hle : k ≤ v.indices.getLast hne :=
    (h.ascending.imp Nat.le_of_lt).rel_getLast hk
  omega

end SparseVector

namespace SparseLines

variable {α : Type} {s : SparseLines α}

/-- Lines that were accepted one by one form a well-formed storage if no line
reaches the minor dimension. -/
theorem wellFormed_of_outOfRange?
    (hlines : ∀ line ∈ s.lines, ∃ parts, SparseVector.ofParts parts = .ok line)
    (hnone : s.outOfRange? = none) : s.WellFormed := by
  intro line hline
  obtain ⟨parts, hparts⟩ := hlines line hline
  apply (SparseVector.ofParts_wellFormed hparts).fits_of_last
  intro k hk
  obtain ⟨major, hmajor, rfl⟩ := Array.mem_iff_getElem.mp hline
  have hmem : (s.lines[major], major) ∈ s.lines.toList.zipIdx :=
    List.mem_zipIdx_iff_getElem?.mpr (by simp)
  have hchecked := List.findSome?_eq_none_iff.mp hnone _ hmem
  simpa [hk] using hchecked

/-- An index that is out of range is a defect of the matrix. -/
theorem le_of_outOfRange? {major minor : Nat} (h : s.outOfRange? = some (major, minor)) :
    s.minorDim ≤ minor := by
  obtain ⟨⟨line, number⟩, -, hfound⟩ := List.exists_of_findSome?_eq_some h
  obtain ⟨k, hk, heq⟩ := Option.map_eq_some_iff.mp hfound
  cases heq
  have hreach := Option.filter_eq_some_iff.mp hk
  simpa using hreach.2

end SparseLines

section Lines

variable {α : Type} {storage : SparseLines α}

theorem RowMatrix.ofLines_of_inside (h : storage.outOfRange? = none) :
    RowMatrix.ofLines storage = .ok ⟨storage⟩ := by
  rw [RowMatrix.ofLines, h]

/-- The position of an index out of range is outside the matrix, so it is the
one that is reported. -/
theorem RowMatrix.ofLines_of_outside {i j : Nat} (h : storage.outOfRange? = some (i, j)) :
    RowMatrix.ofLines storage =
      .error (.indexOutOfBounds i j storage.majorDim storage.minorDim) := by
  have hout : storage.majorDim ≤ i ∨ storage.minorDim ≤ j :=
    Or.inr (SparseLines.le_of_outOfRange? h)
  simp only [RowMatrix.ofLines, h, validateIndex_of_outside hout]
  rfl

theorem RowMatrix.ofLines_eq_ok_iff {m : RowMatrix α} :
    RowMatrix.ofLines storage = .ok m ↔ storage.outOfRange? = none ∧ m = ⟨storage⟩ := by
  cases hrange : storage.outOfRange? with
  | none =>
      rw [RowMatrix.ofLines_of_inside hrange, Except.ok.injEq, eq_comm]
      exact (and_iff_right rfl).symm
  | some position =>
      rw [RowMatrix.ofLines_of_outside hrange]
      exact ⟨nofun, fun h => nomatch h.1⟩

theorem ColMatrix.ofLines_of_inside (h : storage.outOfRange? = none) :
    ColMatrix.ofLines storage = .ok ⟨storage⟩ := by
  rw [ColMatrix.ofLines, h]

theorem ColMatrix.ofLines_of_outside {i j : Nat} (h : storage.outOfRange? = some (j, i)) :
    ColMatrix.ofLines storage =
      .error (.indexOutOfBounds i j storage.minorDim storage.majorDim) := by
  have hout : storage.minorDim ≤ i ∨ storage.majorDim ≤ j :=
    Or.inl (SparseLines.le_of_outOfRange? h)
  simp only [ColMatrix.ofLines, h, validateIndex_of_outside hout]
  rfl

theorem ColMatrix.ofLines_eq_ok_iff {m : ColMatrix α} :
    ColMatrix.ofLines storage = .ok m ↔ storage.outOfRange? = none ∧ m = ⟨storage⟩ := by
  cases hrange : storage.outOfRange? with
  | none =>
      rw [ColMatrix.ofLines_of_inside hrange, Except.ok.injEq, eq_comm]
      exact (and_iff_right rfl).symm
  | some position =>
      rw [ColMatrix.ofLines_of_outside hrange]
      exact ⟨nofun, fun h => nomatch h.1⟩

end Lines

namespace Matrix

variable {α : Type}

/-- The matrices that constructors give. Documents are read through the same
checks: their lines are accepted one by one, their other parts as a whole. A
buffer of more elements than a size can count is never allocated. -/
inductive Built : Matrix α → Prop where
  | rowMajor {nrows ncols : Nat} {data : Array α} {m : Dense α}
      (h : Dense.ofArray nrows ncols data = .ok m) : Built (.dense m)
  | generated {nrows ncols : Nat} (hfits : nrows * ncols < wordLimit) {σ : Type}
      (f : Nat → Nat → StateM σ α) (s : σ) : Built (.dense ((Dense.generate nrows ncols f).run s).1)
  | emptyRows (nrows ncols : Nat) : Built (.row (.empty nrows ncols))
  | rowTriplets {nrows ncols : Nat} {triplets : List (Triplet α)} {m : RowMatrix α}
      (h : RowMatrix.ofTriplets nrows ncols triplets = .ok m) : Built (.row m)
  | rowLines {storage : SparseLines α} {m : RowMatrix α}
      (hlines : ∀ line ∈ storage.lines, ∃ parts, SparseVector.ofParts parts = .ok line)
      (h : RowMatrix.ofLines storage = .ok m) : Built (.row m)
  | emptyCols (nrows ncols : Nat) : Built (.col (.empty nrows ncols))
  | colTriplets {nrows ncols : Nat} {triplets : List (Triplet α)} {m : ColMatrix α}
      (h : ColMatrix.ofTriplets nrows ncols triplets = .ok m) : Built (.col m)
  | colLines {storage : SparseLines α} {m : ColMatrix α}
      (hlines : ∀ line ∈ storage.lines, ∃ parts, SparseVector.ofParts parts = .ok line)
      (h : ColMatrix.ofLines storage = .ok m) : Built (.col m)
  | emptyCoordinate (nrows ncols : Nat) : Built (.coordinate (.empty nrows ncols))
  | triplets {nrows ncols : Nat} {triplets : List (Triplet α)} {m : Coordinate α}
      (h : Coordinate.ofTriplets nrows ncols triplets = .ok m) : Built (.coordinate m)
  | parts {parts : Coordinate.Parts α} {m : Coordinate α}
      (h : Coordinate.ofParts parts = .ok m) : Built (.coordinate m)

section Constructors

variable {nrows ncols : Nat} {triplets : List (Triplet α)}

/-- A well-formed matrix of the given dimensions. -/
structure Intact (nrows ncols : Nat) (m : Matrix α) : Prop where
  wellFormed : m.WellFormed
  nrows_eq : m.nrows = nrows
  ncols_eq : m.ncols = ncols

theorem Intact.row_lt {m : Matrix α} (h : m.Intact nrows ncols) {i : Nat} (hi : i < nrows) :
    i < m.nrows := h.nrows_eq.symm ▸ hi

theorem Intact.col_lt {m : Matrix α} (h : m.Intact nrows ncols) {j : Nat} (hj : j < ncols) :
    j < m.ncols := h.ncols_eq.symm ▸ hj

theorem row_storesInside (nrows ncols : Nat) :
    StoresInside nrows ncols RowMatrix.insert RowMatrix.store
      (fun m : RowMatrix α => (row m).Intact nrows ncols) where
  insert_eq h hi _ x := RowMatrix.insert_eq h.wellFormed (h.row_lt hi) x
  intact h _ hj x :=
    ⟨SparseLines.store_wellFormed h.wellFormed (h.col_lt hj) x,
      (SparseLines.store_majorDim ..).trans h.nrows_eq, h.ncols_eq⟩

theorem row_empty_intact (nrows ncols : Nat) :
    (row (.empty nrows ncols) : Matrix α).Intact nrows ncols :=
  ⟨SparseLines.empty_wellFormed nrows ncols, SparseLines.empty_majorDim nrows ncols, rfl⟩

theorem col_storesInside (nrows ncols : Nat) :
    StoresInside nrows ncols ColMatrix.insert ColMatrix.store
      (fun m : ColMatrix α => (col m).Intact nrows ncols) where
  insert_eq h _ hj x := ColMatrix.insert_eq h.wellFormed (h.col_lt hj) x
  intact h hi _ x :=
    ⟨SparseLines.store_wellFormed h.wellFormed (h.row_lt hi) x, h.nrows_eq,
      (SparseLines.store_majorDim ..).trans h.ncols_eq⟩

theorem col_empty_intact (nrows ncols : Nat) :
    (col (.empty nrows ncols) : Matrix α).Intact nrows ncols :=
  ⟨SparseLines.empty_wellFormed ncols nrows, rfl, SparseLines.empty_majorDim ncols nrows⟩

theorem coordinate_storesInside (nrows ncols : Nat) :
    StoresInside nrows ncols Coordinate.insert Coordinate.store
      (fun m : Coordinate α => (coordinate m).Intact nrows ncols) where
  insert_eq h _ _ x := Coordinate.insert_eq h.wellFormed x
  intact {m i j} h hi hj x :=
    ⟨Coordinate.store_wellFormed x h.wellFormed (h.row_lt hi) (h.col_lt hj),
      (Coordinate.store_nrows m i j x).trans h.nrows_eq,
      (Coordinate.store_ncols m i j x).trans h.ncols_eq⟩

theorem coordinate_empty_intact (nrows ncols : Nat) :
    (coordinate (.empty nrows ncols) : Matrix α).Intact nrows ncols :=
  ⟨Coordinate.empty_wellFormed nrows ncols, rfl, rfl⟩

section Accepted

variable (h : ∀ t ∈ triplets, t.1 < nrows ∧ t.2.1 < ncols)

include h

theorem row_accepts_inside : RowMatrix.ofTriplets nrows ncols triplets =
    .ok (triplets.foldl (fun m t => m.store t.1 t.2.1 t.2.2) (.empty nrows ncols)) :=
  ((row_storesInside nrows ncols).storeTriplets_eq (row_empty_intact nrows ncols) h).1

theorem col_accepts_inside : ColMatrix.ofTriplets nrows ncols triplets =
    .ok (triplets.foldl (fun m t => m.store t.1 t.2.1 t.2.2) (.empty nrows ncols)) :=
  ((col_storesInside nrows ncols).storeTriplets_eq (col_empty_intact nrows ncols) h).1

theorem coordinate_accepts_inside : Coordinate.ofTriplets nrows ncols triplets =
    .ok (triplets.foldl (fun m t => m.store t.1 t.2.1 t.2.2) (.empty nrows ncols)) :=
  ((coordinate_storesInside nrows ncols).storeTriplets_eq
    (coordinate_empty_intact nrows ncols) h).1

end Accepted

theorem rowTriplets_wellFormed {m : RowMatrix α}
    (h : RowMatrix.ofTriplets nrows ncols triplets = .ok m) : m.storage.WellFormed :=
  ((row_storesInside nrows ncols).of_storeTriplets (row_empty_intact nrows ncols) h).2.wellFormed

theorem colTriplets_wellFormed {m : ColMatrix α}
    (h : ColMatrix.ofTriplets nrows ncols triplets = .ok m) : m.storage.WellFormed :=
  ((col_storesInside nrows ncols).of_storeTriplets (col_empty_intact nrows ncols) h).2.wellFormed

theorem triplets_wellFormed {m : Coordinate α}
    (h : Coordinate.ofTriplets nrows ncols triplets = .ok m) : m.WellFormed :=
  ((coordinate_storesInside nrows ncols).of_storeTriplets
    (coordinate_empty_intact nrows ncols) h).2.wellFormed

theorem rowLines_wellFormed {storage : SparseLines α} {m : RowMatrix α}
    (hlines : ∀ line ∈ storage.lines, ∃ parts, SparseVector.ofParts parts = .ok line)
    (h : RowMatrix.ofLines storage = .ok m) : m.storage.WellFormed := by
  obtain ⟨hrange, rfl⟩ := RowMatrix.ofLines_eq_ok_iff.mp h
  exact SparseLines.wellFormed_of_outOfRange? hlines hrange

theorem colLines_wellFormed {storage : SparseLines α} {m : ColMatrix α}
    (hlines : ∀ line ∈ storage.lines, ∃ parts, SparseVector.ofParts parts = .ok line)
    (h : ColMatrix.ofLines storage = .ok m) : m.storage.WellFormed := by
  obtain ⟨hrange, rfl⟩ := ColMatrix.ofLines_eq_ok_iff.mp h
  exact SparseLines.wellFormed_of_outOfRange? hlines hrange

end Constructors

theorem Built.wellFormed {m : Matrix α} (h : m.Built) : m.WellFormed := by
  cases h with
  | rowMajor h => exact Dense.ofArray_wellFormed h
  | generated hfits f s => exact Dense.generate_wellFormed hfits f s
  | emptyRows nrows ncols => exact SparseLines.empty_wellFormed nrows ncols
  | rowTriplets h => exact rowTriplets_wellFormed h
  | rowLines hlines h => exact rowLines_wellFormed hlines h
  | emptyCols nrows ncols => exact SparseLines.empty_wellFormed ncols nrows
  | colTriplets h => exact colTriplets_wellFormed h
  | colLines hlines h => exact colLines_wellFormed hlines h
  | emptyCoordinate nrows ncols => exact Coordinate.empty_wellFormed nrows ncols
  | triplets h => exact triplets_wellFormed h
  | parts h => exact triplets_wellFormed h

end Matrix

end TransposedViews
