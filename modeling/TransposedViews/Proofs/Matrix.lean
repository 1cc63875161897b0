import TransposedViews.Matrix.Traversal
import TransposedViews.Proofs.Coordinate
import TransposedViews.Proofs.Dense
import TransposedViews.Proofs.SparseLines

namespace TransposedViews

namespace RowMatrix

variable {α : Type} {m : RowMatrix α} {i j : Nat}

theorem entry_eq (h : m.storage.WellFormed) (hi : i < m.nrows) (hj : j < m.ncols) :
    m.entry i j = .ok (m.storage.lookup i j) :=
  (asserted_of_inside hi hj _).trans (SparseLines.get?_eq j h hi)

/-- The matrix with an entry at a position. -/
def store (m : RowMatrix α) (i j : Nat) (x : α) : RowMatrix α := ⟨m.storage.store i j x⟩

theorem insert_eq (h : m.storage.WellFormed) (hi : i < m.nrows) (x : α) :
    m.insert i j x = (.ok (), m.store i j x) := by
  rw [insert, SparseLines.insert_eq j x h hi]
  rfl

theorem set_eq (h : m.storage.WellFormed) (hi : i < m.nrows) (hj : j < m.ncols) (x : α) :
    m.set i j x = (.ok (), m.store i j x) := by
  rw [set, guarded_of_inside hi hj, insert_eq h hi]

theorem erase_eq (h : m.storage.WellFormed) (hi : i < m.nrows) (hj : j < m.ncols) :
    m.erase i j = (.ok (), ⟨m.storage.discard i j⟩) := by
  rw [erase, guarded_of_inside hi hj, remove, SparseLines.remove_eq j h hi]
  rfl

theorem position_injective : Function.Injective (position : Nat × Nat × α → IndexedEntry α) := by
  rintro ⟨i, j, x⟩ ⟨a, b, y⟩ heq
  cases heq
  rfl

end RowMatrix

namespace ColMatrix

variable {α : Type} {m : ColMatrix α} {i j : Nat}

theorem entry_eq (h : m.storage.WellFormed) (hi : i < m.nrows) (hj : j < m.ncols) :
    m.entry i j = .ok (m.storage.lookup j i) :=
  (asserted_of_inside hi hj _).trans (SparseLines.get?_eq i h hj)

/-- The matrix with an entry at a position. -/
def store (m : ColMatrix α) (i j : Nat) (x : α) : ColMatrix α := ⟨m.storage.store j i x⟩

theorem insert_eq (h : m.storage.WellFormed) (hj : j < m.ncols) (x : α) :
    m.insert i j x = (.ok (), m.store i j x) := by
  rw [insert, SparseLines.insert_eq i x h hj]
  rfl

theorem set_eq (h : m.storage.WellFormed) (hi : i < m.nrows) (hj : j < m.ncols) (x : α) :
    m.set i j x = (.ok (), m.store i j x) := by
  rw [set, guarded_of_inside hi hj, insert_eq h hj]

theorem erase_eq (h : m.storage.WellFormed) (hi : i < m.nrows) (hj : j < m.ncols) :
    m.erase i j = (.ok (), ⟨m.storage.discard j i⟩) := by
  rw [erase, guarded_of_inside hi hj, remove, SparseLines.remove_eq i h hj]
  rfl

theorem position_injective : Function.Injective (position : Nat × Nat × α → IndexedEntry α) := by
  rintro ⟨i, j, x⟩ ⟨a, b, y⟩ heq
  cases heq
  rfl

end ColMatrix

namespace Matrix

variable {α : Type}

def WellFormed : Matrix α → Prop
  | .dense m => m.WellFormed
  | .row m => m.storage.WellFormed
  | .col m => m.storage.WellFormed
  | .coordinate m => m.WellFormed

/-- The value stored at a position, if there is one. -/
def lookup (m : Matrix α) (i j : Nat) : Option α :=
  match m with
  | .dense m => m.lookup i j
  | .row m => m.storage.lookup i j
  | .col m => m.storage.lookup j i
  | .coordinate m => m.lookup i j

/-- The number of stored entries. A dense matrix stores every position. -/
def nnz : Matrix α → Nat
  | .dense m => m.data.size
  | .row m => m.nnz
  | .col m => m.nnz
  | .coordinate m => m.nnz

/-- A well-formed matrix stored the same way with the same dimensions, which
is what modifying a matrix leaves. -/
structure Follows (m m' : Matrix α) : Prop where
  kind_eq : m'.kind = m.kind
  nrows_eq : m'.nrows = m.nrows
  ncols_eq : m'.ncols = m.ncols
  wellFormed : m'.WellFormed

theorem Follows.refl {m : Matrix α} (h : m.WellFormed) : m.Follows m := ⟨rfl, rfl, rfl, h⟩

theorem Follows.trans {m m' m'' : Matrix α} (h : m.Follows m') (h' : m'.Follows m'') :
    m.Follows m'' :=
  ⟨h'.kind_eq.trans h.kind_eq, h'.nrows_eq.trans h.nrows_eq, h'.ncols_eq.trans h.ncols_eq,
    h'.wellFormed⟩

section Inside

variable {m : Matrix α} {i j : Nat}

theorem entry_inside (h : m.WellFormed) (hi : i < m.nrows) (hj : j < m.ncols) :
    m.entry i j = .ok (m.lookup i j) := by
  cases m with
  | dense m => exact Dense.entry_eq h hi hj
  | row m => exact RowMatrix.entry_eq h hi hj
  | col m => exact ColMatrix.entry_eq h hi hj
  | coordinate m => exact Coordinate.entry_eq h hi hj

/-- Setting inside the matrix succeeds and changes the map at one position. -/
theorem set_inside (h : m.WellFormed) (hi : i < m.nrows) (hj : j < m.ncols) (x : α) :
    ∃ m', m.set i j x = (.ok (), m') ∧ m.Follows m' ∧
      ∀ a b, m'.lookup a b = if a = i ∧ b = j then some x else m.lookup a b := by
  cases m with
  | dense m =>
      refine ⟨_, congrArg (Prod.map id dense) (Dense.set_eq h hi hj x), ⟨rfl, rfl, rfl, ?_⟩, ?_⟩
      · exact ⟨by simpa using h.size_eq, h.fits⟩
      · exact Dense.lookup_set h hi hj x
  | row m =>
      refine ⟨.row (m.store i j x), ?_, ⟨rfl, ?_, rfl, ?_⟩, ?_⟩
      · exact congrArg (Prod.map id row) (RowMatrix.set_eq h hi hj x)
      · exact SparseLines.store_majorDim m.storage i j x
      · exact SparseLines.store_wellFormed h hj x
      · intro a b
        exact SparseLines.lookup_store a b h hi x
  | col m =>
      refine ⟨.col (m.store i j x), ?_, ⟨rfl, rfl, ?_, ?_⟩, ?_⟩
      · exact congrArg (Prod.map id col) (ColMatrix.set_eq h hi hj x)
      · exact SparseLines.store_majorDim m.storage j i x
      · exact SparseLines.store_wellFormed h hi x
      · intro a b
        simp only [lookup, ColMatrix.store, SparseLines.lookup_store b a h hj x, and_comm]
  | coordinate m =>
      refine ⟨.coordinate (m.store i j x), ?_, ⟨rfl, ?_, ?_, ?_⟩, ?_⟩
      · exact congrArg (Prod.map id coordinate) (Coordinate.set_eq h hi hj x)
      · exact Coordinate.store_nrows m i j x
      · exact Coordinate.store_ncols m i j x
      · exact Coordinate.store_wellFormed x h hi hj
      · exact Coordinate.lookup_store h x

/-- Erasing inside a matrix that can forget succeeds and takes one position
out of the map. -/
theorem erase_inside (h : m.WellFormed) (hi : i < m.nrows) (hj : j < m.ncols) :
    ∃ m', m.erase i j = (.ok (), m') ∧ m.Follows m' ∧
      (m.kind ≠ .dense →
        ∀ a b, m'.lookup a b = if a = i ∧ b = j then none else m.lookup a b) := by
  cases m with
  | dense m =>
      refine ⟨.dense m, congrArg (Prod.map id dense) (Dense.erase_eq hi hj), .refl h, ?_⟩
      intro hkind
      exact absurd rfl hkind
  | row m =>
      refine ⟨.row ⟨m.storage.discard i j⟩, ?_, ⟨rfl, ?_, rfl, ?_⟩, ?_⟩
      · exact congrArg (Prod.map id row) (RowMatrix.erase_eq h hi hj)
      · exact SparseLines.discard_majorDim m.storage i j
      · exact SparseLines.discard_wellFormed h
      · intro _ a b
        exact SparseLines.lookup_discard a b h
  | col m =>
      refine ⟨.col ⟨m.storage.discard j i⟩, ?_, ⟨rfl, rfl, ?_, ?_⟩, ?_⟩
      · exact congrArg (Prod.map id col) (ColMatrix.erase_eq h hi hj)
      · exact SparseLines.discard_majorDim m.storage j i
      · exact SparseLines.discard_wellFormed h
      · intro _ a b
        simp only [lookup, SparseLines.lookup_discard b a h, and_comm]
  | coordinate m =>
      refine ⟨.coordinate (m.discard i j), ?_, ⟨rfl, ?_, ?_, ?_⟩, ?_⟩
      · exact congrArg (Prod.map id coordinate) (Coordinate.erase_eq h hi hj)
      · exact Coordinate.discard_nrows m i j
      · exact Coordinate.discard_ncols m i j
      · exact Coordinate.discard_wellFormed h
      · intro _
        exact Coordinate.lookup_discard h

end Inside

section Outside

variable (m : Matrix α) {i j : Nat}

/-- Outside the matrix every access by position is refused, and the refusal
names the position and the dimensions. -/
theorem entry_outside (h : ¬ (i < m.nrows ∧ j < m.ncols)) :
    m.entry i j = .error (.position i j m.nrows m.ncols) := by
  cases m with
  | dense m => exact Dense.entry_outside h
  | row m => exact asserted_of_outside h _
  | col m => exact asserted_of_outside h _
  | coordinate m => exact asserted_of_outside h _

theorem set_outside (h : ¬ (i < m.nrows ∧ j < m.ncols)) (x : α) :
    m.set i j x = (.error (.position i j m.nrows m.ncols), m) := by
  cases m with
  | dense m => exact congrArg (Prod.map id dense) (Dense.set_outside h x)
  | row m => exact congrArg (Prod.map id row) (guarded_of_outside h (·.insert i j x) m)
  | col m => exact congrArg (Prod.map id col) (guarded_of_outside h (·.insert i j x) m)
  | coordinate m => exact congrArg (Prod.map id coordinate) (guarded_of_outside h _ m)

theorem erase_outside (h : ¬ (i < m.nrows ∧ j < m.ncols)) :
    m.erase i j = (.error (.position i j m.nrows m.ncols), m) := by
  cases m with
  | dense m => exact congrArg (Prod.map id dense) (guarded_of_outside h _ m)
  | row m => exact congrArg (Prod.map id row) (guarded_of_outside h (·.remove i j) m)
  | col m => exact congrArg (Prod.map id col) (guarded_of_outside h (·.remove i j) m)
  | coordinate m => exact congrArg (Prod.map id coordinate) (guarded_of_outside h _ m)

end Outside

section Modification

variable {m m' : Matrix α} {i j : Nat}

theorem set_follows (h : m.WellFormed) (x : α) : m.Follows (m.set i j x).2 := by
  by_cases hinside : i < m.nrows ∧ j < m.ncols
  · obtain ⟨after, hafter, hfollows, -⟩ := set_inside h hinside.1 hinside.2 x
    rwa [hafter]
  · rw [set_outside m hinside]
    exact .refl h

theorem erase_follows (h : m.WellFormed) : m.Follows (m.erase i j).2 := by
  by_cases hinside : i < m.nrows ∧ j < m.ncols
  · obtain ⟨after, hafter, hfollows, -⟩ := erase_inside h hinside.1 hinside.2
    rwa [hafter]
  · rw [erase_outside m hinside]
    exact .refl h

theorem follows_of_dense_overwritten {d d' : Dense α} (h : d.WellFormed)
    (hover : d.Overwritten d') : (dense d).Follows (dense d') := by
  have hwf := hover.wellFormed h
  obtain ⟨data, -, rfl⟩ := hover
  exact ⟨rfl, rfl, rfl, hwf⟩

theorem follows_of_coordinate_overwritten {c c' : Coordinate α} (h : c.WellFormed)
    (hover : c.Overwritten c') : (coordinate c).Follows (coordinate c') := by
  have hwf := hover.wellFormed h
  obtain ⟨values, -, rfl⟩ := hover
  exact ⟨rfl, rfl, rfl, hwf⟩

theorem runRaw_follows (h : m.WellFormed) (script : List (Request α)) :
    m.Follows (m.runRaw script).2 := by
  cases m with
  | dense m => exact follows_of_dense_overwritten h (m.runRaw_overwritten script)
  | row m =>
      have hshape := SparseLines.runScript_sameShape h (fun _ _ => ()) script
      exact ⟨rfl, hshape.1, rfl, hshape.2⟩
  | col m =>
      have hshape := SparseLines.runScript_sameShape h (fun _ _ => ()) script
      exact ⟨rfl, rfl, hshape.1, hshape.2⟩
  | coordinate m => exact follows_of_coordinate_overwritten h (m.runRaw_overwritten script)

theorem runIndexed_follows (h : m.WellFormed) (script : List (Request α)) :
    m.Follows (m.runIndexed script).2 := by
  cases m with
  | dense m => exact follows_of_dense_overwritten h (m.runIndexed_overwritten script)
  | row m =>
      have hshape :=
        SparseLines.runScript_sameShape h (fun major minor => (major, minor)) script
      exact ⟨rfl, hshape.1, rfl, hshape.2⟩
  | col m =>
      have hshape :=
        SparseLines.runScript_sameShape h (fun major minor => (minor, major)) script
      exact ⟨rfl, rfl, hshape.1, hshape.2⟩
  | coordinate m => exact follows_of_coordinate_overwritten h (m.runIndexed_overwritten script)

/-- Line scripts lead to a matrix that follows, also where one is refused. -/
theorem runRows?_follows (h : m.WellFormed) {scripts : List (LineScript α)}
    {replies : LineReplies α} (hrun : m.runRows? scripts = some (replies, m')) :
    m.Follows m' := by
  cases m with
  | dense m =>
      cases hrun
      exact follows_of_dense_overwritten h (m.runRows_overwritten scripts)
  | row m =>
      cases hrun
      have hshape := SparseLines.runLines_sameShape h scripts
      exact ⟨rfl, hshape.1, rfl, hshape.2⟩
  | col m => cases hrun
  | coordinate m =>
      cases hrun
      exact follows_of_coordinate_overwritten h (m.runGrouped_overwritten m.rowCells scripts)

theorem runCols?_follows (h : m.WellFormed) {scripts : List (LineScript α)}
    {replies : LineReplies α} (hrun : m.runCols? scripts = some (replies, m')) :
    m.Follows m' := by
  cases m with
  | dense m =>
      cases hrun
      exact follows_of_dense_overwritten h (m.runCols_overwritten scripts)
  | row m => cases hrun
  | col m =>
      cases hrun
      have hshape := SparseLines.runLines_sameShape h scripts
      exact ⟨rfl, rfl, hshape.1, hshape.2⟩
  | coordinate m =>
      cases hrun
      exact follows_of_coordinate_overwritten h (m.runGrouped_overwritten m.colCells scripts)

end Modification

section Enumeration

theorem toList_rawIndexed_dense (m : Dense α) :
    Cursor.toList (dense m).rawIndexed = Cursor.toList m.rawIndexed := by
  have hembed := Cursor.toList_of_embedding (f := RawIndexed.positioned) (g := id)
    (fun s => by simp [Cursor.next]) m.rawIndexed
  rwa [List.map_id] at hembed

theorem toList_flattened (entries : Entries α) (position : Nat × Nat × α → IndexedEntry α) :
    Cursor.toList (RawIndexed.flattened ⟨entries, position⟩) =
      (Cursor.toList entries).map position :=
  Cursor.toList_of_embedding (f := fun s => RawIndexed.flattened ⟨s, position⟩) (fun _ => rfl)
    entries

theorem toList_rawIndexed_coordinate (m : Coordinate α) :
    Cursor.toList (coordinate m).rawIndexed = m.toList.map fun (i, j, x) => ⟨i, j, x⟩ := by
  have hembed := Cursor.toList_of_embedding (f := RawIndexed.indexed) (g := id)
    (fun s => by simp [Cursor.next]) m.rawIndexed
  rw [List.map_id] at hembed
  exact hembed.trans (Coordinate.toList_indexed _ _ _)

/-- The raw traversal delivers what lookups find and nothing else. -/
theorem mem_rawIndexed {m : Matrix α} (h : m.WellFormed) (i j : Nat) (x : α) :
    ⟨i, j, x⟩ ∈ Cursor.toList m.rawIndexed ↔ m.lookup i j = some x := by
  cases m with
  | dense m =>
      rw [toList_rawIndexed_dense]
      exact Dense.mem_toList_rawIndexed h i j x
  | row m =>
      rw [rawIndexed, toList_flattened]
      exact (List.mem_map_of_injective RowMatrix.position_injective).trans
        (SparseLines.mem_toList_entries m.storage h i j x)
  | col m =>
      rw [rawIndexed, toList_flattened]
      exact (List.mem_map_of_injective ColMatrix.position_injective).trans
        (SparseLines.mem_toList_entries m.storage h j i x)
  | coordinate m =>
      rw [toList_rawIndexed_coordinate]
      exact (List.mem_map_of_injective RowMatrix.position_injective).trans
        (Coordinate.mem_toList h i j x)

/-- No position is delivered twice. -/
theorem rawIndexed_distinct {m : Matrix α} (h : m.WellFormed) :
    (Cursor.toList m.rawIndexed).Pairwise (fun a b => ¬ (a.row = b.row ∧ a.col = b.col)) := by
  cases m with
  | dense m =>
      rw [toList_rawIndexed_dense]
      exact Dense.toList_rawIndexed_distinct h
  | row m =>
      rw [rawIndexed, toList_flattened, List.pairwise_map]
      refine (SparseLines.toList_entries_ascending m.storage h).imp ?_
      rintro ⟨i, j, x⟩ ⟨a, b, y⟩ hab ⟨hrow, hcol⟩
      simp only [RowMatrix.position] at hab hrow hcol
      omega
  | col m =>
      rw [rawIndexed, toList_flattened, List.pairwise_map]
      refine (SparseLines.toList_entries_ascending m.storage h).imp ?_
      rintro ⟨i, j, x⟩ ⟨a, b, y⟩ hab ⟨hrow, hcol⟩
      simp only [ColMatrix.position] at hab hrow hcol
      omega
  | coordinate m =>
      rw [toList_rawIndexed_coordinate, List.pairwise_map]
      exact Coordinate.toList_distinct h

theorem nnz_eq_length {m : Matrix α} (h : m.WellFormed) :
    m.nnz = (Cursor.toList m.rawIndexed).length := by
  cases m with
  | dense m => simp [nnz, toList_rawIndexed_dense, Dense.toList_rawIndexed]
  | row m =>
      rw [rawIndexed, toList_flattened, List.length_map]
      exact SparseLines.nnz_eq_length m.storage h
  | col m =>
      rw [rawIndexed, toList_flattened, List.length_map]
      exact SparseLines.nnz_eq_length m.storage h
  | coordinate m =>
      rw [toList_rawIndexed_coordinate, List.length_map]
      exact (Coordinate.length_toList h).symm

theorem lookup_inside {m : Matrix α} (h : m.WellFormed) {i j : Nat} {x : α}
    (hx : m.lookup i j = some x) : i < m.nrows ∧ j < m.ncols := by
  cases m with
  | dense m => exact Dense.lookup_inside hx
  | row m => exact SparseLines.lookup_inside i j h x hx
  | col m => exact (SparseLines.lookup_inside j i h x hx).symm
  | coordinate m => exact Coordinate.lookup_inside h x hx

end Enumeration

end Matrix

end TransposedViews
