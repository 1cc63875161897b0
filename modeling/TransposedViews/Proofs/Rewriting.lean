import TransposedViews.Proofs.Storage

namespace TransposedViews

section Overwriting

variable {α : Type u} {f : Nat → Nat → α → α} {positions positions' : List (Nat × Nat)}

/-- Overwriting here and then there is overwriting in both places. -/
theorem overwriting_append (hdisjoint : positions.Disjoint positions') (i j : Nat) (x : α) :
    overwriting f positions' i j (overwriting f positions i j x) =
      overwriting f (positions ++ positions') i j x := by
  unfold overwriting
  by_cases hmem : (i, j) ∈ positions
  · have hnot : (i, j) ∉ positions' := hdisjoint hmem
    simp [hmem, hnot]
  · simp [hmem]

theorem overwriting_of_mem {i j : Nat} (h : (i, j) ∈ positions) (x : α) :
    overwriting f positions i j x = f i j x := if_pos h

theorem overwriting_of_not_mem {i j : Nat} (h : (i, j) ∉ positions) (x : α) :
    overwriting f positions i j x = x := if_neg h

/-- Overwriting seen with rows and columns exchanged. -/
theorem overwriting_exchanged (f : Nat → Nat → α → α) (positions : List (Nat × Nat)) (i j : Nat)
    (x : α) :
    overwriting (fun j i => f i j) (positions.map Prod.swap) j i x =
      overwriting f positions i j x := by
  have hiff : (j, i) ∈ positions.map Prod.swap ↔ (i, j) ∈ positions :=
    List.mem_map_of_injective (a := (i, j)) Prod.swap_injective
  simp only [overwriting, hiff]

end Overwriting

namespace Matrix

variable {α : Type} {m : Matrix α}

section Items

theorem rawIndexed_dense_items (m : Dense α) :
    Cursor.toList (dense m).rawIndexed = m.items.map (entryAt m.cellPosition) :=
  (toList_rawIndexed_dense m).trans (Dense.toList_rawIndexed_items m)

theorem rawIndexed_row_items {s : SparseLines α} (h : s.WellFormed) :
    Cursor.toList (row ⟨s⟩).rawIndexed = s.items.map (entryAt s.cellPosition) := by
  rw [rawIndexed, toList_flattened, SparseLines.toList_entries_items h, List.map_map]
  rfl

theorem rawIndexed_col_items {s : SparseLines α} (h : s.WellFormed) :
    Cursor.toList (col ⟨s⟩).rawIndexed =
      s.items.map (entryAt fun c => (s.cellPosition c).swap) := by
  rw [rawIndexed, toList_flattened, SparseLines.toList_entries_items h, List.map_map]
  rfl

theorem rawIndexed_coordinate_items {m : Coordinate α} (h : m.WellFormed) :
    Cursor.toList (coordinate m).rawIndexed = m.items.map (entryAt m.cellPosition) :=
  (toList_rawIndexed_coordinate m).trans (Coordinate.entries_items h)

end Items

/-- Changes all entries, each by its position. -/
def mapEntries (g : Nat → Nat → α → α) : Matrix α → Matrix α
  | .dense m => .dense (m.mapEntries g)
  | .row m => .row ⟨m.storage.mapEntries g⟩
  | .col m => .col ⟨m.storage.mapEntries fun j i => g i j⟩
  | .coordinate m => .coordinate (m.mapEntries g)

/-- The matrix with the given entries overwritten by what `f` makes of them. -/
def overwritten (m : Matrix α) (f : Nat → Nat → α → α) (entries : List (IndexedEntry α)) :
    Matrix α :=
  m.mapEntries (overwriting f (entries.map IndexedEntry.position))

@[simp] theorem kind_mapEntries (g : Nat → Nat → α → α) (m : Matrix α) :
    (m.mapEntries g).kind = m.kind := by
  cases m <;> rfl

@[simp] theorem nrows_mapEntries (g : Nat → Nat → α → α) (m : Matrix α) :
    (m.mapEntries g).nrows = m.nrows := by
  cases m with
  | dense m => rfl
  | row m => exact Array.size_mapIdx
  | col m => rfl
  | coordinate m => rfl

@[simp] theorem ncols_mapEntries (g : Nat → Nat → α → α) (m : Matrix α) :
    (m.mapEntries g).ncols = m.ncols := by
  cases m with
  | dense m => rfl
  | row m => rfl
  | col m => exact Array.size_mapIdx
  | coordinate m => rfl

theorem mapEntries_wellFormed (h : m.WellFormed) (g : Nat → Nat → α → α) :
    (m.mapEntries g).WellFormed := by
  cases m with
  | dense m => exact Dense.mapEntries_wellFormed h g
  | row m => exact SparseLines.mapEntries_wellFormed h g
  | col m => exact SparseLines.mapEntries_wellFormed h fun j i => g i j
  | coordinate m => exact Coordinate.mapEntries_wellFormed h g

theorem mapEntries_mapEntries (g g' : Nat → Nat → α → α) (m : Matrix α) :
    (m.mapEntries g).mapEntries g' = m.mapEntries fun i j x => g' i j (g i j x) := by
  cases m with
  | dense m => exact congrArg dense (Dense.mapEntries_mapEntries g g' m)
  | row m => exact congrArg (fun s => row ⟨s⟩) (SparseLines.mapEntries_mapEntries g g' m.storage)
  | col m =>
      exact congrArg (fun s => col ⟨s⟩)
        (SparseLines.mapEntries_mapEntries (fun j i => g i j) (fun j i => g' i j) m.storage)
  | coordinate m => exact congrArg coordinate (Coordinate.mapEntries_mapEntries g g' m)

theorem mapEntries_id (m : Matrix α) : m.mapEntries (fun _ _ x => x) = m := by
  cases m with
  | dense m => exact congrArg (fun data => dense {m with data}) (UniformCells.mapCells_id m.data)
  | row m =>
      exact congrArg (fun lines => row ⟨{m.storage with lines}⟩)
        (UniformCells.mapCells_id m.storage.lines)
  | col m =>
      exact congrArg (fun lines => col ⟨{m.storage with lines}⟩)
        (UniformCells.mapCells_id m.storage.lines)
  | coordinate m =>
      exact congrArg (fun values => coordinate {m with values}) (UniformCells.mapCells_id m.values)

/-- The raw traversal finds the same positions in the same order, with the
changed values. -/
theorem toList_rawIndexed_mapEntries (h : m.WellFormed) (g : Nat → Nat → α → α) :
    Cursor.toList (m.mapEntries g).rawIndexed =
      (Cursor.toList m.rawIndexed).map (IndexedEntry.changed g) := by
  cases m with
  | dense m =>
      rw [mapEntries, rawIndexed_dense_items, rawIndexed_dense_items, Dense.items_mapEntries,
        List.map_map, List.map_map]
      rfl
  | row m =>
      have hafter := SparseLines.mapEntries_wellFormed h g
      rw [mapEntries, rawIndexed_row_items h, rawIndexed_row_items hafter,
        SparseLines.items_mapEntries, SparseLines.cellPosition_mapEntries, List.map_map,
        List.map_map]
      rfl
  | col m =>
      have hafter := SparseLines.mapEntries_wellFormed h fun j i => g i j
      rw [mapEntries, rawIndexed_col_items h, rawIndexed_col_items hafter,
        SparseLines.items_mapEntries, SparseLines.cellPosition_mapEntries, List.map_map,
        List.map_map]
      rfl
  | coordinate m =>
      have hafter := Coordinate.mapEntries_wellFormed h g
      rw [mapEntries, rawIndexed_coordinate_items h, rawIndexed_coordinate_items hafter,
        Coordinate.items_mapEntries, List.map_map, List.map_map]
      rfl

/-- Only what is done to stored entries matters. -/
theorem mapEntries_congr (h : m.WellFormed) {g g' : Nat → Nat → α → α}
    (hsame : ∀ e ∈ Cursor.toList m.rawIndexed, g e.row e.col e.value = g' e.row e.col e.value) :
    m.mapEntries g = m.mapEntries g' := by
  cases m with
  | dense m =>
      rw [rawIndexed_dense_items, List.forall_mem_map] at hsame
      exact congrArg (fun data => dense {m with data}) ((Dense.layout h).mapPositions_congr hsame)
  | row m =>
      rw [rawIndexed_row_items h, List.forall_mem_map] at hsame
      exact congrArg (fun lines => row ⟨{m.storage with lines}⟩)
        ((SparseLines.layout h).mapPositions_congr hsame)
  | col m =>
      rw [rawIndexed_col_items h, List.forall_mem_map] at hsame
      exact congrArg (fun lines => col ⟨{m.storage with lines}⟩)
        ((SparseLines.layout h).mapPositions_congr hsame)
  | coordinate m =>
      rw [rawIndexed_coordinate_items h, List.forall_mem_map] at hsame
      exact congrArg (fun values => coordinate {m with values})
        ((Coordinate.layout h).mapPositions_congr hsame)

theorem lookup_mapEntries (h : m.WellFormed) (g : Nat → Nat → α → α) (i j : Nat) :
    (m.mapEntries g).lookup i j = (m.lookup i j).map (g i j) := by
  refine Option.ext fun y => ?_
  rw [← mem_rawIndexed (mapEntries_wellFormed h g), toList_rawIndexed_mapEntries h, List.mem_map,
    Option.map_eq_some_iff]
  constructor
  · rintro ⟨⟨a, b, x⟩, hmem, heq⟩
    cases heq
    exact ⟨x, (mem_rawIndexed h _ _ x).mp hmem, rfl⟩
  · rintro ⟨x, hx, rfl⟩
    exact ⟨⟨i, j, x⟩, (mem_rawIndexed h i j x).mpr hx, rfl⟩

/-- Reading a changed entry is changing what is read. -/
theorem entry_mapEntries (h : m.WellFormed) (g : Nat → Nat → α → α) (i j : Nat) :
    (m.mapEntries g).entry i j = (m.entry i j).map (Option.map (g i j)) := by
  by_cases hinside : i < m.nrows ∧ j < m.ncols
  · have hinside' : i < (m.mapEntries g).nrows ∧ j < (m.mapEntries g).ncols := by
      simpa using hinside
    rw [entry_inside h hinside.1 hinside.2,
      entry_inside (mapEntries_wellFormed h g) hinside'.1 hinside'.2, lookup_mapEntries h]
    rfl
  · have houtside : ¬ (i < (m.mapEntries g).nrows ∧ j < (m.mapEntries g).ncols) := by
      simpa using hinside
    rw [entry_outside m hinside, entry_outside _ houtside, nrows_mapEntries, ncols_mapEntries]
    rfl

theorem nnz_mapEntries (h : m.WellFormed) (g : Nat → Nat → α → α) :
    (m.mapEntries g).nnz = m.nnz := by
  rw [nnz_eq_length h, nnz_eq_length (mapEntries_wellFormed h g),
    toList_rawIndexed_mapEntries h, List.length_map]

/-- Overwriting every entry changes them all. -/
theorem overwritten_eq_mapEntries (h : m.WellFormed) (f : Nat → Nat → α → α)
    {entries : List (IndexedEntry α)} (hall : Cursor.toList m.rawIndexed ⊆ entries) :
    m.overwritten f entries = m.mapEntries f :=
  mapEntries_congr h fun e he =>
    overwriting_of_mem (List.mem_map_of_mem (f := IndexedEntry.position) (hall he)) e.value

/-- Setting a stored entry changes it alone. -/
theorem set_mapEntries (h : m.WellFormed) {i j : Nat} {x : α} (hx : m.lookup i j = some x)
    (f : Nat → Nat → α → α) :
    m.set i j (f i j x) = (.ok (), m.mapEntries (overwriting f [(i, j)])) := by
  cases m with
  | dense m =>
      rw [set, Dense.set_mapEntries h hx f]
      rfl
  | row m =>
      obtain ⟨hi, hj⟩ := lookup_inside h hx
      rw [set, RowMatrix.set_eq h hi hj, RowMatrix.store, SparseLines.store_mapEntries h hx f]
      rfl
  | col m =>
      obtain ⟨hi, hj⟩ := lookup_inside h hx
      have hchange : overwriting (fun j i => f i j) [(j, i)] =
          fun b a => overwriting f [(i, j)] a b := by
        funext b a x
        exact overwriting_exchanged f [(i, j)] a b x
      rw [set, ColMatrix.set_eq h hi hj, ColMatrix.store,
        SparseLines.store_mapEntries h hx fun j i => f i j, hchange]
      rfl
  | coordinate m =>
      rw [set, Coordinate.set_mapEntries h hx f]
      rfl

/-- Reads the entries at the given positions one after the other and sets each
that is stored to what `f` makes of it. -/
def rewriteEach (f : Nat → Nat → α → α) :
    List (Nat × Nat) → Matrix α → Except Fault Unit × Matrix α
  | [], m => (.ok (), m)
  | (i, j) :: positions, m =>
      match m.entry i j with
      | .error fault => (.error fault, m)
      | .ok none => rewriteEach f positions m
      | .ok (some x) =>
          match m.set i j (f i j x) with
          | (.error fault, m) => (.error fault, m)
          | (.ok _, m) => rewriteEach f positions m

theorem rewriteEach_eq (h : m.WellFormed) (f : Nat → Nat → α → α) {positions : List (Nat × Nat)}
    (hnodup : positions.Nodup)
    (hstored : ∀ p ∈ positions, (m.lookup p.1 p.2).isSome = true) :
    rewriteEach f positions m = (.ok (), m.mapEntries (overwriting f positions)) := by
  induction positions generalizing m with
  | nil =>
      have hsame : m.mapEntries (overwriting f []) = m.mapEntries fun _ _ x => x :=
        mapEntries_congr h fun _ _ => rfl
      rw [hsame, mapEntries_id]
      rfl
  | cons p positions ih =>
      obtain ⟨i, j⟩ := p
      obtain ⟨hnot, hnodup⟩ := List.nodup_cons.mp hnodup
      obtain ⟨x, hx⟩ := Option.isSome_iff_exists.mp (hstored (i, j) List.mem_cons_self)
      obtain ⟨hi, hj⟩ := lookup_inside h hx
      have hset := set_mapEntries h hx f
      -- the other positions are stored in the new matrix as in the old one
      obtain ⟨m', hset', hfollows, hlookup⟩ := set_inside h hi hj (f i j x)
      rw [hset] at hset'
      cases hset'
      have hrest : ∀ p ∈ positions,
          ((m.mapEntries (overwriting f [(i, j)])).lookup p.1 p.2).isSome = true := by
        intro p hp
        rw [hlookup]
        split
        · rfl
        · exact hstored p (List.mem_cons_of_mem _ hp)
      have hdisjoint : [(i, j)].Disjoint positions := by
        simpa using hnot
      rw [rewriteEach, entry_inside h hi hj, hx]
      simp only [hset]
      rw [ih hfollows.wellFormed hnodup hrest, mapEntries_mapEntries]
      simp only [overwriting_append hdisjoint, List.singleton_append]

end Matrix

end TransposedViews
