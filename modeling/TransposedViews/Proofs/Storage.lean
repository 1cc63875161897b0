import TransposedViews.Proofs.Layout

namespace TransposedViews

open UniformCells

/-- The entry with another value, made from its position and value. -/
def IndexedEntry.changed (g : Nat → Nat → α → α) (e : IndexedEntry α) : IndexedEntry α :=
  {e with value := g e.row e.col e.value}

section Sequences

/-- Pairing with a sequence of the same length, as an enumeration. -/
theorem zip_eq_zipIdx_map {xs : List β} {ys : List γ} (h : xs.length = ys.length) (d : β) :
    xs.zip ys = ys.zipIdx.map fun (y, k) => (xs.getD k d, y) := by
  refine List.ext_getElem (by simp [h]) fun k hk _ => ?_
  have hkx : k < xs.length := by
    rw [List.length_zip] at hk
    omega
  simp [hkx]

theorem zipIdx_mapIdx (g : Nat → β → γ) (xs : List β) :
    (xs.mapIdx g).zipIdx = xs.zipIdx.map fun (x, k) => (g k x, k) := by
  refine List.ext_getElem (by simp) fun k _ _ => ?_
  simp

/-- An enumeration of places. -/
theorem zipIdx_range_length (xs : List β) :
    (List.range xs.length).zipIdx = xs.zipIdx.map fun p => (p.2, p.2) := by
  refine List.ext_getElem (by simp) fun k _ _ => ?_
  simp

variable {α : Type u} (xs : Array α)

theorem read_array_iff (k : Nat) (x : α) :
    Cells.read xs k = some x ↔ (x, k) ∈ xs.toList.zipIdx := by
  rw [List.mem_zipIdx_iff_getElem?, Array.getElem?_toList]
  rfl

theorem zipIdx_mapPositions (position : Nat → Nat × Nat) (g : Nat → Nat → α → α) :
    (mapPositions position g xs).toList.zipIdx =
      xs.toList.zipIdx.map fun p => (g (position p.2).1 (position p.2).2 p.1, p.2) := by
  have hvalues : (mapPositions position g xs).toList =
      xs.toList.mapIdx fun k => g (position k).1 (position k).2 := Array.toList_mapIdx
  rw [hvalues, zipIdx_mapIdx]

end Sequences

namespace Dense

variable {α : Type} {m : Dense α}

/-- The position that a cell of the buffer is kept for. -/
def cellPosition (m : Dense α) (k : Nat) : Nat × Nat := (k / m.ncols, k % m.ncols)

/-- The values with their cells. -/
def items (m : Dense α) : List (α × Nat) := m.data.toList.zipIdx

theorem toList_rawIndexed_items (m : Dense α) :
    Cursor.toList m.rawIndexed = m.items.map (entryAt m.cellPosition) :=
  toList_rawIndexed m

theorem layout (h : m.WellFormed) : Layout m.cellPosition m.data m.items where
  read_iff := read_array_iff m.data
  distinct := by
    have hdistinct := toList_rawIndexed_distinct h
    rw [toList_rawIndexed_items, List.pairwise_map] at hdistinct
    refine List.pairwise_map.mpr (hdistinct.imp fun hne heq => hne ?_)
    exact ⟨congrArg Prod.fst heq, congrArg Prod.snd heq⟩

def mapEntries (g : Nat → Nat → α → α) (m : Dense α) : Dense α :=
  {m with data := mapPositions m.cellPosition g m.data}

theorem mapEntries_mapEntries (g g' : Nat → Nat → α → α) (m : Dense α) :
    (m.mapEntries g).mapEntries g' = m.mapEntries fun i j x => g' i j (g i j x) := by
  have hdata := mapPositions_mapPositions m.cellPosition g g' m.data
  exact congrArg (fun data => {m with data}) hdata

theorem mapEntries_wellFormed (h : m.WellFormed) (g : Nat → Nat → α → α) :
    (m.mapEntries g).WellFormed where
  size_eq := Array.size_mapIdx.trans h.size_eq
  fits := h.fits

theorem items_mapEntries (g : Nat → Nat → α → α) (m : Dense α) : (m.mapEntries g).items =
    m.items.map fun p => (g (m.cellPosition p.2).1 (m.cellPosition p.2).2 p.1, p.2) :=
  zipIdx_mapPositions m.data m.cellPosition g

/-- Setting an entry changes it alone. -/
theorem set_mapEntries (h : m.WellFormed) {i j : Nat} {x : α} (hx : m.lookup i j = some x)
    (f : Nat → Nat → α → α) :
    m.set i j (f i j x) = (.ok (), m.mapEntries (overwriting f [(i, j)])) := by
  obtain ⟨hi, hj⟩ := lookup_inside hx
  have hposition : m.cellPosition (i * m.ncols + j) = (i, j) :=
    Prod.ext (offset_div hj) (offset_mod hj)
  have hcell : (x, i * m.ncols + j) ∈ m.items := by
    rw [lookup, if_pos ⟨hi, hj⟩] at hx
    exact ((layout h).read_iff _ x).mp hx
  have hwrite := (layout h).write_eq f hcell
  rw [hposition] at hwrite
  rw [set_eq h hi hj]
  exact Prod.ext rfl (congrArg (fun data => {m with data}) hwrite)

end Dense

namespace Coordinate

variable {α : Type} {m : Coordinate α}

/-- The position that a slot holds. -/
def cellPosition (m : Coordinate α) (s : Nat) : Nat × Nat :=
  (m.rowIndices.getD s 0, m.colIndices.getD s 0)

/-- The values with their slots. -/
def items (m : Coordinate α) : List (α × Nat) := m.values.toList.zipIdx

theorem cellPosition_of_holds {s i j : Nat} (h : m.Holds s i j) : m.cellPosition s = (i, j) := by
  simp [cellPosition, Array.getD_eq_getD_getElem?, h.1, h.2]

/-- The index sequences run alongside any payloads of the values. -/
theorem zip_slots {xs ys : Array Nat} {payloads : List β} (hx : xs.size = payloads.length)
    (hy : ys.size = payloads.length) :
    xs.toList.zip (ys.toList.zip payloads) =
      payloads.zipIdx.map fun q => (xs.getD q.2 0, ys.getD q.2 0, q.1) := by
  refine List.ext_getElem (by simp [hx, hy]) fun k hk _ => ?_
  simp only [List.length_zip, Array.length_toList] at hk
  have hkx : k < xs.size := by omega
  have hky : k < ys.size := by omega
  simp [hkx, hky]

theorem toList_items (h : m.WellFormed) :
    m.toList = m.items.map fun p => ((m.cellPosition p.2).1, (m.cellPosition p.2).2, p.1) :=
  zip_slots h.rows_size h.cols_size

theorem entries_items (h : m.WellFormed) :
    (m.toList.map fun (i, j, x) => (⟨i, j, x⟩ : IndexedEntry α)) =
      m.items.map (entryAt m.cellPosition) := by
  rw [toList_items h, List.map_map]
  rfl

theorem layout (h : m.WellFormed) : Layout m.cellPosition m.values m.items where
  read_iff := read_array_iff m.values
  distinct := by
    have hdistinct := toList_distinct h
    rw [toList_items h, List.pairwise_map] at hdistinct
    refine List.pairwise_map.mpr (hdistinct.imp fun hne heq => hne ?_)
    have hrow := congrArg Prod.fst heq
    have hcol := congrArg Prod.snd heq
    exact ⟨hrow, hcol⟩

def mapEntries (g : Nat → Nat → α → α) (m : Coordinate α) : Coordinate α :=
  {m with values := mapPositions m.cellPosition g m.values}

theorem mapEntries_mapEntries (g g' : Nat → Nat → α → α) (m : Coordinate α) :
    (m.mapEntries g).mapEntries g' = m.mapEntries fun i j x => g' i j (g i j x) := by
  have hvalues := mapPositions_mapPositions m.cellPosition g g' m.values
  exact congrArg (fun values => {m with values}) hvalues

theorem mapEntries_wellFormed (h : m.WellFormed) (g : Nat → Nat → α → α) :
    (m.mapEntries g).WellFormed :=
  h.with_values _ Array.size_mapIdx

theorem items_mapEntries (g : Nat → Nat → α → α) (m : Coordinate α) : (m.mapEntries g).items =
    m.items.map fun p => (g (m.cellPosition p.2).1 (m.cellPosition p.2).2 p.1, p.2) :=
  zipIdx_mapPositions m.values m.cellPosition g

/-- Setting a stored entry changes it alone, in its slot. -/
theorem set_mapEntries (h : m.WellFormed) {i j : Nat} {x : α} (hx : m.lookup i j = some x)
    (f : Nat → Nat → α → α) :
    m.set i j (f i j x) = (.ok (), m.mapEntries (overwriting f [(i, j)])) := by
  obtain ⟨hi, hj⟩ := lookup_inside h x hx
  obtain ⟨s, hheld, hvalue⟩ := (lookup_eq_some_iff h x).mp hx
  have hslot : m.slots[(i, j)]? = some s := (h.slots_iff i j s).mpr hheld
  have hwrite := (layout h).write_eq f (((layout h).read_iff s x).mp hvalue)
  rw [cellPosition_of_holds hheld] at hwrite
  rw [set_eq h hi hj, store_stored _ hslot]
  exact Prod.ext rfl (congrArg (fun values => {m with values}) hwrite)

end Coordinate

/-- A stored index has a place, where its value is and where insertion puts
another one. -/
theorem SparseVector.exists_place {α : Type} {v : SparseVector α} (h : v.WellFormed) {k : Nat}
    {x : α} (hx : v.lookup k = some x) : ∃ p, v.indices[p]? = some k ∧ v.values[p]? = some x ∧
      ∀ y, (v.insert k y).2 = {v with values := v.values.set p y} := by
  cases h.cutAt k with
  | vacant below above hbelow habove =>
      rw [lookup_vacant below above k hbelow habove] at hx
      cases hx
  | stored below above x' hbelow habove =>
      rw [lookup_stored below above k x' hbelow] at hx
      cases hx
      refine ⟨below.length, by simp [ofEntries], by simp [ofEntries], fun y => ?_⟩
      rw [insert_stored below above k x y hbelow habove]
      simp [ofEntries]

namespace SparseLines

variable {α : Type} {s : SparseLines α}

/-- The position that a cell is kept for: the number of its line and the index
in its place there. -/
def cellPosition (s : SparseLines α) (c : Nat × Nat) : Nat × Nat :=
  (c.1, ((s.lines[c.1]?).bind fun line => line.indices[c.2]?).getD 0)

/-- The values with their cells, line by line. -/
def items (s : SparseLines α) : List (α × (Nat × Nat)) :=
  s.lines.toList.zipIdx.flatMap fun (line, i) => line.values.zipIdx.map fun (x, p) => (x, (i, p))

theorem toList_entries_items (h : s.WellFormed) :
    Cursor.toList s.entries =
      s.items.map fun p => ((s.cellPosition p.2).1, (s.cellPosition p.2).2, p.1) := by
  rw [toList_entries, Entries.numbered, items, List.zipIdx_map, List.flatMap_map, List.map_flatMap]
  refine List.flatMap_congr fun t ht => ?_
  obtain ⟨line, i⟩ := t
  have hget : s.lines[i]? = some line := by
    simpa using List.mem_zipIdx_iff_getElem?.mp ht
  have hlength := (h line (Array.mem_of_getElem? hget)).length_eq
  simp only [Prod.map_fst, Prod.map_snd, SparseVector.toList, zip_eq_zipIdx_map hlength 0,
    List.map_map]
  refine List.map_congr_left fun q _ => ?_
  simp [cellPosition, hget]

theorem layout (h : s.WellFormed) : Layout s.cellPosition s.lines s.items where
  read_iff c x := by
    simp only [items, List.mem_flatMap, List.mem_map, Cells.read, Option.bind_eq_some_iff]
    constructor
    · rintro ⟨line, hline, hx⟩
      refine ⟨(line, c.1), ?_, (x, c.2), List.mem_zipIdx_iff_getElem?.mpr hx, rfl⟩
      simpa [List.mem_zipIdx_iff_getElem?] using hline
    · rintro ⟨⟨line, i⟩, hline, ⟨y, p⟩, hy, heq⟩
      cases heq
      refine ⟨line, ?_, List.mem_zipIdx_iff_getElem?.mp hy⟩
      simpa [List.mem_zipIdx_iff_getElem?] using hline
  distinct := by
    have hascending := toList_entries_ascending s h
    rw [toList_entries_items h, List.pairwise_map] at hascending
    refine List.pairwise_map.mpr (hascending.imp fun hlt heq => ?_)
    simp only at hlt
    rw [heq] at hlt
    omega

def mapEntries (g : Nat → Nat → α → α) (s : SparseLines α) : SparseLines α :=
  {s with lines := mapPositions s.cellPosition g s.lines}

theorem cellPosition_mapEntries (g : Nat → Nat → α → α) (s : SparseLines α) :
    (s.mapEntries g).cellPosition = s.cellPosition := by
  funext c
  simp only [cellPosition, mapEntries, mapPositions, mapCells, Array.getElem?_mapIdx]
  cases s.lines[c.1]? <;> rfl

theorem mapEntries_mapEntries (g g' : Nat → Nat → α → α) (s : SparseLines α) :
    (s.mapEntries g).mapEntries g' = s.mapEntries fun i j x => g' i j (g i j x) := by
  have hlines := mapPositions_mapPositions s.cellPosition g g' s.lines
  rw [mapEntries, cellPosition_mapEntries]
  exact congrArg (fun lines => {s with lines}) hlines

theorem mapEntries_wellFormed (h : s.WellFormed) (g : Nat → Nat → α → α) :
    (s.mapEntries g).WellFormed := by
  intro line hline
  obtain ⟨i, hi, rfl⟩ := Array.mem_mapIdx.mp hline
  exact (h _ (Array.getElem_mem hi)).with_values _ List.length_mapIdx

theorem items_mapEntries (g : Nat → Nat → α → α) (s : SparseLines α) :
    (s.mapEntries g).items =
      s.items.map fun p => (g (s.cellPosition p.2).1 (s.cellPosition p.2).2 p.1, p.2) := by
  simp only [items, mapEntries, mapPositions, mapCells, Array.toList_mapIdx, zipIdx_mapIdx,
    List.flatMap_map, List.map_flatMap, List.map_map]
  rfl

/-- Storing a value where one is stored changes it alone. -/
theorem store_mapEntries (h : s.WellFormed) {i j : Nat} {x : α} (hx : s.lookup i j = some x)
    (f : Nat → Nat → α → α) :
    s.store i j (f i j x) = s.mapEntries (overwriting f [(i, j)]) := by
  obtain ⟨line, hline, hget⟩ := Option.bind_eq_some_iff.mp hx
  have hwf := (h line (Array.mem_of_getElem? hline)).toWellFormed
  obtain ⟨p, hindex, hvalue, hinsert⟩ := SparseVector.exists_place hwf hget
  have hposition : s.cellPosition (i, p) = (i, j) := by
    simp [cellPosition, hline, hindex]
  have hread : Cells.read s.lines (i, p) = some x := by
    simpa [Cells.read, hline] using hvalue
  have hwrite := (layout h).write_eq f (((layout h).read_iff (i, p) x).mp hread)
  rw [hposition] at hwrite
  have hstore : (s.store i j (f i j x)).lines = Cells.write s.lines (i, p) (f i j x) := by
    refine Array.ext_getElem? fun k => ?_
    simp only [store, Cells.write, Array.getElem?_modify]
    split
    · next heq =>
        subst heq
        simp [hline, hinsert]
    · rfl
  exact congrArg (fun lines => {s with lines}) (hstore.trans hwrite)

end SparseLines

end TransposedViews
