import Mathlib.Data.List.Flatten
import TransposedViews.Proofs.Frame
import TransposedViews.Proofs.Occurrence

namespace TransposedViews

theorem map_snd_zipIdx (xs : List β) : xs.zipIdx.map Prod.snd = List.range xs.length := by
  rw [List.zipIdx_map_snd, List.range_eq_range']

namespace Dense

variable {α : Type}

/-- The cells of a buffer, cut into rows. -/
theorem range_mul (nrows ncols : Nat) :
    List.range (nrows * ncols) =
      (List.range nrows).flatMap fun i => (List.range ncols).map fun j => i * ncols + j := by
  induction nrows with
  | zero => simp
  | succ n ih =>
      rw [Nat.succ_mul, List.range_add, ih, List.range_succ, List.flatMap_append,
        List.flatMap_singleton]

/-- The position of every cell, row by row. -/
theorem positions_row_major (nrows ncols : Nat) :
    (List.range (nrows * ncols)).map (fun k => (k / ncols, k % ncols)) =
      (List.range nrows).flatMap fun i => (List.range ncols).map fun j => (i, j) := by
  rw [range_mul, List.map_flatMap]
  refine List.flatMap_congr fun i _ => ?_
  rw [List.map_map]
  refine List.map_congr_left fun j hj => ?_
  have hlt : j < ncols := List.mem_range.mp hj
  simp only [Function.comp_apply, offset_div hlt, offset_mod hlt]

theorem toList_rawIndexed_positions (m : Dense α) :
    (Cursor.toList m.rawIndexed).map (fun e => (e.row, e.col)) =
      (List.range m.data.size).map fun k => (k / m.ncols, k % m.ncols) := by
  have hcells := map_snd_zipIdx m.data.toList
  rw [Array.length_toList] at hcells
  rw [toList_rawIndexed, List.map_map, ← hcells, List.map_map]
  rfl

end Dense

namespace Matrix

variable {α : Type} {m : Matrix α}

theorem toList_items {β : Type u} (xs : List β) : Cursor.toList (⟨xs⟩ : Items β) = xs :=
  Cursor.toList_eq_of_listing (fun s : Items β => s.rest)
    (by rintro ⟨_ | ⟨_, _⟩⟩ <;> rfl) (by rintro ⟨_ | ⟨_, _⟩⟩ <;> rfl) ⟨xs⟩

theorem toList_buffer (cursor : Items α) : Cursor.toList (Raw.buffer cursor) = cursor.rest := by
  have hembed := Cursor.toList_of_embedding (f := Raw.buffer) (g := id)
    (fun s => by simp [Cursor.next]) cursor
  rwa [List.map_id, toList_items] at hembed

theorem toList_flattened_values (entries : Entries α) (payload : Nat × Nat × α → α) :
    Cursor.toList (Raw.flattened ⟨entries, payload⟩) = (Cursor.toList entries).map payload :=
  Cursor.toList_of_embedding (f := fun s => Raw.flattened ⟨s, payload⟩) (fun _ => rfl) entries

/-- Both raw traversals come in the same order. -/
theorem toList_raw (h : m.WellFormed) :
    Cursor.toList m.raw = (Cursor.toList m.rawIndexed).map (·.value) := by
  cases m with
  | dense m =>
      rw [raw, toList_buffer, toList_rawIndexed_dense, Dense.toList_rawIndexed, List.map_map]
      exact (List.zipIdx_map_fst 0 m.data.toList).symm
  | row m =>
      rw [raw, rawIndexed, toList_flattened_values, toList_flattened, List.map_map]
      rfl
  | col m =>
      rw [raw, rawIndexed, toList_flattened_values, toList_flattened, List.map_map]
      rfl
  | coordinate m =>
      rw [raw, toList_buffer, toList_rawIndexed_coordinate, List.map_map]
      exact (Coordinate.toList_columns h).2.2.trans List.map_map

/-- The order of a raw traversal: row by row through all positions of a dense
matrix, ascending by line and then inside the line for stored lines, and slot
after slot for a coordinate form. -/
def InStorageOrder : Matrix α → List (IndexedEntry α) → Prop
  | .dense m, entries =>
      entries.map (fun e => (e.row, e.col)) =
        (List.range m.nrows).flatMap fun i => (List.range m.ncols).map fun j => (i, j)
  | .row _, entries => entries.Pairwise fun a b => a.row < b.row ∨ (a.row = b.row ∧ a.col < b.col)
  | .col _, entries => entries.Pairwise fun a b => a.col < b.col ∨ (a.col = b.col ∧ a.row < b.row)
  | .coordinate m, entries =>
      entries.map (·.row) = m.rowIndices.toList ∧ entries.map (·.col) = m.colIndices.toList ∧
        entries.map (·.value) = m.values.toList

theorem rawIndexed_inStorageOrder (h : m.WellFormed) :
    m.InStorageOrder (Cursor.toList m.rawIndexed) := by
  cases m with
  | dense m =>
      have hsize : m.data.size = m.nrows * m.ncols := Dense.WellFormed.size_eq h
      rw [InStorageOrder, toList_rawIndexed_dense, Dense.toList_rawIndexed_positions, hsize]
      exact Dense.positions_row_major m.nrows m.ncols
  | row m =>
      rw [InStorageOrder, rawIndexed, toList_flattened, List.pairwise_map]
      exact SparseLines.toList_entries_ascending m.storage h
  | col m =>
      rw [InStorageOrder, rawIndexed, toList_flattened, List.pairwise_map]
      exact SparseLines.toList_entries_ascending m.storage h
  | coordinate m =>
      obtain ⟨hrows, hcols, hvalues⟩ := Coordinate.toList_columns h
      simp only [InStorageOrder, toList_rawIndexed_coordinate, List.map_map, hrows, hcols, hvalues]
      exact ⟨rfl, rfl, rfl⟩

/-- Where no position comes twice, all that is delivered for one position is
its entry. -/
theorem filter_position_eq_singleton {entries : List (IndexedEntry α)} {e : IndexedEntry α}
    (hdistinct : entries.Pairwise fun a b => ¬ (a.row = b.row ∧ a.col = b.col))
    (hmem : e ∈ entries) :
    entries.filter (fun a => a.row == e.row && a.col == e.col) = [e] := by
  induction entries with
  | nil => cases hmem
  | cons a entries ih =>
      obtain ⟨hfirst, hrest⟩ := List.pairwise_cons.mp hdistinct
      rcases List.mem_cons.mp hmem with rfl | hlater
      · have hnone : entries.filter (fun a => a.row == e.row && a.col == e.col) = [] := by
          refine List.filter_eq_nil_iff.mpr fun b hb => ?_
          have hne := hfirst b hb
          simp only [Bool.and_eq_true, beq_iff_eq]
          exact fun heq => hne ⟨heq.1.symm, heq.2.symm⟩
        simp [hnone]
      · have hskip : ¬ (a.row = e.row ∧ a.col = e.col) := hfirst e hlater
        rw [List.filter_cons_of_neg (by simpa using hskip)]
        exact ih hrest hlater

/-- The raw traversal of a reachable matrix delivers the stored entries: each
one inside the matrix and as access by position finds it, for every stored
position exactly one, and in the order of the storage. The traversal of the
values alone leaves out nothing but the positions. -/
theorem raw_traversal_enumerates (h : m.Reachable) :
    (∀ e ∈ Cursor.toList m.rawIndexed, e.row < m.nrows ∧ e.col < m.ncols ∧
      m.entry e.row e.col = .ok (some e.value)) ∧
    (∀ i j x, m.entry i j = .ok (some x) →
      (Cursor.toList m.rawIndexed).filter (fun e => e.row == i && e.col == j) = [⟨i, j, x⟩]) ∧
    (Cursor.toList m.rawIndexed).length = m.nnz ∧
    (m.kind = .dense → m.nnz = m.nrows * m.ncols) ∧
    Cursor.toList m.raw = (Cursor.toList m.rawIndexed).map (·.value) ∧
    m.InStorageOrder (Cursor.toList m.rawIndexed) := by
  have hwf := h.wellFormed
  refine ⟨?_, ?_, (nnz_eq_length hwf).symm, ?_, toList_raw hwf, rawIndexed_inStorageOrder hwf⟩
  · intro e he
    have hlookup := (mem_rawIndexed hwf e.row e.col e.value).mp he
    have hinside := lookup_inside hwf hlookup
    exact ⟨hinside.1, hinside.2, (entry_eq_some_iff hwf e.row e.col e.value).mpr hlookup⟩
  · intro i j x hentry
    have hlookup := (entry_eq_some_iff hwf i j x).mp hentry
    have hmem := (mem_rawIndexed hwf i j x).mpr hlookup
    exact filter_position_eq_singleton (e := ⟨i, j, x⟩) (rawIndexed_distinct hwf) hmem
  · intro hkind
    cases m with
    | dense m => exact Dense.WellFormed.size_eq hwf
    | _ => cases hkind

/-- Three entries stored by columns, given in another order. -/
def threeByColumns : ColMatrix Nat :=
  ⟨(((SparseLines.empty 3 2).store 2 1 7).store 1 0 5).store 0 1 6⟩

theorem threeByColumns_enumerated :
    (col threeByColumns).Reachable ∧
      (Cursor.toList (col threeByColumns).rawIndexed).length = 3 ∧
      (Cursor.toList (col threeByColumns).rawIndexed).filter (fun e => e.row == 0 && e.col == 1) =
        [⟨0, 1, 5⟩] ∧
      (Cursor.toList (col threeByColumns).rawIndexed).Pairwise
        (fun a b => a.col < b.col ∨ (a.col = b.col ∧ a.row < b.row)) := by
  have hbuilt : ColMatrix.ofTriplets 2 3 [(1, 2, 7), (0, 1, 5), (1, 0, 6)] =
      .ok threeByColumns := rfl
  have hreachable : (col threeByColumns).Reachable := .built (.colTriplets hbuilt)
  obtain ⟨-, hexactly, hcount, -, -, horder⟩ := raw_traversal_enumerates hreachable
  exact ⟨hreachable, hcount, hexactly 0 1 5 rfl, horder⟩

end Matrix

end TransposedViews
