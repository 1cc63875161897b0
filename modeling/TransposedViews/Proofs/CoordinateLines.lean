import Mathlib.Data.List.Perm.Basic
import TransposedViews.Proofs.LineWriting
import TransposedViews.Proofs.Run

/-!
The lines of a coordinate form. A line that is read scans the whole storage for
its entries, and lines that are written to are grouped in one pass. Both come to
the same entries in the same order, which is the order of the storage, and the
lines together have every stored entry once.
-/

namespace TransposedViews

/-- Lists cut by a number below a bound and joined again. -/
theorem flatMap_filter_perm (key : β → Nat) (items : List β) (count : Nat) :
    ((List.range count).flatMap fun i => items.filter (key · = i)).Perm
      (items.filter (key · < count)) := by
  induction count with
  | zero => simp
  | succ n ih =>
      have hbelow : (items.filter (key · < n + 1)).filter (key · < n) =
          items.filter (key · < n) := by
        rw [List.filter_filter]
        refine List.filter_congr fun b _ => ?_
        rw [← Bool.decide_and]
        exact decide_eq_decide.mpr (by omega)
      have hlast : (items.filter (key · < n + 1)).filter (fun b => !decide (key b < n)) =
          items.filter (key · = n) := by
        rw [List.filter_filter]
        refine List.filter_congr fun b _ => ?_
        rw [← decide_not, ← Bool.decide_and]
        exact decide_eq_decide.mpr (by omega)
      rw [List.range_succ, List.flatMap_append, List.flatMap_singleton, ← hlast]
      refine (ih.append_right _).trans ?_
      rw [← hbelow]
      exact List.filter_append_perm _ _

theorem zipIdx_map_range (f : Nat → β) (n : Nat) :
    ((List.range n).map f).zipIdx = (List.range n).map fun i => (f i, i) := by
  refine List.ext_getElem (by simp) fun k _ _ => ?_
  simp

namespace Coordinate

section Scans

variable {β : Type u}

/-- Moving on along a line takes the first of its entries that are left. -/
theorem advance_eq (line : Nat) (rest : List (Nat × Nat × β)) :
    (Scan.advance line rest).1 = ((rest.filter (·.1 = line)).map Prod.snd).head? ∧
      (Scan.advance line rest).2.line = line ∧
      ((Scan.advance line rest).2.rest.filter (·.1 = line)).map Prod.snd =
        ((rest.filter (·.1 = line)).map Prod.snd).tail := by
  fun_induction Scan.advance line rest with
  | case1 => exact ⟨rfl, rfl, rfl⟩
  | case2 minor x rest => simp
  | case3 major minor x rest hne ih => simpa [hne] using ih

/-- A scan delivers the entries of its line in the order it comes to them. -/
theorem toList_scan (line : Nat) (rest : List (Nat × Nat × β)) :
    Cursor.toList (⟨line, rest⟩ : Scan β) = (rest.filter (·.1 = line)).map Prod.snd := by
  refine Cursor.toList_eq_of_listing
    (fun s : Scan β => (s.rest.filter (·.1 = s.line)).map Prod.snd) ?_ ?_ ⟨line, rest⟩
  · rintro ⟨line, rest⟩
    exact (advance_eq line rest).1
  · rintro ⟨line, rest⟩
    obtain ⟨-, hline, hrest⟩ := advance_eq line rest
    change ((Scan.advance line rest).2.rest.filter
      (·.1 = (Scan.advance line rest).2.line)).map Prod.snd = _
    rw [hline]
    exact hrest

theorem toList_lines (count : Nat) (stored : List (Nat × Nat × β)) :
    Cursor.toList (⟨0, count, stored⟩ : Lines β) = (List.range count).map fun i => ⟨i, stored⟩ :=
  Cursor.toList_of_counting (fun k => (⟨k, count, stored⟩ : Lines β)) (fun i => ⟨i, stored⟩) count
    fun _ => rfl

end Scans

variable {α : Type} {m : Coordinate α}

theorem byRow_values (h : m.WellFormed) : m.byRow m.values.toList =
    m.items.map fun p => ((m.cellPosition p.2).1, (m.cellPosition p.2).2, p.1) :=
  toList_items h

theorem byCol_values (h : m.WellFormed) : m.byCol m.values.toList =
    m.items.map fun p => ((m.cellPosition p.2).2, (m.cellPosition p.2).1, p.1) :=
  zip_slots h.cols_size h.rows_size

theorem toList_rawIndexed_items (h : m.WellFormed) :
    Cursor.toList m.rawIndexed = m.items.map (entryAt m.cellPosition) :=
  (toList_indexed _ _ _).trans (entries_items h)

/-- Lines that were grouped take any scripts: all that could refuse one is an
access by place, and these lines have none. -/
theorem runGrouped_accepts {grouped : Except Fault (Items (List (Nat × Nat)))}
    {lines : Items (List (Nat × Nat))} (hgrouped : grouped = .ok lines)
    (scripts : List (LineScript α)) :
    ∃ replies, (m.runGrouped grouped scripts).1 = .ok replies := by
  subst hgrouped
  obtain ⟨lines⟩ := lines
  cases hrun : (m.runGrouped (.ok ⟨lines⟩) scripts).1 with
  | ok replies => exact ⟨replies, rfl⟩
  | error fault =>
      have hlines : (LineScript.runLines editLine scripts (⟨lines⟩ : Items _) m.values).1 =
          .error fault := hrun
      obtain ⟨line, -, script, -, values, -, hrefused⟩ :=
        LineScript.script_of_runLines (fun _ => True) editLine (fun _ _ _ _ => trivial) trivial
          hlines
      cases hrefused

/-- The lines of a matrix in one direction, `major` selecting the line of an
entry and `minor` its index there. The lines to be read are the entries of each
line in storage order; the lines to be written are as many and hand out the
same, each value once; and the lines joined are the storage in another order. -/
structure Partitioned (m : Coordinate α) (major minor : IndexedEntry α → Nat) (count : Nat)
    (lines : Lines α) (grouped : Except Fault (Items (List (Nat × Nat)))) : Prop where
  length_eq : (Cursor.toList lines).length = count
  lines_eq : (Cursor.toList lines).map Cursor.toList = (List.range count).map fun i =>
    ((Cursor.toList m.rawIndexed).filter (major · = i)).map fun e => (minor e, e.value)
  grouped_eq : ∃ cells, grouped = .ok cells ∧ (Cursor.toList cells).length = count ∧
    (Cursor.toList cells).map (·.map fun q => (q.1, m.values[q.2]?)) =
      (Cursor.toList lines).map fun line => (Cursor.toList line).map fun q => (q.1, some q.2)
  cells_perm : ∀ cells, grouped = .ok cells →
    ((Cursor.toList cells).flatten.map Prod.snd).Perm m.cells
  joined_perm : ((Cursor.toList lines).zipIdx.flatMap fun (line, i) =>
      (Cursor.toList line).map fun q => (i, q.1, q.2)).Perm
    ((Cursor.toList m.rawIndexed).map fun e => (major e, minor e, e.value))
  run_accepted : ∀ scripts, ∃ replies, (m.runGrouped grouped scripts).1 = .ok replies

/-- Entries that are scanned for and entries that are grouped by one and the
same number come to the same lines. -/
theorem toList_scan_items (key index : Nat × Nat → Nat) (i : Nat) :
    Cursor.toList (⟨i, m.items.map fun p =>
      (key (m.cellPosition p.2), index (m.cellPosition p.2), p.1)⟩ : Scan α) =
        (m.items.filter fun p => key (m.cellPosition p.2) = i).map fun p =>
          (index (m.cellPosition p.2), p.1) := by
  rw [toList_scan]
  simp only [List.filter_map, List.map_map, Function.comp_def]

/-- Numbered with its line, an item of it is stored under its key again. -/
theorem numbered_items (key index : Nat × Nat → Nat) (i : Nat) :
    ((m.items.filter fun p => key (m.cellPosition p.2) = i).map fun p =>
        (index (m.cellPosition p.2), p.1)).map (fun q => (i, q.1, q.2)) =
      (m.items.filter fun p => key (m.cellPosition p.2) = i).map fun p =>
        (key (m.cellPosition p.2), index (m.cellPosition p.2), p.1) := by
  rw [List.map_map]
  refine List.map_congr_left fun p hp => ?_
  have hkey : key (m.cellPosition p.2) = i := of_decide_eq_true (List.mem_filter.mp hp).2
  rw [hkey]
  rfl

/-- The lines together have every item once. -/
theorem items_joined_perm {key : Nat × Nat → Nat} {count : Nat}
    (hinside : ∀ p ∈ m.items, key (m.cellPosition p.2) < count) :
    ((List.range count).flatMap fun i =>
      m.items.filter fun p => key (m.cellPosition p.2) = i).Perm m.items := by
  have hall : m.items.filter (fun p => key (m.cellPosition p.2) < count) = m.items :=
    List.filter_eq_self.mpr fun p hp => decide_eq_true (hinside p hp)
  have hperm := flatMap_filter_perm (fun p => key (m.cellPosition p.2)) m.items count
  rwa [hall] at hperm

theorem partitioned (h : m.WellFormed) (key index : Nat × Nat → Nat) {count : Nat}
    (hinside : ∀ p ∈ m.items, key (m.cellPosition p.2) < count) :
    m.Partitioned (fun e => key (e.row, e.col)) (fun e => index (e.row, e.col)) count
      ⟨0, count, m.items.map fun p =>
        (key (m.cellPosition p.2), index (m.cellPosition p.2), p.1)⟩
      (groupLines count (m.items.map fun p =>
        (key (m.cellPosition p.2), index (m.cellPosition p.2), p.2))) := by
  obtain ⟨cells, hgrouped, hcells⟩ := groupLines_eq key index hinside
  have hlines := toList_lines count (m.items.map fun p =>
    (key (m.cellPosition p.2), index (m.cellPosition p.2), p.1))
  constructor
  · rw [hlines, List.length_map, List.length_range]
  · rw [hlines, List.map_map, toList_rawIndexed_items h]
    refine List.map_congr_left fun i _ => ?_
    rw [Function.comp_apply, toList_scan_items, List.filter_map, List.map_map]
    rfl
  · refine ⟨cells, hgrouped, ?_, ?_⟩
    · rw [hcells, List.length_map, List.length_range]
    · rw [hcells, hlines, List.map_map, List.map_map]
      refine List.map_congr_left fun i _ => ?_
      rw [Function.comp_apply, Function.comp_apply, toList_scan_items, List.map_map, List.map_map]
      refine List.map_congr_left fun p hp => ?_
      have hread := (read_array_iff m.values p.2 p.1).mpr (List.mem_filter.mp hp).1
      exact congrArg (Prod.mk _) hread
  · intro cells' hcells'
    cases hgrouped.symm.trans hcells'
    rw [hcells, cells_eq, ← List.flatMap_def, List.map_flatMap]
    simp only [List.map_map]
    rw [← List.map_flatMap]
    exact (items_joined_perm hinside).map Prod.snd
  · rw [hlines, zipIdx_map_range, List.flatMap_map, toList_rawIndexed_items h, List.map_map]
    simp only [toList_scan_items, numbered_items]
    rw [← List.map_flatMap]
    exact (items_joined_perm hinside).map _
  · exact runGrouped_accepts hgrouped

theorem rows_partitioned (h : m.WellFormed) :
    m.Partitioned (·.row) (·.col) m.nrows m.rows m.rowCells := by
  rw [rows, rowCells, byRow_values h, byRow_cells h]
  exact partitioned h Prod.fst Prod.snd fun p hp => (cellPosition_inside h hp).1

theorem cols_partitioned (h : m.WellFormed) :
    m.Partitioned (·.col) (·.row) m.ncols m.cols m.colCells := by
  rw [cols, colCells, byCol_values h, byCol_cells h]
  exact partitioned h Prod.snd Prod.fst fun p hp => (cellPosition_inside h hp).2

/-- The rows and the columns of a reachable matrix each partition its storage,
in storage order: line by line the entries with the number of the line, to be
read and to be written alike, and no position twice. -/
theorem lines_partition_storage (h : (Matrix.coordinate m).Reachable) :
    m.Partitioned (·.row) (·.col) m.nrows m.rows m.rowCells ∧
      m.Partitioned (·.col) (·.row) m.ncols m.cols m.colCells ∧
      (Cursor.toList m.rawIndexed).Pairwise fun a b => ¬ (a.row = b.row ∧ a.col = b.col) := by
  refine ⟨rows_partitioned h.wellFormed, cols_partitioned h.wellFormed, ?_⟩
  rw [rawIndexed, toList_indexed, List.pairwise_map]
  exact toList_distinct h.wellFormed

/-- Three entries, of which the first is erased: the last one takes its place. -/
def swappedOnce : Coordinate Nat :=
  ((((empty 2 3).store 0 1 5).store 1 2 7).store 1 0 6).discard 0 1

theorem swappedOnce_reachable : (Matrix.coordinate swappedOnce).Reachable := by
  have hbuilt : ofTriplets 2 3 [(0, 1, 5), (1, 2, 7), (1, 0, 6)] =
      .ok ((((empty 2 3).store 0 1 5).store 1 2 7).store 1 0 6) :=
    Matrix.coordinate_accepts_inside (by decide)
  have hwf := Matrix.triplets_wellFormed hbuilt
  have herase : (((((empty 2 3).store 0 1 5).store 1 2 7).store 1 0 6).erase 0 1) =
      (.ok (), swappedOnce) := erase_eq hwf (by simp [empty]) (by simp [empty])
  have hreached := (Matrix.Reachable.built (.triplets hbuilt)).written [] (.erase 0 1)
  simpa [View.chain, View.write, View.writable, View.erase, Matrix.erase, herase, View.modified,
    View.base] using hreached

theorem swappedOnce_lines : (Matrix.coordinate swappedOnce).Reachable ∧
    (Cursor.toList swappedOnce.rows).map Cursor.toList = [[], [(0, 6), (2, 7)]] ∧
    (Cursor.toList swappedOnce.cols).map Cursor.toList = [[(1, 6)], [], [(1, 7)]] := by
  obtain ⟨hrows, hcols, -⟩ := lines_partition_storage swappedOnce_reachable
  have hstored : Cursor.toList swappedOnce.rawIndexed = [⟨1, 0, 6⟩, ⟨1, 2, 7⟩] := by
    rw [rawIndexed, toList_indexed]
    simp [swappedOnce, empty, store, discard, swapRemoved, Std.ExtHashMap.getElem_insert]
  have hdims : swappedOnce.nrows = 2 ∧ swappedOnce.ncols = 3 := by simp [swappedOnce, empty]
  refine ⟨swappedOnce_reachable, ?_, ?_⟩
  · rw [hrows.lines_eq, hstored, hdims.1]
    rfl
  · rw [hcols.lines_eq, hstored, hdims.2]
    rfl

end Coordinate

end TransposedViews
