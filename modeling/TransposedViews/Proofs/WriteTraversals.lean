import TransposedViews.Proofs.LineWriting

namespace TransposedViews

namespace Matrix

variable {α : Type} {m : Matrix α}

/-- How the rows of a matrix are written, if its storage is traversed by
rows. -/
def rowWriters : Matrix α → List LineWriter
  | .dense _ => [.slice]
  | .row _ => [.walk, .consume]
  | .col _ => []
  | .coordinate _ => [.pairs]

/-- How the columns of a matrix are written, if its storage is traversed by
columns. -/
def colWriters : Matrix α → List LineWriter
  | .dense _ => [.values]
  | .row _ => []
  | .col _ => [.walk, .consume]
  | .coordinate _ => [.pairs]

section Prefixes

theorem runIndexed_overwrites (h : m.WellFormed) (f : Nat → Nat → α → α) (n : Nat) :
    m.runIndexed (replacements f ((Cursor.toList m.rawIndexed).take n)) =
      (reports id ((Cursor.toList m.rawIndexed).take n),
        m.overwritten f ((Cursor.toList m.rawIndexed).take n)) := by
  cases m with
  | dense m =>
      have hrun := Dense.runIndexed_overwrites h (rawIndexed_dense_items m) f n
      exact congrArg (fun run => (run.1, dense run.2)) hrun
  | row m =>
      have hrun := SparseLines.runScript_overwrites h Function.injective_id
        (rawIndexed_row_items h) id f n
      exact congrArg (fun run => (run.1, row ⟨run.2⟩)) hrun
  | col m =>
      have hrun := SparseLines.runScript_overwrites h Prod.swap_injective
        (rawIndexed_col_items h) id f n
      exact congrArg (fun run => (run.1, col ⟨run.2⟩)) hrun
  | coordinate m =>
      have hrun := Coordinate.runIndexed_overwrites h (rawIndexed_coordinate_items h) f n
      exact congrArg (fun run => (run.1, coordinate run.2)) hrun

theorem runRaw_overwrites (h : m.WellFormed) (f : Nat → Nat → α → α) (n : Nat) :
    m.runRaw (replacements f ((Cursor.toList m.rawIndexed).take n)) =
      (reports (fun _ => ()) ((Cursor.toList m.rawIndexed).take n),
        m.overwritten f ((Cursor.toList m.rawIndexed).take n)) := by
  cases m with
  | dense m =>
      have hrun := Dense.runRaw_overwrites h (rawIndexed_dense_items m) f n
      exact congrArg (fun run => (run.1, dense run.2)) hrun
  | row m =>
      have hrun := SparseLines.runScript_overwrites h Function.injective_id
        (rawIndexed_row_items h) (fun _ => ()) f n
      exact congrArg (fun run => (run.1, row ⟨run.2⟩)) hrun
  | col m =>
      have hrun := SparseLines.runScript_overwrites h Prod.swap_injective
        (rawIndexed_col_items h) (fun _ => ()) f n
      exact congrArg (fun run => (run.1, col ⟨run.2⟩)) hrun
  | coordinate m =>
      have hrun := Coordinate.runRaw_overwrites h (rawIndexed_coordinate_items h) f n
      exact congrArg (fun run => (run.1, coordinate run.2)) hrun

theorem runRows?_overwrites (h : m.WellFormed) (f : Nat → Nat → α → α) {writer : LineWriter}
    (hwriter : writer ∈ m.rowWriters) (count : Nat → Nat) {k : Nat} (hk : k ≤ m.nrows) :
    ∃ left, m.runRows?
        (writer.scripts Prod.fst Prod.snd f (Cursor.toList m.rawIndexed) count k) =
      some (.ok (writer.lineReplies Prod.fst Prod.snd (Cursor.toList m.rawIndexed) count k, left),
        m.overwritten f (lineParts Prod.fst (Cursor.toList m.rawIndexed) count k)) := by
  cases m with
  | dense m =>
      obtain rfl : writer = .slice := List.mem_singleton.mp hwriter
      obtain ⟨left, hrun⟩ := Dense.runRows_overwrites h (rawIndexed_dense_items m) f count hk
      exact ⟨left, congrArg (fun run : LineReplies α × Dense α => some (run.1, dense run.2)) hrun⟩
  | row m =>
      have hwriter' : writer = .walk ∨ writer = .consume := by simpa [rowWriters] using hwriter
      obtain ⟨left, hrun⟩ := SparseLines.runLines_overwrites h Function.injective_id
        (rawIndexed_row_items h) Prod.fst Prod.snd (fun _ => rfl) (fun _ => rfl) f hwriter' count hk
      exact ⟨left,
        congrArg (fun run : LineReplies α × SparseLines α => some (run.1, row ⟨run.2⟩)) hrun⟩
  | col m => cases hwriter
  | coordinate m =>
      obtain rfl : writer = .pairs := List.mem_singleton.mp hwriter
      obtain ⟨left, hrun⟩ :=
        Coordinate.runRows_overwrites h (rawIndexed_coordinate_items h) f count hk
      exact ⟨left,
        congrArg (fun run : LineReplies α × Coordinate α => some (run.1, coordinate run.2)) hrun⟩

theorem runCols?_overwrites (h : m.WellFormed) (f : Nat → Nat → α → α) {writer : LineWriter}
    (hwriter : writer ∈ m.colWriters) (count : Nat → Nat) {k : Nat} (hk : k ≤ m.ncols) :
    ∃ left, m.runCols?
        (writer.scripts Prod.snd Prod.fst f (Cursor.toList m.rawIndexed) count k) =
      some (.ok (writer.lineReplies Prod.snd Prod.fst (Cursor.toList m.rawIndexed) count k, left),
        m.overwritten f (lineParts Prod.snd (Cursor.toList m.rawIndexed) count k)) := by
  cases m with
  | dense m =>
      obtain rfl : writer = .values := List.mem_singleton.mp hwriter
      obtain ⟨left, hrun⟩ := Dense.runCols_overwrites h (rawIndexed_dense_items m) f count hk
      exact ⟨left, congrArg (fun run : LineReplies α × Dense α => some (run.1, dense run.2)) hrun⟩
  | row m => cases hwriter
  | col m =>
      have hwriter' : writer = .walk ∨ writer = .consume := by simpa [colWriters] using hwriter
      obtain ⟨left, hrun⟩ := SparseLines.runLines_overwrites h Prod.swap_injective
        (rawIndexed_col_items h) Prod.snd Prod.fst (fun _ => rfl) (fun _ => rfl) f hwriter' count hk
      exact ⟨left,
        congrArg (fun run : LineReplies α × SparseLines α => some (run.1, col ⟨run.2⟩)) hrun⟩
  | coordinate m =>
      obtain rfl : writer = .pairs := List.mem_singleton.mp hwriter
      obtain ⟨left, hrun⟩ :=
        Coordinate.runCols_overwrites h (rawIndexed_coordinate_items h) f count hk
      exact ⟨left,
        congrArg (fun run : LineReplies α × Coordinate α => some (run.1, coordinate run.2)) hrun⟩

end Prefixes

section Completion

/-- Rows and columns that no traversal comes to are not there. -/
theorem rowWriters_eq_nil_iff (m : Matrix α) (scripts : List (LineScript α)) :
    m.rowWriters = [] ↔ m.runRows? scripts = none := by
  cases m <;> simp [rowWriters, runRows?]

theorem colWriters_eq_nil_iff (m : Matrix α) (scripts : List (LineScript α)) :
    m.colWriters = [] ↔ m.runCols? scripts = none := by
  cases m <;> simp [colWriters, runCols?]

/-- All lines, each as far as any line goes, are all entries. -/
theorem subset_lineParts {key : Nat × Nat → Nat} {entries : List (IndexedEntry α)} {number : Nat}
    (hinside : ∀ e ∈ entries, key e.position < number) {count : Nat → Nat}
    (hcount : ∀ i, entries.length ≤ count i) : entries ⊆ lineParts key entries count number := by
  intro e he
  refine List.mem_flatMap.mpr ⟨key e.position, List.mem_range.mpr (hinside e he), ?_⟩
  have hlength := List.length_filter_le (fun e' => key e'.position = key e.position) entries
  rw [linePart, List.take_of_length_le (Nat.le_trans hlength (hcount _))]
  exact List.mem_filter.mpr ⟨he, decide_eq_true rfl⟩

theorem position_inside (h : m.WellFormed) {e : IndexedEntry α}
    (he : e ∈ Cursor.toList m.rawIndexed) : e.row < m.nrows ∧ e.col < m.ncols :=
  lookup_inside h ((mem_rawIndexed h e.row e.col e.value).mp he)

theorem positions_nodup (h : m.WellFormed) :
    ((Cursor.toList m.rawIndexed).map IndexedEntry.position).Nodup := by
  refine List.pairwise_map.mpr ((rawIndexed_distinct h).imp fun hne heq => hne ?_)
  have hrow := congrArg Prod.fst heq
  have hcol := congrArg Prod.snd heq
  exact ⟨hrow, hcol⟩

theorem isSome_lookup_of_mem (h : m.WellFormed) {p : Nat × Nat}
    (hp : p ∈ (Cursor.toList m.rawIndexed).map IndexedEntry.position) :
    (m.lookup p.1 p.2).isSome = true := by
  obtain ⟨e, he, rfl⟩ := List.mem_map.mp hp
  have hlookup := (mem_rawIndexed h e.row e.col e.value).mp he
  exact Option.isSome_iff_exists.mpr ⟨e.value, hlookup⟩

end Completion

/-- All ways of overwriting every entry lead to one matrix, and the traversals
report each entry as it was. Keyed access may take the positions in any
order. -/
structure WritesAgree (m : Matrix α) (f : Nat → Nat → α → α) (entries : List (IndexedEntry α)) :
    Prop where
  indexed : m.runIndexed (replacements f entries) = (reports id entries, m.overwritten f entries)
  raw : m.runRaw (replacements f entries) =
    (reports (fun _ => ()) entries, m.overwritten f entries)
  rows : ∀ writer ∈ m.rowWriters, ∃ left,
    m.runRows? (writer.scripts Prod.fst Prod.snd f entries (fun _ => m.nnz) m.nrows) =
      some (.ok (writer.lineReplies Prod.fst Prod.snd entries (fun _ => m.nnz) m.nrows, left),
        m.overwritten f entries)
  cols : ∀ writer ∈ m.colWriters, ∃ left,
    m.runCols? (writer.scripts Prod.snd Prod.fst f entries (fun _ => m.nnz) m.ncols) =
      some (.ok (writer.lineReplies Prod.snd Prod.fst entries (fun _ => m.nnz) m.ncols, left),
        m.overwritten f entries)
  keyed : ∀ order, order.Perm (entries.map IndexedEntry.position) →
    rewriteEach f order m = (.ok (), m.overwritten f entries)
  rows_supported : ∀ scripts, m.rowWriters = [] ↔ m.runRows? scripts = none
  cols_supported : ∀ scripts, m.colWriters = [] ↔ m.runCols? scripts = none

/-- Stopped on the way, they have overwritten what they came to: the first
entries, the first entries of each of the first lines, or any entries accessed
by key. -/
structure PrefixesOverwrite (m : Matrix α) (f : Nat → Nat → α → α)
    (entries : List (IndexedEntry α)) : Prop where
  indexed : ∀ n, m.runIndexed (replacements f (entries.take n)) =
    (reports id (entries.take n), m.overwritten f (entries.take n))
  raw : ∀ n, m.runRaw (replacements f (entries.take n)) =
    (reports (fun _ => ()) (entries.take n), m.overwritten f (entries.take n))
  rows : ∀ writer ∈ m.rowWriters, ∀ count k, k ≤ m.nrows → ∃ left,
    m.runRows? (writer.scripts Prod.fst Prod.snd f entries count k) =
      some (.ok (writer.lineReplies Prod.fst Prod.snd entries count k, left),
        m.overwritten f (lineParts Prod.fst entries count k))
  cols : ∀ writer ∈ m.colWriters, ∀ count k, k ≤ m.ncols → ∃ left,
    m.runCols? (writer.scripts Prod.snd Prod.fst f entries count k) =
      some (.ok (writer.lineReplies Prod.snd Prod.fst entries count k, left),
        m.overwritten f (lineParts Prod.snd entries count k))
  keyed : ∀ visited, visited ⊆ entries → (visited.map IndexedEntry.position).Nodup →
    rewriteEach f (visited.map IndexedEntry.position) m = (.ok (), m.overwritten f visited)

/-- What changes if some entries are overwritten, and what does not. -/
structure OverwritesOnly (m : Matrix α) (f : Nat → Nat → α → α) (visited : List (IndexedEntry α))
    (m' : Matrix α) : Prop where
  kind_eq : m'.kind = m.kind
  nrows_eq : m'.nrows = m.nrows
  ncols_eq : m'.ncols = m.ncols
  nnz_eq : m'.nnz = m.nnz
  positions_eq : (Cursor.toList m'.rawIndexed).map IndexedEntry.position =
    (Cursor.toList m.rawIndexed).map IndexedEntry.position
  entry_visited : ∀ e ∈ visited, m'.entry e.row e.col = .ok (some (f e.row e.col e.value))
  entry_other : ∀ i j, (i, j) ∉ visited.map IndexedEntry.position → m'.entry i j = m.entry i j

theorem prefixesOverwrite (h : m.WellFormed) (f : Nat → Nat → α → α) :
    m.PrefixesOverwrite f (Cursor.toList m.rawIndexed) where
  indexed := runIndexed_overwrites h f
  raw := runRaw_overwrites h f
  rows _ hwriter count _ hk := runRows?_overwrites h f hwriter count hk
  cols _ hwriter count _ hk := runCols?_overwrites h f hwriter count hk
  keyed visited hsub hnodup := by
    refine rewriteEach_eq h f hnodup fun p hp => isSome_lookup_of_mem h ?_
    exact List.map_subset IndexedEntry.position hsub hp

theorem writesAgree (h : m.WellFormed) (f : Nat → Nat → α → α) :
    m.WritesAgree f (Cursor.toList m.rawIndexed) where
  indexed := by
    have hrun := runIndexed_overwrites h f (Cursor.toList m.rawIndexed).length
    rwa [List.take_length] at hrun
  raw := by
    have hrun := runRaw_overwrites h f (Cursor.toList m.rawIndexed).length
    rwa [List.take_length] at hrun
  rows writer hwriter := by
    have hall : Cursor.toList m.rawIndexed ⊆
        lineParts Prod.fst (Cursor.toList m.rawIndexed) (fun _ => m.nnz) m.nrows :=
      subset_lineParts (fun e he => (position_inside h he).1)
        fun _ => Nat.le_of_eq (nnz_eq_length h).symm
    rw [overwritten_eq_mapEntries h f (List.Subset.refl _), ← overwritten_eq_mapEntries h f hall]
    exact runRows?_overwrites h f hwriter _ (Nat.le_refl _)
  cols writer hwriter := by
    have hall : Cursor.toList m.rawIndexed ⊆
        lineParts Prod.snd (Cursor.toList m.rawIndexed) (fun _ => m.nnz) m.ncols :=
      subset_lineParts (fun e he => (position_inside h he).2)
        fun _ => Nat.le_of_eq (nnz_eq_length h).symm
    rw [overwritten_eq_mapEntries h f (List.Subset.refl _), ← overwritten_eq_mapEntries h f hall]
    exact runCols?_overwrites h f hwriter _ (Nat.le_refl _)
  keyed order hperm := by
    have hstored : ∀ p ∈ order, (m.lookup p.1 p.2).isSome = true := fun p hp =>
      isSome_lookup_of_mem h (hperm.subset hp)
    rw [rewriteEach_eq h f (hperm.nodup_iff.mpr (positions_nodup h)) hstored]
    refine Prod.ext rfl (mapEntries_congr h fun e he => ?_)
    have hmem := List.mem_map_of_mem (f := IndexedEntry.position) he
    exact (overwriting_of_mem (hperm.mem_iff.mpr hmem) e.value).trans
      (overwriting_of_mem hmem e.value).symm
  rows_supported := rowWriters_eq_nil_iff m
  cols_supported := colWriters_eq_nil_iff m

theorem overwritesOnly (h : m.WellFormed) (f : Nat → Nat → α → α) {visited : List (IndexedEntry α)}
    (hsub : visited ⊆ Cursor.toList m.rawIndexed) :
    m.OverwritesOnly f visited (m.overwritten f visited) where
  kind_eq := kind_mapEntries _ m
  nrows_eq := nrows_mapEntries _ m
  ncols_eq := ncols_mapEntries _ m
  nnz_eq := nnz_mapEntries h _
  positions_eq := by
    rw [overwritten, toList_rawIndexed_mapEntries h, List.map_map]
    rfl
  entry_visited e he := by
    have hentry := (entry_eq_some_iff h e.row e.col e.value).mpr
      ((mem_rawIndexed h e.row e.col e.value).mp (hsub he))
    have hmem := List.mem_map_of_mem (f := IndexedEntry.position) he
    rw [overwritten, entry_mapEntries h, hentry]
    exact congrArg (fun x => Except.ok (some x)) (overwriting_of_mem hmem e.value)
  entry_other i j hnot := by
    have hkept : Option.map (overwriting f (visited.map IndexedEntry.position) i j) = id := by
      funext x
      cases x with
      | none => rfl
      | some x => exact congrArg some (overwriting_of_not_mem hnot x)
    rw [overwritten, entry_mapEntries h, hkept]
    cases m.entry i j <;> rfl

/-- Overwriting all entries leads to one matrix whichever traversal or order of
access is chosen, and every prefix overwrites the entries it came to and
nothing else: dimensions, number of entries, stored positions and their order
stay. -/
theorem write_traversals_agree (h : m.Reachable) (f : Nat → Nat → α → α) :
    m.WritesAgree f (Cursor.toList m.rawIndexed) ∧
      m.PrefixesOverwrite f (Cursor.toList m.rawIndexed) ∧
      ∀ visited, visited ⊆ Cursor.toList m.rawIndexed →
        m.OverwritesOnly f visited (m.overwritten f visited) :=
  ⟨writesAgree h.wellFormed f, prefixesOverwrite h.wellFormed f,
    fun _ hsub => overwritesOnly h.wellFormed f hsub⟩

/-- A dense matrix of two rows and three columns. -/
def countedToSix : Dense Nat := ⟨2, 3, #[1, 2, 3, 4, 5, 6]⟩

/-- Written column by column, its values are weighed by the positions that the
rows have too. -/
theorem countedToSix_weighed :
    (dense countedToSix).Reachable ∧
      (∃ left, (dense countedToSix).runCols?
          [[.next (some 1), .next (some 104)], [.next (some 12), .next (some 115)],
            [.next (some 23), .next (some 126)]] =
        some (.ok ([[.item (.value 1), .item (.value 4)], [.item (.value 2), .item (.value 5)],
            [.item (.value 3), .item (.value 6)]], left),
          dense ⟨2, 3, #[1, 12, 23, 104, 115, 126]⟩)) ∧
      ∃ left, (dense countedToSix).runRows?
          [[.set 0 1, .set 1 12, .set 2 23], [.set 0 104, .set 1 115, .set 2 126]] =
        some (.ok ([[.value (some 1), .value (some 2), .value (some 3)],
            [.value (some 4), .value (some 5), .value (some 6)]], left),
          dense ⟨2, 3, #[1, 12, 23, 104, 115, 126]⟩) := by
  have hbuilt : Dense.ofArray 2 3 #[1, 2, 3, 4, 5, 6] = .ok countedToSix := rfl
  have hreachable : (dense countedToSix).Reachable := .built (.rowMajor hbuilt)
  have hentries : Cursor.toList (dense countedToSix).rawIndexed =
      [⟨0, 0, 1⟩, ⟨0, 1, 2⟩, ⟨0, 2, 3⟩, ⟨1, 0, 4⟩, ⟨1, 1, 5⟩, ⟨1, 2, 6⟩] := by
    rw [toList_rawIndexed_dense, Dense.toList_rawIndexed]
    rfl
  obtain ⟨hagree, -, -⟩ := write_traversals_agree hreachable fun i j x => 100 * i + 10 * j + x
  rw [hentries] at hagree
  exact ⟨hreachable, hagree.cols .values (List.mem_singleton.mpr rfl),
    hagree.rows .slice (List.mem_singleton.mpr rfl)⟩

end Matrix

end TransposedViews
