import TransposedViews.Proofs.Reachable

/-!
The frame of entry traversals. Access through a view exchanges row and column
once for every transposition in the chain. The traversal of the entries
exchanges them once for the outermost transposition only, since the raw
traversal below it is passed on as it is. The two agree where the number of
transpositions is odd, and elsewhere only for a symmetric matrix.
-/

namespace TransposedViews

namespace View

variable {α : Type}

/-- The number of transpositions in the chain. -/
def depth : View α → Nat
  | .whole _ => 0
  | .transposed _ v => v.depth + 1

theorem depth_foldl (v : View α) (accesses : List Access) :
    (accesses.foldl (fun v access => .transposed access v) v).depth =
      v.depth + accesses.length := by
  induction accesses generalizing v with
  | nil => rfl
  | cons access rest ih =>
      have hrest := ih (.transposed access v)
      simp only [depth] at hrest
      simp only [List.foldl_cons, List.length_cons, hrest]
      omega

theorem depth_chain (m : Matrix α) (accesses : List Access) :
    (chain m accesses).depth = accesses.length := by
  rw [chain, depth_foldl, depth, Nat.zero_add]

/-- Whether the frame of a view is the one of its base. -/
def Aligned (v : View α) : Prop := v.depth % 2 = 0

theorem aligned_transposed (access : Access) (v : View α) :
    (transposed access v).Aligned ↔ ¬ v.Aligned := by
  simp only [Aligned, depth]
  omega

theorem rawIndexed_base (v : View α) : v.rawIndexed = v.base.rawIndexed := by
  induction v with
  | whole m => rfl
  | transposed access v ih => exact ih

/-- A view of even depth is read like its base, one of odd depth with rows and
columns exchanged. -/
theorem frame (v : View α) :
    (v.Aligned → v.nrows = v.base.nrows ∧ v.ncols = v.base.ncols ∧
      ∀ i j, v.entry i j = v.base.entry i j) ∧
    (¬ v.Aligned → v.nrows = v.base.ncols ∧ v.ncols = v.base.nrows ∧
      ∀ i j, v.entry i j = v.base.entry j i) := by
  induction v with
  | whole m =>
      constructor
      · intro _
        exact ⟨rfl, rfl, fun _ _ => rfl⟩
      · intro hodd
        exact absurd rfl hodd
  | transposed access v ih =>
      rw [aligned_transposed, not_not]
      constructor
      · intro hodd
        obtain ⟨hrows, hcols, hentry⟩ := ih.2 hodd
        exact ⟨hcols, hrows, fun i j => hentry j i⟩
      · intro heven
        obtain ⟨hrows, hcols, hentry⟩ := ih.1 heven
        exact ⟨hcols, hrows, fun i j => hentry j i⟩

/-- A list of entries in the frame of a view: each one is inside the view and
is what the view reads there, and every stored position of the view comes
exactly once. -/
structure ListsInFrame (v : View α) (entries : List (IndexedEntry α)) : Prop where
  inside : ∀ e ∈ entries, e.row < v.nrows ∧ e.col < v.ncols
  read : ∀ e ∈ entries, v.entry e.row e.col = .ok (some e.value)
  complete : ∀ i j x, v.entry i j = .ok (some x) → ⟨i, j, x⟩ ∈ entries
  distinct : entries.Pairwise (fun a b => ¬ (a.row = b.row ∧ a.col = b.col))

end View

namespace Matrix

variable {α : Type} {m : Matrix α}

/-- Whatever is stored is stored across the diagonal too. -/
def Symmetric (m : Matrix α) : Prop :=
  ∀ i j x, m.entry i j = .ok (some x) → m.entry j i = .ok (some x)

theorem entry_eq_some_iff (h : m.WellFormed) (i j : Nat) (x : α) :
    m.entry i j = .ok (some x) ↔ m.lookup i j = some x := by
  constructor
  · intro hentry
    by_cases hinside : i < m.nrows ∧ j < m.ncols
    · rw [entry_inside h hinside.1 hinside.2] at hentry
      exact Except.ok.inj hentry
    · rw [entry_outside m hinside] at hentry
      cases hentry
  · intro hlookup
    obtain ⟨hi, hj⟩ := lookup_inside h hlookup
    rw [entry_inside h hi hj, hlookup]

/-- The raw traversal with positions exchanged lists what is stored across the
diagonal. -/
theorem mem_exchanged (h : m.WellFormed) (e : IndexedEntry α) :
    e ∈ (Cursor.toList m.rawIndexed).map IndexedEntry.transposed ↔
      m.entry e.col e.row = .ok (some e.value) := by
  rw [entry_eq_some_iff h, ← mem_rawIndexed h, List.mem_map]
  constructor
  · rintro ⟨e, hmem, rfl⟩
    exact hmem
  · intro hmem
    exact ⟨_, hmem, rfl⟩

end Matrix

namespace View

variable {α : Type} {v : View α} {m : Matrix α}

theorem exchanged_distinct (h : m.WellFormed) :
    ((Cursor.toList m.rawIndexed).map IndexedEntry.transposed).Pairwise
      (fun a b => ¬ (a.row = b.row ∧ a.col = b.col)) := by
  refine List.pairwise_map.mpr ((Matrix.rawIndexed_distinct h).imp ?_)
  intro a b hne heq
  exact hne heq.symm

theorem inside_of_entry {i j : Nat} {x : α} (hentry : m.entry i j = .ok (some x)) :
    i < m.nrows ∧ j < m.ncols := by
  by_contra houtside
  rw [Matrix.entry_outside m houtside] at hentry
  cases hentry

/-- Where the view is read across the diagonal of its base, entries exchanged
once are in its frame. -/
theorem lists_of_odd (h : v.base.WellFormed) (hodd : ¬ v.Aligned) :
    v.ListsInFrame ((Cursor.toList v.base.rawIndexed).map IndexedEntry.transposed) := by
  obtain ⟨hrows, hcols, hentry⟩ := v.frame.2 hodd
  refine ⟨?_, ?_, ?_, exchanged_distinct h⟩
  · intro e he
    have hinside := inside_of_entry ((Matrix.mem_exchanged h e).mp he)
    rw [hrows, hcols]
    exact hinside.symm
  · intro e he
    rw [hentry]
    exact (Matrix.mem_exchanged h e).mp he
  · intro i j x hx
    rw [hentry] at hx
    exact (Matrix.mem_exchanged h ⟨i, j, x⟩).mpr hx

/-- Where the view is read like its base, they are so just for a symmetric
base. -/
theorem lists_iff_of_even (h : v.base.WellFormed) (heven : v.Aligned) :
    v.ListsInFrame ((Cursor.toList v.base.rawIndexed).map IndexedEntry.transposed) ↔
      v.base.Symmetric := by
  obtain ⟨hrows, hcols, hentry⟩ := v.frame.1 heven
  constructor
  · intro hlists i j x hx
    have hlisted := hlists.read ⟨j, i, x⟩ ((Matrix.mem_exchanged h ⟨j, i, x⟩).mpr hx)
    rwa [hentry] at hlisted
  · intro hsymmetric
    refine ⟨?_, ?_, ?_, exchanged_distinct h⟩
    · intro e he
      have hacross := hsymmetric _ _ _ ((Matrix.mem_exchanged h e).mp he)
      rw [hrows, hcols]
      exact inside_of_entry hacross
    · intro e he
      rw [hentry]
      exact hsymmetric _ _ _ ((Matrix.mem_exchanged h e).mp he)
    · intro i j x hx
      rw [hentry] at hx
      exact (Matrix.mem_exchanged h ⟨i, j, x⟩).mpr (hsymmetric i j x hx)

/-- The entries of a view over a chain of transpositions are in its own frame
exactly if their number is odd or the matrix below is symmetric. -/
theorem entries_in_frame_iff (h : m.Reachable) (accesses : List Access) (hne : accesses ≠ []) :
    ∃ cursor, (chain m accesses).entries? = some cursor ∧
      ((chain m accesses).ListsInFrame (Cursor.toList cursor) ↔
        accesses.length % 2 = 1 ∨ m.Symmetric) := by
  have hbase : (chain m accesses).base = m := base_chain m accesses
  have hdepth : (chain m accesses).depth = accesses.length := depth_chain m accesses
  have hpositive : 0 < accesses.length := List.length_pos_iff.mpr hne
  generalize chain m accesses = v at hbase hdepth
  cases v with
  | whole _ =>
      simp only [depth] at hdepth
      omega
  | transposed access inner =>
      refine ⟨_, rfl, ?_⟩
      have hlist : Cursor.toList (⟨inner.rawIndexed, IndexedEntry.transposed⟩ :
          Mapped (Matrix.RawIndexed α) (IndexedEntry α) (IndexedEntry α)) =
            (Cursor.toList (transposed access inner).base.rawIndexed).map
              IndexedEntry.transposed := by
        rw [Cursor.toList_mapped, rawIndexed_base]
        rfl
      have hwf : (transposed access inner).base.WellFormed := hbase ▸ h.wellFormed
      rw [hlist, ← hdepth, ← hbase]
      by_cases heven : (transposed access inner).Aligned
      · rw [lists_iff_of_even hwf heven]
        have hparity : ¬ (transposed access inner).depth % 2 = 1 := by
          unfold Aligned at heven
          omega
        simp only [hparity, false_or]
      · have hparity : (transposed access inner).depth % 2 = 1 := by
          unfold Aligned at heven
          omega
        simp only [hparity, true_or, iff_true]
        exact lists_of_odd hwf heven

/-- A matrix of two rows and three columns that stores its upper right corner
alone. -/
def cornerOnly : Matrix Nat := .row ⟨(SparseLines.empty 2 3).store 0 2 5⟩

theorem cornerOnly_reachable : cornerOnly.Reachable := by
  have hbuilt : RowMatrix.ofTriplets 2 3 [(0, 2, 5)] =
      .ok ⟨(SparseLines.empty 2 3).store 0 2 5⟩ := rfl
  exact .built (.rowTriplets hbuilt)

theorem entries_in_frame_of_one_view :
    cornerOnly.Reachable ∧ ∃ cursor, (chain cornerOnly [.shared]).entries? = some cursor ∧
      (chain cornerOnly [.shared]).ListsInFrame (Cursor.toList cursor) := by
  obtain ⟨cursor, hcursor, hiff⟩ := entries_in_frame_iff cornerOnly_reachable [.shared] (by simp)
  exact ⟨cornerOnly_reachable, cursor, hcursor, hiff.mpr (Or.inl rfl)⟩

/-- Two transpositions give the frame of the matrix back, and its entries are
listed in the other one, at a position that the view does not have. -/
theorem entries_out_of_frame_of_two_views :
    cornerOnly.Reachable ∧ ∃ cursor, (chain cornerOnly [.shared, .shared]).entries? = some cursor ∧
      (chain cornerOnly [.shared, .shared]).entry 0 2 = .ok (some 5) ∧
      ⟨2, 0, 5⟩ ∈ Cursor.toList cursor ∧ (chain cornerOnly [.shared, .shared]).nrows = 2 ∧
      ¬ (chain cornerOnly [.shared, .shared]).ListsInFrame (Cursor.toList cursor) := by
  have hlisted : ⟨2, 0, 5⟩ ∈ Cursor.toList (⟨cornerOnly.rawIndexed, IndexedEntry.transposed⟩ :
      Mapped (Matrix.RawIndexed Nat) (IndexedEntry Nat) (IndexedEntry Nat)) := by
    rw [Cursor.toList_mapped, Matrix.mem_exchanged cornerOnly_reachable.wellFormed]
    rfl
  refine ⟨cornerOnly_reachable, _, rfl, rfl, hlisted, rfl, ?_⟩
  intro hlists
  have hinside := (hlists.inside _ hlisted).1
  exact absurd hinside (by decide)

end View

end TransposedViews
