import Mathlib.Data.Finmap
import TransposedViews.Proofs.Reachable

namespace TransposedViews

section Lookup

variable {κ : Type u} {β : Type v} [DecidableEq κ] (f : Finmap fun _ : κ => β)

theorem lookup_insert_eq_ite (k l : κ) (x : β) :
    (f.insert k x).lookup l = if l = k then some x else f.lookup l := by
  split
  · next heq =>
      subst heq
      exact Finmap.lookup_insert f
  · next hne => exact Finmap.lookup_insert_of_ne f hne

theorem lookup_erase_eq_ite (k l : κ) :
    (f.erase k).lookup l = if l = k then none else f.lookup l := by
  split
  · next heq =>
      subst heq
      exact Finmap.lookup_erase l f
  · next hne => exact Finmap.lookup_erase_ne hne

end Lookup

/-- A finite map from positions to values. -/
abbrev EntryMap (α : Type) := Finmap fun _ : Nat × Nat => α

/-- Setting or erasing the entry at one position. -/
inductive Edit (α : Type) where
  | set (i j : Nat) (x : α)
  | erase (i j : Nat)
  deriving DecidableEq, Repr

namespace Edit

variable {α : Type}

def row : Edit α → Nat
  | .set i _ _ => i
  | .erase i _ => i

def col : Edit α → Nat
  | .set _ j _ => j
  | .erase _ j => j

def writing : Edit α → Writing α
  | .set i j x => .set i j x
  | .erase i j => .erase i j

def onMap (f : EntryMap α) : Edit α → EntryMap α
  | .set i j x => f.insert (i, j) x
  | .erase i j => f.erase (i, j)

end Edit

namespace EntryMap

variable {α : Type}

/-- Triplets from left to right, later ones overwriting earlier ones. -/
def ofTriplets (triplets : List (Triplet α)) : EntryMap α :=
  triplets.foldl (fun f t => f.insert (t.1, t.2.1) t.2.2) ∅

/-- Edits from left to right, those outside the dimensions skipped. -/
def edited (nrows ncols : Nat) (f : EntryMap α) (edits : List (Edit α)) : EntryMap α :=
  edits.foldl (fun f e => if e.row < nrows ∧ e.col < ncols then e.onMap f else f) f

theorem lookup_insert_ite (f : EntryMap α) (i j : Nat) (x : α) (a b : Nat) :
    (f.insert (i, j) x).lookup (a, b) = if a = i ∧ b = j then some x else f.lookup (a, b) := by
  simp only [lookup_insert_eq_ite, Prod.mk.injEq]

theorem lookup_erase_ite (f : EntryMap α) (i j a b : Nat) :
    (f.erase (i, j)).lookup (a, b) = if a = i ∧ b = j then none else f.lookup (a, b) := by
  simp only [lookup_erase_eq_ite, Prod.mk.injEq]

end EntryMap

namespace Matrix

variable {α : Type}

/-- Edits from left to right. A refused one leaves the matrix as it is. -/
def edited (m : Matrix α) (edits : List (Edit α)) : Matrix α :=
  edits.foldl (fun m e => ((View.whole m).write e.writing).2.base) m

/-- A well-formed matrix that is able to forget entries and whose lookups are
those of a map. -/
structure Represents (m : Matrix α) (f : EntryMap α) : Prop where
  wellFormed : m.WellFormed
  forgets : m.kind ≠ .dense
  lookup_eq : ∀ i j, m.lookup i j = f.lookup (i, j)

section Steps

variable {m : Matrix α} {f : EntryMap α}

/-- An edit inside the matrix is carried out and followed by the map. -/
theorem Represents.edit_inside (h : m.Represents f) (e : Edit α) (hi : e.row < m.nrows)
    (hj : e.col < m.ncols) :
    ∃ m', (View.whole m).write e.writing = (.ok .done, .whole m') ∧ m.Follows m' ∧
      m'.Represents (e.onMap f) := by
  cases e with
  | set i j x =>
      simp only [Edit.row, Edit.col] at hi hj
      obtain ⟨m', hset, hfollows, hlookup⟩ := set_inside h.wellFormed hi hj x
      refine ⟨m', ?_, hfollows, hfollows.wellFormed, hfollows.kind_eq ▸ h.forgets, ?_⟩
      · change View.modified ((m.set i j x).map id .whole) = _
        rw [hset]
        rfl
      · intro a b
        rw [hlookup, Edit.onMap, EntryMap.lookup_insert_ite, h.lookup_eq]
  | erase i j =>
      simp only [Edit.row, Edit.col] at hi hj
      obtain ⟨m', herase, hfollows, hlookup⟩ := erase_inside h.wellFormed hi hj
      refine ⟨m', ?_, hfollows, hfollows.wellFormed, hfollows.kind_eq ▸ h.forgets, ?_⟩
      · change View.modified ((m.erase i j).map id .whole) = _
        rw [herase]
        rfl
      · intro a b
        rw [hlookup h.forgets, Edit.onMap, EntryMap.lookup_erase_ite, h.lookup_eq]

/-- An edit outside the matrix is refused and changes nothing. -/
theorem edit_outside (m : Matrix α) (e : Edit α) (h : ¬ (e.row < m.nrows ∧ e.col < m.ncols)) :
    (View.whole m).write e.writing =
      (.error (.fault (.position e.row e.col m.nrows m.ncols)), .whole m) := by
  cases e with
  | set i j x =>
      simp only [Edit.row, Edit.col] at h ⊢
      change View.modified ((m.set i j x).map id .whole) = _
      rw [set_outside m h x]
      rfl
  | erase i j =>
      simp only [Edit.row, Edit.col] at h ⊢
      change View.modified ((m.erase i j).map id .whole) = _
      rw [erase_outside m h]
      rfl

/-- A matrix and its map stay together over any run of edits. -/
theorem Represents.edited (h : m.Represents f) (edits : List (Edit α)) :
    m.Follows (m.edited edits) ∧
      (m.edited edits).Represents (f.edited m.nrows m.ncols edits) := by
  induction edits generalizing m f with
  | nil => exact ⟨.refl h.wellFormed, h⟩
  | cons e edits ih =>
      by_cases hinside : e.row < m.nrows ∧ e.col < m.ncols
      · obtain ⟨m', hwrite, hfollows, hrepresents⟩ := h.edit_inside e hinside.1 hinside.2
        obtain ⟨hrest, hmap⟩ := ih hrepresents
        have hmatrix : m.edited (e :: edits) = m'.edited edits := by
          simp only [Matrix.edited, List.foldl_cons, hwrite, View.base]
        have hedited : EntryMap.edited m.nrows m.ncols f (e :: edits) =
            EntryMap.edited m'.nrows m'.ncols (e.onMap f) edits := by
          simp only [EntryMap.edited, List.foldl_cons, if_pos hinside, hfollows.nrows_eq,
            hfollows.ncols_eq]
        rw [hmatrix, hedited]
        exact ⟨hfollows.trans hrest, hmap⟩
      · have hmatrix : m.edited (e :: edits) = m.edited edits := by
          simp only [Matrix.edited, List.foldl_cons, edit_outside m e hinside, View.base]
        have hedited : EntryMap.edited m.nrows m.ncols f (e :: edits) =
            EntryMap.edited m.nrows m.ncols f edits := by
          simp only [EntryMap.edited, List.foldl_cons, if_neg hinside]
        rw [hmatrix, hedited]
        exact ih h

/-- A matrix stores as many entries as its map has keys. -/
theorem Represents.nnz_eq (h : m.Represents f) : m.nnz = f.keys.card := by
  have hnodup : ((Cursor.toList m.rawIndexed).map fun e => (e.row, e.col)).Nodup := by
    refine List.pairwise_map.mpr ((rawIndexed_distinct h.wellFormed).imp ?_)
    intro a b hne heq
    exact hne (Prod.mk.inj heq)
  have hkeys : ((Cursor.toList m.rawIndexed).map fun e => (e.row, e.col)).toFinset = f.keys := by
    ext ⟨i, j⟩
    rw [List.mem_toFinset, List.mem_map, Finmap.mem_keys, Finmap.mem_iff]
    constructor
    · rintro ⟨⟨a, b, x⟩, hmem, heq⟩
      obtain ⟨rfl, rfl⟩ := Prod.mk.inj heq
      exact ⟨x, (h.lookup_eq a b).symm.trans ((mem_rawIndexed h.wellFormed a b x).mp hmem)⟩
    · rintro ⟨x, hx⟩
      have hlookup : m.lookup i j = some x := (h.lookup_eq i j).trans hx
      exact ⟨⟨i, j, x⟩, (mem_rawIndexed h.wellFormed i j x).mpr hlookup, rfl⟩
  rw [← hkeys, List.toFinset_card_of_nodup hnodup, List.length_map, nnz_eq_length h.wellFormed]

end Steps

section Triplets

variable {nrows ncols : Nat} {triplets : List (Triplet α)}

/-- Storing triplets inside the dimensions is setting them one by one. -/
theorem represents_foldl {M : Type} (matrix : M → Matrix α) (store : M → Nat → Nat → α → M)
    (hset : ∀ m i j x, i < (matrix m).nrows → j < (matrix m).ncols → (matrix m).WellFormed →
      (matrix m).set i j x = (.ok (), matrix (store m i j x)))
    (triplets : List (Triplet α)) (start : M) (f : EntryMap α)
    (hstart : (matrix start).Represents f)
    (h : ∀ t ∈ triplets, t.1 < (matrix start).nrows ∧ t.2.1 < (matrix start).ncols) :
    (matrix start).Follows (matrix (triplets.foldl (fun m t => store m t.1 t.2.1 t.2.2) start)) ∧
      (matrix (triplets.foldl (fun m t => store m t.1 t.2.1 t.2.2) start)).Represents
        (triplets.foldl (fun f t => f.insert (t.1, t.2.1) t.2.2) f) := by
  induction triplets generalizing start f with
  | nil => exact ⟨.refl hstart.wellFormed, hstart⟩
  | cons t rest ih =>
      obtain ⟨i, j, x⟩ := t
      have hhead := h (i, j, x) (by simp)
      obtain ⟨m', hm', hfollows, hlookup⟩ := set_inside hstart.wellFormed hhead.1 hhead.2 x
      rw [hset start i j x hhead.1 hhead.2 hstart.wellFormed] at hm'
      cases hm'
      have hnext : (matrix (store start i j x)).Represents (f.insert (i, j) x) := by
        refine ⟨hfollows.wellFormed, hfollows.kind_eq ▸ hstart.forgets, ?_⟩
        intro a b
        rw [hlookup, EntryMap.lookup_insert_ite, hstart.lookup_eq]
      have hrest := ih (store start i j x) (f.insert (i, j) x) hnext fun t ht => by
        rw [hfollows.nrows_eq, hfollows.ncols_eq]
        exact h t (by simp [ht])
      exact ⟨hfollows.trans hrest.1, hrest.2⟩

variable (h : ∀ t ∈ triplets, t.1 < nrows ∧ t.2.1 < ncols)

include h

theorem row_represents_triplets :
    ∃ m : RowMatrix α, RowMatrix.ofTriplets nrows ncols triplets = .ok m ∧
      m.nrows = nrows ∧ m.ncols = ncols ∧ (row m).Represents (EntryMap.ofTriplets triplets) := by
  have hrows : (row (.empty nrows ncols) : Matrix α).nrows = nrows :=
    SparseLines.empty_majorDim nrows ncols
  have hempty : (row (.empty nrows ncols) : Matrix α).Represents ∅ := by
    refine ⟨SparseLines.empty_wellFormed nrows ncols, by simp [kind], fun i j => ?_⟩
    rw [Finmap.lookup_empty]
    exact SparseLines.lookup_empty i j nrows ncols
  obtain ⟨hfollows, hmap⟩ := represents_foldl row RowMatrix.store
    (fun m i j x hi hj hwf => congrArg (Prod.map id row) (RowMatrix.set_eq hwf hi hj x))
    triplets (.empty nrows ncols) ∅ hempty (by rwa [hrows])
  exact ⟨_, row_accepts_inside h, hfollows.nrows_eq.trans hrows, hfollows.ncols_eq, hmap⟩

theorem col_represents_triplets :
    ∃ m : ColMatrix α, ColMatrix.ofTriplets nrows ncols triplets = .ok m ∧
      m.nrows = nrows ∧ m.ncols = ncols ∧ (col m).Represents (EntryMap.ofTriplets triplets) := by
  have hcols : (col (.empty nrows ncols) : Matrix α).ncols = ncols :=
    SparseLines.empty_majorDim ncols nrows
  have hempty : (col (.empty nrows ncols) : Matrix α).Represents ∅ := by
    refine ⟨SparseLines.empty_wellFormed ncols nrows, by simp [kind], fun i j => ?_⟩
    rw [Finmap.lookup_empty]
    exact SparseLines.lookup_empty j i ncols nrows
  obtain ⟨hfollows, hmap⟩ := represents_foldl col ColMatrix.store
    (fun m i j x hi hj hwf => congrArg (Prod.map id col) (ColMatrix.set_eq hwf hi hj x))
    triplets (.empty nrows ncols) ∅ hempty (by rwa [hcols])
  exact ⟨_, col_accepts_inside h, hfollows.nrows_eq, hfollows.ncols_eq.trans hcols, hmap⟩

theorem coordinate_represents_triplets :
    ∃ m : Coordinate α, Coordinate.ofTriplets nrows ncols triplets = .ok m ∧
      m.nrows = nrows ∧ m.ncols = ncols ∧
        (coordinate m).Represents (EntryMap.ofTriplets triplets) := by
  have hempty : (coordinate (.empty nrows ncols) : Matrix α).Represents ∅ := by
    refine ⟨Coordinate.empty_wellFormed nrows ncols, by simp [kind], fun i j => ?_⟩
    rw [Finmap.lookup_empty]
    simp [lookup, Coordinate.lookup, Coordinate.empty]
  obtain ⟨hfollows, hmap⟩ := represents_foldl coordinate Coordinate.store
    (fun m i j x hi hj hwf => congrArg (Prod.map id coordinate) (Coordinate.set_eq hwf hi hj x))
    triplets (.empty nrows ncols) ∅ hempty h
  exact ⟨_, coordinate_accepts_inside h, hfollows.nrows_eq, hfollows.ncols_eq, hmap⟩

end Triplets

section Refinement

variable {nrows ncols : Nat} {triplets : List (Triplet α)}

/-- A matrix agrees with a map: inside the dimensions it reads what the map
has and takes every edit, it stores one entry for each key, and an edit
outside the dimensions is refused by its position. -/
structure AgreesWith (nrows ncols : Nat) (m : Matrix α) (f : EntryMap α) : Prop where
  entry_eq : ∀ i j, i < nrows → j < ncols → m.entry i j = .ok (f.lookup (i, j))
  nnz_eq : m.nnz = f.keys.card
  edit_answer : ∀ e : Edit α, ((View.whole m).write e.writing).1 =
    if e.row < nrows ∧ e.col < ncols then .ok .done
    else .error (.fault (.position e.row e.col nrows ncols))

theorem Represents.agreesWith {m : Matrix α} {f : EntryMap α} (h : m.Represents f) :
    AgreesWith m.nrows m.ncols m f where
  entry_eq i j hi hj := by rw [entry_inside h.wellFormed hi hj, h.lookup_eq]
  nnz_eq := h.nnz_eq
  edit_answer e := by
    split
    · next hinside =>
        obtain ⟨m', hwrite, -⟩ := h.edit_inside e hinside.1 hinside.2
        rw [hwrite]
    · next houtside => rw [edit_outside m e houtside]

theorem Represents.edited_agreesWith {m : Matrix α} {f : EntryMap α} (h : m.Represents f)
    (hnrows : m.nrows = nrows) (hncols : m.ncols = ncols) (edits : List (Edit α)) :
    AgreesWith nrows ncols (m.edited edits) (f.edited nrows ncols edits) := by
  subst hnrows hncols
  obtain ⟨hfollows, hrepresents⟩ := h.edited edits
  have hagrees := hrepresents.agreesWith
  rwa [hfollows.nrows_eq, hfollows.ncols_eq] at hagrees

/-- The same triplets stored in each of the three sparse ways, and any run of
edits applied to each of them alike, are one finite map. -/
theorem sparse_storages_refine_one_map (nrows ncols : Nat) (triplets : List (Triplet α))
    (h : ∀ t ∈ triplets, t.1 < nrows ∧ t.2.1 < ncols) :
    ∃ (byRow : RowMatrix α) (byCol : ColMatrix α) (byEntry : Coordinate α),
      RowMatrix.ofTriplets nrows ncols triplets = .ok byRow ∧
      ColMatrix.ofTriplets nrows ncols triplets = .ok byCol ∧
      Coordinate.ofTriplets nrows ncols triplets = .ok byEntry ∧
      ∀ edits : List (Edit α), ∀ m ∈ [row byRow, col byCol, coordinate byEntry],
        AgreesWith nrows ncols (m.edited edits)
          ((EntryMap.ofTriplets triplets).edited nrows ncols edits) := by
  obtain ⟨byRow, hrow, hrowNrows, hrowNcols, hrowMap⟩ := row_represents_triplets h
  obtain ⟨byCol, hcol, hcolNrows, hcolNcols, hcolMap⟩ := col_represents_triplets h
  obtain ⟨byEntry, hentry, hentryNrows, hentryNcols, hentryMap⟩ := coordinate_represents_triplets h
  refine ⟨byRow, byCol, byEntry, hrow, hcol, hentry, ?_⟩
  intro edits m hm
  simp only [List.mem_cons, List.not_mem_nil, or_false] at hm
  rcases hm with rfl | rfl | rfl
  · exact hrowMap.edited_agreesWith hrowNrows hrowNcols edits
  · exact hcolMap.edited_agreesWith hcolNrows hcolNcols edits
  · exact hentryMap.edited_agreesWith hentryNrows hentryNcols edits

/-- An overwritten triplet, an erased entry, a new one and a refused edit. -/
theorem two_by_three_after_edits :
    ∃ (byRow : RowMatrix Nat) (byCol : ColMatrix Nat) (byEntry : Coordinate Nat),
      RowMatrix.ofTriplets 2 3 [(0, 1, 5), (1, 2, 7), (0, 1, 6)] = .ok byRow ∧
      ColMatrix.ofTriplets 2 3 [(0, 1, 5), (1, 2, 7), (0, 1, 6)] = .ok byCol ∧
      Coordinate.ofTriplets 2 3 [(0, 1, 5), (1, 2, 7), (0, 1, 6)] = .ok byEntry ∧
      ∀ m ∈ [row byRow, col byCol, coordinate byEntry],
        (m.edited [.erase 1 2, .set 1 0 4, .set 2 0 9]).nnz = 2 ∧
          (m.edited [.erase 1 2, .set 1 0 4, .set 2 0 9]).entry 0 1 = .ok (some 6) := by
  obtain ⟨byRow, byCol, byEntry, hrow, hcol, hentry, hagrees⟩ :=
    sparse_storages_refine_one_map 2 3 [(0, 1, 5), (1, 2, 7), (0, 1, 6)] (by decide)
  refine ⟨byRow, byCol, byEntry, hrow, hcol, hentry, ?_⟩
  intro m hm
  have hedited := hagrees [.erase 1 2, .set 1 0 4, .set 2 0 9] m hm
  exact ⟨hedited.nnz_eq, hedited.entry_eq 0 1 (by decide) (by decide)⟩

end Refinement

end Matrix

end TransposedViews
