import Mathlib.Data.List.Basic
import TransposedViews.Dense.Traversal
import TransposedViews.Proofs.Traversal

namespace TransposedViews

namespace Dense

variable {α : Type}

/-- The buffer has one element for each position, and their number is a
machine word. -/
structure WellFormed (m : Dense α) : Prop where
  size_eq : m.data.size = m.nrows * m.ncols
  fits : m.nrows * m.ncols < wordLimit

/-- The value kept for a position, if the matrix has the position. -/
def lookup (m : Dense α) (i j : Nat) : Option α :=
  if i < m.nrows ∧ j < m.ncols then m.data[i * m.ncols + j]? else none

section Offset

variable {i j nrows ncols : Nat}

theorem offset_lt (hi : i < nrows) (hj : j < ncols) : i * ncols + j < nrows * ncols := by
  calc
    i * ncols + j < i * ncols + ncols := Nat.add_lt_add_left hj _
    _ = (i + 1) * ncols := (Nat.succ_mul i ncols).symm
    _ ≤ nrows * ncols := Nat.mul_le_mul_right ncols hi

theorem offset_div (hj : j < ncols) : (i * ncols + j) / ncols = i := by
  have hpos : 0 < ncols := by omega
  rw [Nat.mul_comm, Nat.mul_add_div hpos, Nat.div_eq_of_lt hj, Nat.add_zero]

theorem offset_mod (hj : j < ncols) : (i * ncols + j) % ncols = j := by
  rw [Nat.mul_comm, Nat.mul_add_mod, Nat.mod_eq_of_lt hj]

/-- Every cell of the buffer is kept for exactly one position. -/
theorem position_of_cell {k : Nat} (hk : k < nrows * ncols) :
    k / ncols < nrows ∧ k % ncols < ncols ∧ k / ncols * ncols + k % ncols = k := by
  have hpos : 0 < ncols := Nat.pos_of_ne_zero fun hzero => by simp [hzero] at hk
  refine ⟨?_, Nat.mod_lt k hpos, Nat.div_add_mod' k ncols⟩
  exact Nat.div_lt_of_lt_mul (by rwa [Nat.mul_comm])

end Offset

section Access

variable {m : Dense α} {i j : Nat}

/-- The cell of a position is found without overflow and is in the buffer. -/
theorem cell_eq (h : m.WellFormed) (hi : i < m.nrows) (hj : j < m.ncols) :
    m.cell i j = .ok (i * m.ncols + j) ∧ i * m.ncols + j < m.data.size := by
  have hlt := offset_lt hi hj
  have hfits := h.fits
  have hmod : (i * m.ncols + j) % wordLimit = i * m.ncols + j := Nat.mod_eq_of_lt (by omega)
  refine ⟨?_, by rwa [h.size_eq]⟩
  simp [cell, offset, assertInBounds_of_inside hi hj, Except.map, hmod]

theorem cell_outside (h : ¬ (i < m.nrows ∧ j < m.ncols)) :
    m.cell i j = .error (.position i j m.nrows m.ncols) := by
  rw [cell, assertInBounds_of_outside h]
  rfl

theorem entry_outside (h : ¬ (i < m.nrows ∧ j < m.ncols)) :
    m.entry i j = .error (.position i j m.nrows m.ncols) := by
  rw [entry, cell_outside h]
  rfl

theorem set_outside (h : ¬ (i < m.nrows ∧ j < m.ncols)) (x : α) :
    m.set i j x = (.error (.position i j m.nrows m.ncols), m) := by
  rw [set, cell_outside h, attempt_error_bind]

theorem entry_eq (h : m.WellFormed) (hi : i < m.nrows) (hj : j < m.ncols) :
    m.entry i j = .ok (m.lookup i j) := by
  obtain ⟨hcell, hlt⟩ := cell_eq h hi hj
  simp [entry, lookup, hcell, hi, hj, readElement, hlt, bind, Except.bind, pure, Except.pure]

theorem set_eq (h : m.WellFormed) (hi : i < m.nrows) (hj : j < m.ncols) (x : α) :
    m.set i j x = (.ok (), {m with data := m.data.setIfInBounds (i * m.ncols + j) x}) := by
  obtain ⟨hcell, hlt⟩ := cell_eq h hi hj
  simp [set, hcell, replaceElement, readElement, hlt, Except.map]

theorem erase_eq (hi : i < m.nrows) (hj : j < m.ncols) : m.erase i j = (.ok (), m) :=
  guarded_of_inside hi hj _ m

theorem lookup_inside {x : α} (hx : m.lookup i j = some x) : i < m.nrows ∧ j < m.ncols := by
  unfold lookup at hx
  split at hx
  · assumption
  · cases hx

theorem lookup_set (h : m.WellFormed) (hi : i < m.nrows) (hj : j < m.ncols) (x : α)
    (a b : Nat) :
    ({m with data := m.data.setIfInBounds (i * m.ncols + j) x} : Dense α).lookup a b =
      if a = i ∧ b = j then some x else m.lookup a b := by
  obtain ⟨-, hlt⟩ := cell_eq h hi hj
  by_cases hab : a = i ∧ b = j
  · obtain ⟨rfl, rfl⟩ := hab
    simp [lookup, hi, hj, hlt]
  · rw [if_neg hab]
    unfold lookup
    by_cases hinside : a < m.nrows ∧ b < m.ncols
    · have hne : i * m.ncols + j ≠ a * m.ncols + b := by
        intro heq
        apply hab
        constructor
        · rw [← offset_div (i := a) hinside.2, ← heq, offset_div hj]
        · rw [← offset_mod (i := a) hinside.2, ← heq, offset_mod hj]
      simp [hinside, hne]
    · simp [hinside]

end Access

section Enumeration

theorem toList_positioned (rest : List β) (offset ncols : Nat) :
    Cursor.toList (⟨rest, offset, ncols⟩ : Positioned β) =
      (rest.zipIdx offset).map fun (x, k) => ⟨k / ncols, k % ncols, x⟩ := by
  refine Cursor.toList_eq_of_listing
    (fun s : Positioned β =>
      (s.rest.zipIdx s.offset).map fun (x, k) => ⟨k / s.ncols, k % s.ncols, x⟩)
    ?_ ?_ ⟨rest, offset, ncols⟩
  · rintro ⟨_ | ⟨_, _⟩, _, _⟩ <;> rfl
  · rintro ⟨_ | ⟨_, _⟩, _, _⟩ <;> rfl

variable {m : Dense α}

theorem toList_rawIndexed (m : Dense α) :
    Cursor.toList m.rawIndexed =
      m.data.toList.zipIdx.map fun (x, k) => ⟨k / m.ncols, k % m.ncols, x⟩ :=
  toList_positioned m.data.toList 0 m.ncols

/-- The raw traversal delivers every position with the value kept for it. -/
theorem mem_toList_rawIndexed (h : m.WellFormed) (i j : Nat) (x : α) :
    ⟨i, j, x⟩ ∈ Cursor.toList m.rawIndexed ↔ m.lookup i j = some x := by
  rw [toList_rawIndexed, List.mem_map]
  constructor
  · rintro ⟨⟨y, k⟩, hmem, heq⟩
    cases heq
    have hget := List.mem_zipIdx_iff_getElem?.mp hmem
    rw [Array.getElem?_toList] at hget
    obtain ⟨hk, -⟩ := Array.getElem?_eq_some_iff.mp hget
    obtain ⟨hi, hj, hcell⟩ := position_of_cell (h.size_eq ▸ hk)
    rw [lookup, if_pos ⟨hi, hj⟩, hcell, hget]
  · intro hx
    unfold lookup at hx
    split at hx
    · next hinside =>
        refine ⟨(x, i * m.ncols + j), ?_, ?_⟩
        · rw [List.mem_zipIdx_iff_getElem?, Array.getElem?_toList]
          exact hx
        · simp only [offset_div hinside.2, offset_mod hinside.2]
    · cases hx

/-- No position is delivered twice. -/
theorem toList_rawIndexed_distinct (h : m.WellFormed) :
    (Cursor.toList m.rawIndexed).Pairwise (fun a b => ¬ (a.row = b.row ∧ a.col = b.col)) := by
  rw [toList_rawIndexed, List.pairwise_map, List.pairwise_iff_getElem]
  intro s t hs ht hlt ⟨hrow, hcol⟩
  have hsize : m.data.toList.zipIdx.length = m.nrows * m.ncols := by
    rw [List.length_zipIdx, Array.length_toList, h.size_eq]
  simp only [List.getElem_zipIdx, Nat.zero_add] at hrow hcol
  have hcell := (position_of_cell (hsize ▸ hs)).2.2
  rw [hrow, hcol, (position_of_cell (hsize ▸ ht)).2.2] at hcell
  omega

end Enumeration

section Scripts

variable (m : Dense α)

/-- Another matrix in which at most values were overwritten. -/
def Overwritten (m' : Dense α) : Prop :=
  ∃ data : Array α, data.size = m.data.size ∧ m' = {m with data}

theorem runRaw_overwritten (script : List (Request α)) : m.Overwritten (m.runRaw script).2 :=
  ⟨_, Script.run_size script _ m.data, rfl⟩

theorem runIndexed_overwritten (script : List (Request α)) :
    m.Overwritten (m.runIndexed script).2 :=
  ⟨_, Script.run_size script _ m.data, rfl⟩

theorem runRows_overwritten (scripts : List (LineScript α)) :
    m.Overwritten (m.runRows scripts).2 := by
  refine ⟨_, LineScript.runLines_size _ ?_ scripts _ m.data, rfl⟩
  intro cells script values
  exact LineScript.runContiguous_size cells script values

theorem runCols_overwritten (scripts : List (LineScript α)) :
    m.Overwritten (m.runCols scripts).2 := by
  unfold runCols
  split
  · exact ⟨m.data, rfl, rfl⟩
  · next columns _ =>
      refine ⟨_, LineScript.runLines_size _ ?_ scripts columns m.data, rfl⟩
      intro column script values
      exact LineScript.runWalk_size _ script _ values

theorem Overwritten.wellFormed {m m' : Dense α} (hover : m.Overwritten m')
    (h : m.WellFormed) : m'.WellFormed := by
  obtain ⟨data, hsize, rfl⟩ := hover
  exact ⟨hsize.trans h.size_eq, h.fits⟩

end Scripts

section Construction

variable {nrows ncols : Nat}

theorem ofArray_wellFormed {data : Array α} {m : Dense α} (h : ofArray nrows ncols data = .ok m) :
    m.WellFormed := by
  simp only [ofArray, validateDenseLen, checkedLen] at h
  by_cases hfits : nrows * ncols < wordLimit
  · by_cases hsize : nrows * ncols = data.size
    · simp only [if_pos hfits, if_pos hsize, Except.map, Except.ok.injEq] at h
      subst h
      exact ⟨hsize.symm, hfits⟩
    · simp [if_pos hfits, if_neg hsize, Except.map] at h
  · simp [if_neg hfits, Except.map] at h

private theorem length_mapM (items : List ι) (f : ι → StateM σ β) (s : σ) :
    (items.mapM f s).1.length = items.length := by
  induction items generalizing s with
  | nil => rfl
  | cons item items ih =>
      rw [List.mapM_cons]
      exact congrArg (· + 1) (ih (f item s).2)

private theorem forall_mem_mapM (items : List ι) (f : ι → StateM σ β) (P : β → Prop)
    (hf : ∀ item s, P (f item s).1) (s : σ) : ∀ b ∈ (items.mapM f s).1, P b := by
  induction items generalizing s with
  | nil =>
      intro b hb
      cases hb
  | cons item items ih =>
      rw [List.mapM_cons]
      intro b hb
      rcases List.mem_cons.mp hb with rfl | hrest
      · exact hf item s
      · exact ih (f item s).2 b hrest

/-- A generated matrix has one element for each position, also where the rows
have no positions and are not gone through. -/
theorem generate_wellFormed (hfits : nrows * ncols < wordLimit) (f : Nat → Nat → StateM σ α)
    (s : σ) : ((generate nrows ncols f).run s).1.WellFormed := by
  unfold generate
  by_cases hncols : ncols = 0
  · rw [if_pos hncols]
    have hempty : 0 = nrows * ncols := by rw [hncols, Nat.mul_zero]
    exact ⟨hempty, hfits⟩
  · rw [if_neg hncols]
    let rows := (List.range nrows).mapM (fun i => (List.range ncols).mapM fun j => f i j) s
    have hcount : rows.1.length = nrows :=
      (length_mapM (List.range nrows) _ s).trans List.length_range
    have hlengths : ∀ row ∈ rows.1, row.length = ncols :=
      forall_mem_mapM (List.range nrows) _ (fun row : List α => row.length = ncols)
        (fun i t => (length_mapM (List.range ncols) (f i) t).trans List.length_range) s
    have hflat : rows.1.flatten.length = nrows * ncols := by
      rw [List.length_flatten, List.map_congr_left hlengths, List.map_const',
        List.sum_replicate_nat, hcount]
    exact ⟨hflat, hfits⟩

end Construction

end Dense

end TransposedViews
