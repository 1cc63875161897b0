import Mathlib.Data.List.Induction
import Mathlib.Data.List.Nodup
import TransposedViews.Proofs.Construction

/-!
Triplets with repeated positions. A matrix in coordinate form that stores
triplets one after the other lists each position once, in the place of its
first triplet and with the value of its last. Triplets without repetition are
therefore listed as they are, and since the storage order determines the index
of slots, a matrix is recovered from what it lists.
-/

namespace TransposedViews

section EraseDups

variable {α : Type u} [BEq α] [LawfulBEq α]

theorem eraseDups_append_singleton (xs : List α) (x : α) :
    (xs ++ [x]).eraseDups = if x ∈ xs then xs.eraseDups else xs.eraseDups ++ [x] := by
  rw [List.eraseDups_append]
  by_cases hx : x ∈ xs
  · simp [List.removeAll, hx]
  · simp [List.removeAll, hx, List.eraseDups_cons]

theorem nodup_eraseDups (xs : List α) : xs.eraseDups.Nodup := by
  induction xs using List.reverseRecOn with
  | nil => simp
  | append_singleton xs x ih =>
      rw [eraseDups_append_singleton]
      split
      · exact ih
      · next hx =>
          rw [← List.concat_eq_append]
          exact ih.concat fun hmem => hx (List.mem_eraseDups.mp hmem)

theorem eraseDups_of_nodup {xs : List α} (h : xs.Nodup) : xs.eraseDups = xs := by
  induction xs using List.reverseRecOn with
  | nil => rfl
  | append_singleton xs x ih =>
      rw [← List.concat_eq_append, List.nodup_concat] at h
      rw [eraseDups_append_singleton, if_neg h.1, ih h.2]

end EraseDups

section Collapsing

variable {α : Type} {entries : List (Triplet α)} {i j : Nat} {x : α}

def Triplet.position (t : Triplet α) : Nat × Nat := (t.1, t.2.1)

/-- The last triplet at a position has a value. -/
def LastAt (entries : List (Triplet α)) (i j : Nat) (x : α) : Prop :=
  ∃ earlier later, entries = earlier ++ (i, j, x) :: later ∧
    ∀ t ∈ later, Triplet.position t ≠ (i, j)

theorem lastAt_append_singleton (t : Triplet α) :
    LastAt (entries ++ [t]) i j x ↔
      if Triplet.position t = (i, j) then t = (i, j, x) else LastAt entries i j x := by
  constructor
  · rintro ⟨earlier, later, hsplit, hlater⟩
    rcases List.eq_nil_or_concat later with rfl | ⟨later, u, rfl⟩
    · obtain ⟨-, hlast⟩ := List.append_inj' hsplit rfl
      obtain rfl : t = (i, j, x) := List.singleton_inj.mp hlast
      have hposition : Triplet.position (i, j, x) = (i, j) := rfl
      rw [if_pos hposition]
    · rw [List.concat_eq_append] at hsplit hlater
      rw [← List.cons_append, ← List.append_assoc] at hsplit
      obtain ⟨hentries, hlast⟩ := List.append_inj' hsplit rfl
      obtain rfl : t = u := List.singleton_inj.mp hlast
      rw [if_neg (hlater t (by simp))]
      exact ⟨earlier, later, hentries, fun u hu => hlater u (by simp [hu])⟩
  · split
    · rintro rfl
      exact ⟨entries, [], rfl, by simp⟩
    · next hother =>
        rintro ⟨earlier, later, rfl, hlater⟩
        refine ⟨earlier, later ++ [t], by simp, ?_⟩
        intro u hu
        rcases List.mem_append.mp hu with hu | hu
        · exact hlater u hu
        · obtain rfl := List.mem_singleton.mp hu
          exact hother

/-- Where no position is repeated, every triplet is the last one of its own. -/
theorem lastAt_of_nodup (h : (entries.map Triplet.position).Nodup) :
    LastAt entries i j x ↔ (i, j, x) ∈ entries := by
  constructor
  · rintro ⟨earlier, later, rfl, -⟩
    exact List.mem_append_right earlier List.mem_cons_self
  · intro hmem
    obtain ⟨earlier, later, rfl⟩ := List.append_of_mem hmem
    refine ⟨earlier, later, rfl, ?_⟩
    rw [List.map_append, List.map_cons] at h
    obtain ⟨hnotin, -⟩ := List.nodup_cons.mp (List.nodup_append.mp h).2.1
    intro t ht heq
    exact hnotin (List.mem_map.mpr ⟨t, ht, heq⟩)

/-- Each position of the triplets once: where it comes first, and with the
value that comes last. -/
structure Collapses (entries collapsed : List (Triplet α)) : Prop where
  positions_eq :
    collapsed.map Triplet.position = (entries.map Triplet.position).eraseDups
  mem_iff : ∀ i j x, (i, j, x) ∈ collapsed ↔ LastAt entries i j x

theorem Collapses.of_nodup (h : (entries.map Triplet.position).Nodup) :
    Collapses entries entries where
  positions_eq := (eraseDups_of_nodup h).symm
  mem_iff _ _ _ := (lastAt_of_nodup h).symm

/-- The order and the values are determined. -/
theorem Collapses.unique {collapsed collapsed' : List (Triplet α)} (h : Collapses entries collapsed)
    (h' : Collapses entries collapsed') : collapsed = collapsed' := by
  have hpositions := h.positions_eq.trans h'.positions_eq.symm
  have hnodup : (collapsed.map Triplet.position).Nodup := by
    rw [h.positions_eq]
    exact nodup_eraseDups _
  have hlength : collapsed.length = collapsed'.length := by
    simpa using congrArg List.length hpositions
  refine List.ext_getElem hlength fun k hk hk' => ?_
  have hmem : collapsed'[k] ∈ collapsed := by
    have hlast := (h'.mem_iff _ _ _).mp (List.getElem_mem hk')
    exact (h.mem_iff _ _ _).mpr hlast
  have hposition : Triplet.position collapsed[k] = Triplet.position collapsed'[k] := by
    have hget := congrArg (fun positions => positions[k]?) hpositions
    simpa [hk, hk'] using hget
  exact List.inj_on_of_nodup_map hnodup (List.getElem_mem hk) hmem hposition

end Collapsing

namespace Coordinate

variable {α : Type} {m m' : Coordinate α} {i j : Nat}

section Positions

theorem positions_eq_zip (h : m.WellFormed) :
    m.toList.map Triplet.position = m.rowIndices.toList.zip m.colIndices.toList := by
  have hcols : m.colIndices.toList.length ≤ m.values.toList.length :=
    Nat.le_of_eq (by simpa using h.cols_size)
  have hposition : (Triplet.position : Triplet α → Nat × Nat) = Prod.map id Prod.fst := rfl
  rw [toList, hposition, ← List.zip_map_right, List.map_fst_zip hcols]

theorem positions_nodup (h : m.WellFormed) : (m.toList.map Triplet.position).Nodup := by
  refine List.pairwise_map.mpr ((toList_distinct h).imp ?_)
  intro a b hne heq
  exact hne (Prod.mk.inj heq)

theorem mem_positions_iff (h : m.WellFormed) :
    (i, j) ∈ m.toList.map Triplet.position ↔ m.slots[(i, j)]? ≠ none := by
  rw [positions_eq_zip h, List.mem_iff_getElem?, Option.ne_none_iff_exists']
  refine exists_congr fun s => ?_
  rw [List.getElem?_zip_eq_some, h.slots_iff]
  simp only [Holds, Array.getElem?_toList]

/-- A value for a position that is listed leaves the positions as they are;
another one adds its position at the end. -/
theorem positions_store (h : m.WellFormed) (hi : i < m.nrows) (hj : j < m.ncols) (x : α) :
    (m.store i j x).toList.map Triplet.position =
      if (i, j) ∈ m.toList.map Triplet.position then m.toList.map Triplet.position
      else m.toList.map Triplet.position ++ [(i, j)] := by
  have hsizes : m.rowIndices.toList.length = m.colIndices.toList.length := by
    simpa using h.rows_size.trans h.cols_size.symm
  have hstored := positions_eq_zip (store_wellFormed x h hi hj)
  cases hslot : m.slots[(i, j)]? with
  | none =>
      have hnotin : (i, j) ∉ m.toList.map Triplet.position := by
        rw [mem_positions_iff h, hslot]
        exact fun hne => hne rfl
      rw [if_neg hnotin, hstored, positions_eq_zip h, store_vacant x hslot, Array.toList_push,
        Array.toList_push, List.zip_append hsizes, List.zip_cons_cons, List.zip_nil_left]
  | some s =>
      have hmem : (i, j) ∈ m.toList.map Triplet.position := by
        rw [mem_positions_iff h, hslot]
        exact Option.some_ne_none s
      rw [if_pos hmem, hstored, positions_eq_zip h, store_stored x hslot]

end Positions

theorem collapses_store {entries : List (Triplet α)} (h : Collapses entries m.toList)
    (hwf : m.WellFormed) (hi : i < m.nrows) (hj : j < m.ncols) (x : α) :
    Collapses (entries ++ [(i, j, x)]) (m.store i j x).toList where
  positions_eq := by
    have hiff : (i, j) ∈ m.toList.map Triplet.position ↔
        (i, j) ∈ entries.map Triplet.position := by
      rw [h.positions_eq, List.mem_eraseDups]
    rw [positions_store hwf hi hj, List.map_append]
    change _ = (entries.map Triplet.position ++ [(i, j)]).eraseDups
    rw [eraseDups_append_singleton, if_congr hiff rfl rfl, h.positions_eq]
  mem_iff a b y := by
    rw [mem_toList (store_wellFormed x hwf hi hj), lookup_store hwf, lastAt_append_singleton,
      ← h.mem_iff, mem_toList hwf]
    by_cases hab : a = i ∧ b = j
    · obtain ⟨rfl, rfl⟩ := hab
      have hposition : Triplet.position (a, b, x) = (a, b) := rfl
      rw [if_pos ⟨rfl, rfl⟩, if_pos hposition]
      simp
    · have hposition : Triplet.position (i, j, x) ≠ (a, b) := by
        intro heq
        obtain ⟨hrow, hcol⟩ := Prod.mk.inj heq
        exact hab ⟨hrow.symm, hcol.symm⟩
      rw [if_neg hab, if_neg hposition]

/-- Storing triplets lists each position once, where it came first and with
the value that came last. -/
theorem collapses_foldl (nrows ncols : Nat) (entries : List (Triplet α))
    (h : ∀ t ∈ entries, t.1 < nrows ∧ t.2.1 < ncols) :
    ∃ m : Coordinate α, entries.foldl (fun m t => m.store t.1 t.2.1 t.2.2) (empty nrows ncols) = m ∧
      m.WellFormed ∧ m.nrows = nrows ∧ m.ncols = ncols ∧ Collapses entries m.toList := by
  induction entries using List.reverseRecOn with
  | nil =>
      refine ⟨_, rfl, empty_wellFormed nrows ncols, rfl, rfl, rfl, ?_⟩
      intro i j x
      simp [LastAt, empty, toList]
  | append_singleton entries t ih =>
      obtain ⟨i, j, x⟩ := t
      obtain ⟨m, hm, hwf, hrows, hcols, hcollapses⟩ := ih fun t ht => h t (by simp [ht])
      obtain ⟨hi, hj⟩ := h (i, j, x) (by simp)
      rw [← hrows] at hi
      rw [← hcols] at hj
      refine ⟨m.store i j x, ?_, store_wellFormed x hwf hi hj, ?_, ?_, ?_⟩
      · rw [List.foldl_append, hm, List.foldl_cons, List.foldl_nil]
      · rw [store_nrows, hrows]
      · rw [store_ncols, hcols]
      · exact collapses_store hcollapses hwf hi hj x

/-- The three sequences are the columns of what is listed. -/
theorem toList_columns (h : m.WellFormed) :
    m.rowIndices.toList = m.toList.map Prod.fst ∧
      m.colIndices.toList = (m.toList.map Prod.snd).map Prod.fst ∧
      m.values.toList = (m.toList.map Prod.snd).map Prod.snd := by
  have hrows : m.rowIndices.toList.length = m.values.toList.length := by simpa using h.rows_size
  have hcols : m.colIndices.toList.length = m.values.toList.length := by simpa using h.cols_size
  have hpairs : (m.colIndices.toList.zip m.values.toList).length = m.values.toList.length := by
    rw [List.length_zip, hcols, Nat.min_self]
  have hback : m.toList.map Prod.snd = m.colIndices.toList.zip m.values.toList :=
    List.map_snd_zip (by omega)
  rw [hback, List.map_fst_zip (by omega), List.map_snd_zip (by omega)]
  exact ⟨(List.map_fst_zip (by omega)).symm, rfl, rfl⟩

/-- A matrix is determined by its dimensions and what it lists. -/
theorem eq_of_toList_eq (h : m.WellFormed) (h' : m'.WellFormed) (hrows : m.nrows = m'.nrows)
    (hcols : m.ncols = m'.ncols) (hlist : m.toList = m'.toList) : m = m' := by
  obtain ⟨hrow, hcol, hvalue⟩ := toList_columns h
  obtain ⟨hrow', hcol', hvalue'⟩ := toList_columns h'
  rw [hlist] at hrow hcol hvalue
  have hrowIndices : m.rowIndices = m'.rowIndices := Array.toList_inj.mp (hrow.trans hrow'.symm)
  have hcolIndices : m.colIndices = m'.colIndices := Array.toList_inj.mp (hcol.trans hcol'.symm)
  have hvalues : m.values = m'.values := Array.toList_inj.mp (hvalue.trans hvalue'.symm)
  have hslots : m.slots = m'.slots := by
    refine Std.ExtHashMap.ext_getElem? fun position => ?_
    obtain ⟨i, j⟩ := position
    refine Option.ext fun s => ?_
    rw [h.slots_iff, h'.slots_iff, Holds, Holds, hrowIndices, hcolIndices]
  cases m
  cases m'
  simp only at hrows hcols hrowIndices hcolIndices hvalues hslots
  rw [hrows, hcols, hrowIndices, hcolIndices, hvalues, hslots]

theorem ofTriplets_of_inside {nrows ncols : Nat} {entries : List (Triplet α)}
    (h : ∀ t ∈ entries, t.1 < nrows ∧ t.2.1 < ncols) :
    ∃ m : Coordinate α, ofTriplets nrows ncols entries = .ok m ∧ m.WellFormed ∧
      m.nrows = nrows ∧ m.ncols = ncols ∧ Collapses entries m.toList := by
  obtain ⟨m, hstored, hlaws⟩ := collapses_foldl nrows ncols entries h
  refine ⟨m, ?_, hlaws⟩
  rw [Matrix.coordinate_accepts_inside h, hstored]

theorem ofTriplets_collapses {nrows ncols : Nat} {entries : List (Triplet α)}
    (h : ofTriplets nrows ncols entries = .ok m) :
    m.WellFormed ∧ m.nrows = nrows ∧ m.ncols = ncols ∧ Collapses entries m.toList := by
  obtain ⟨stored, hstored, hlaws⟩ := ofTriplets_of_inside (inside_of_storeTriplets h)
  obtain rfl : m = stored := Except.ok.inj (h.symm.trans hstored)
  exact hlaws

/-- What a matrix lists is accepted again and gives the matrix back, its index
of slots included. -/
theorem ofParts_toParts (h : m.WellFormed) : ofParts m.toParts = .ok m := by
  have hinside : ∀ t ∈ m.toList, t.1 < m.nrows ∧ t.2.1 < m.ncols := by
    rintro ⟨i, j, x⟩ ht
    exact lookup_inside h x ((mem_toList h i j x).mp ht)
  obtain ⟨stored, hstored, hwf, hrows, hcols, hcollapses⟩ := ofTriplets_of_inside hinside
  have hlist : stored.toList = m.toList := hcollapses.unique (.of_nodup (positions_nodup h))
  obtain rfl : stored = m := eq_of_toList_eq hwf h hrows hcols hlist
  exact hstored

end Coordinate

end TransposedViews
