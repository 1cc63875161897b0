import TransposedViews.Proofs.Occurrence
import TransposedViews.Proofs.Reachable

/-!
Setting and erasing as inverses. A line finds the place for an index again
after its entry was removed, so the two edits cancel in both orders. In
coordinate form they cancel in one order only: an appended entry is the last
one and is dropped without moving another, but an erased entry that is set
again comes back at the end, and the entry that took its slot stays there.
-/

namespace TransposedViews

namespace SparseVector

section Cancellation

variable {α : Type} {v : SparseVector α} {k : Nat} {x : α}

theorem remove_insert (h : v.WellFormed) (hvacant : v.lookup k = none) (x : α) :
    ((v.insert k x).2.remove k).2 = v := by
  cases h.cutAt k with
  | stored below above y hbelow habove =>
      rw [lookup_stored below above k y hbelow] at hvacant
      cases hvacant
  | vacant below above hbelow habove =>
      rw [insert_vacant below above k x hbelow habove, remove_stored below above k x hbelow habove]

theorem insert_remove (h : v.WellFormed) (hstored : v.lookup k = some x) :
    ((v.remove k).2.insert k x).2 = v := by
  cases h.cutAt k with
  | stored below above y hbelow habove =>
      rw [lookup_stored below above k y hbelow] at hstored
      cases hstored
      rw [remove_stored below above k x hbelow habove, insert_vacant below above k x hbelow habove]
  | vacant below above hbelow habove =>
      rw [lookup_vacant below above k hbelow habove] at hstored
      cases hstored

theorem remove_of_vacant (h : v.WellFormed) (hvacant : v.lookup k = none) : (v.remove k).2 = v := by
  cases h.cutAt k with
  | stored below above y hbelow habove =>
      rw [lookup_stored below above k y hbelow] at hvacant
      cases hvacant
  | vacant below above hbelow habove => rw [remove_vacant below above k hbelow habove]

end Cancellation

end SparseVector

namespace SparseLines

section Cancellation

variable {α : Type} {s : SparseLines α} {major minor : Nat} {x : α}

private theorem modify_eq_self {xs : Array β} {k : Nat} {f : β → β}
    (h : ∀ x, xs[k]? = some x → f x = x) : xs.modify k f = xs := by
  refine Array.ext_getElem? fun n => ?_
  rw [Array.getElem?_modify]
  split
  · next heq =>
      subst heq
      cases hx : xs[k]? with
      | none => rfl
      | some x => exact congrArg some (h x hx)
  · rfl

private theorem modify_modify (xs : Array β) (k : Nat) (f g : β → β) :
    (xs.modify k f).modify k g = xs.modify k fun x => g (f x) := by
  refine Array.ext_getElem? fun n => ?_
  simp only [Array.getElem?_modify]
  split
  · rw [Option.map_map]
    rfl
  · rfl

private theorem lookup_of_lookup {found : Option α} (hlookup : s.lookup major minor = found)
    {line : SparseVector α} (hline : s.lines[major]? = some line) : line.lookup minor = found := by
  rwa [lookup, hline] at hlookup

private theorem line_wellFormed (h : s.WellFormed) {line : SparseVector α}
    (hline : s.lines[major]? = some line) : line.WellFormed :=
  (h line (Array.mem_of_getElem? hline)).toWellFormed

theorem discard_of_vacant (h : s.WellFormed) (hvacant : s.lookup major minor = none) :
    s.discard major minor = s := by
  have hlines : (s.lines.modify major fun v => (v.remove minor).2) = s.lines :=
    modify_eq_self fun line hline =>
      SparseVector.remove_of_vacant (line_wellFormed h hline) (lookup_of_lookup hvacant hline)
  rw [discard, hlines]

theorem discard_store (h : s.WellFormed) (hvacant : s.lookup major minor = none) (x : α) :
    (s.store major minor x).discard major minor = s := by
  have hlines : (s.lines.modify major fun v => ((v.insert minor x).2.remove minor).2) = s.lines :=
    modify_eq_self fun line hline =>
      SparseVector.remove_insert (line_wellFormed h hline) (lookup_of_lookup hvacant hline) x
  rw [discard, store, modify_modify, hlines]

theorem store_discard (h : s.WellFormed) (hstored : s.lookup major minor = some x) :
    (s.discard major minor).store major minor x = s := by
  have hlines : (s.lines.modify major fun v => ((v.remove minor).2.insert minor x).2) = s.lines :=
    modify_eq_self fun line hline =>
      SparseVector.insert_remove (line_wellFormed h hline) (lookup_of_lookup hstored hline)
  rw [store, discard, modify_modify, hlines]

end Cancellation

end SparseLines

namespace Coordinate

section Cancellation

variable {α : Type} {m : Coordinate α} {i j : Nat} {x : α} {entries middle : List (Triplet α)}

theorem slots_eq_none_iff (h : m.WellFormed) : m.slots[(i, j)]? = none ↔ m.lookup i j = none := by
  cases hslot : m.slots[(i, j)]? with
  | none => simp [lookup, hslot]
  | some s => simp [lookup_of_slot hslot (h.slot_lt hslot)]

theorem toList_store_vacant (h : m.WellFormed) (hslot : m.slots[(i, j)]? = none) (x : α) :
    (m.store i j x).toList = m.toList ++ [(i, j, x)] := by
  have hcols : m.colIndices.toList.length = m.values.toList.length := by simpa using h.cols_size
  have hrows : m.rowIndices.toList.length =
      (m.colIndices.toList.zip m.values.toList).length := by
    rw [List.length_zip, hcols, Nat.min_self]
    simpa using h.rows_size
  rw [store_vacant x hslot]
  simp only [toList, Array.toList_push]
  rw [List.zip_append hcols, List.zip_append hrows]
  rfl

/-- An entry that is listed is the one its slot leads to. -/
theorem slot_of_toList (h : m.WellFormed) {before after : List (Triplet α)}
    (hlist : m.toList = before ++ (i, j, x) :: after) : m.slots[(i, j)]? = some before.length := by
  have hget : m.toList[before.length]? = some (i, j, x) := by
    rw [hlist, List.getElem?_append_right (Nat.le_refl _), Nat.sub_self, List.getElem?_cons_zero]
  exact (h.slots_iff i j _).mpr ((getElem?_toList m _ i j x).mp hget).1

/-- After a removal a slot lists what it listed before, except for the freed
slot, which lists what the last one listed. -/
theorem getElem?_toList_discard (h : m.WellFormed) {s : Nat} (hslot : m.slots[(i, j)]? = some s)
    (t : Nat) :
    (m.discard i j).toList[t]? =
      if t < m.values.size - 1 then m.toList[if t = s then m.values.size - 1 else t]?
      else none := by
  have hlt := h.slot_lt hslot
  obtain ⟨row, col, hlast⟩ := h.holds_of_lt (show m.values.size - 1 < m.values.size by omega)
  have hvalues : (m.discard i j).values = swapRemoved m.values s := by
    simp only [discard_stored h hslot hlast]
  refine Option.ext fun entry => ?_
  obtain ⟨a, b, y⟩ := entry
  rw [getElem?_toList, holds_discard_stored h hslot, hvalues, getElem?_swapRemoved hlt]
  by_cases ht : t < m.values.size - 1
  · simp only [ht, if_true, true_and, getElem?_toList]
  · simp [ht]

/-- The last entry is dropped without moving another. -/
theorem toList_discard_last (h : m.WellFormed) (hlist : m.toList = entries ++ [(i, j, x)]) :
    (m.discard i j).toList = entries := by
  have hsize : m.values.size = entries.length + 1 := by
    have hlength := length_toList h
    rw [hlist] at hlength
    simpa [nnz] using hlength.symm
  refine List.ext_getElem? fun t => ?_
  rw [getElem?_toList_discard h (slot_of_toList h hlist), hsize, Nat.add_sub_cancel, hlist]
  split
  · next ht => rw [if_neg (Nat.ne_of_lt ht), List.getElem?_append_left ht]
  · next ht => rw [List.getElem?_eq_none (Nat.le_of_not_lt ht)]

/-- Any other entry is replaced by the last one. -/
theorem toList_discard_moved (h : m.WellFormed) {last : Triplet α}
    (hlist : m.toList = entries ++ (i, j, x) :: (middle ++ [last])) :
    (m.discard i j).toList = entries ++ last :: middle := by
  have hsize : m.values.size - 1 = entries.length + middle.length + 1 := by
    have hlength := length_toList h
    rw [hlist] at hlength
    simp only [nnz, List.length_append, List.length_cons, List.length_nil] at hlength
    omega
  refine List.ext_getElem? fun t => ?_
  rw [getElem?_toList_discard h (slot_of_toList h hlist), hsize, hlist]
  rcases Nat.lt_trichotomy t entries.length with hbefore | rfl | hafter
  · rw [if_pos (by omega), if_neg (Nat.ne_of_lt hbefore), List.getElem?_append_left hbefore,
      List.getElem?_append_left hbefore]
  · rw [if_pos (by omega), if_pos rfl, Nat.add_assoc]
    simp
  · obtain ⟨k, rfl⟩ := Nat.exists_eq_add_of_lt hafter
    rw [if_neg (Nat.ne_of_gt hafter), Nat.add_assoc,
      List.getElem?_append_right (Nat.le_add_right ..),
      List.getElem?_append_right (Nat.le_add_right ..), Nat.add_sub_cancel_left,
      List.getElem?_cons_succ, List.getElem?_cons_succ]
    by_cases hk : k < middle.length
    · rw [if_pos (by omega), List.getElem?_append_left hk]
    · rw [if_neg (by omega), List.getElem?_eq_none (by omega)]

/-- An entry has moved to the end of a storage, and the one that was last before
has taken its slot. The last entry itself stays where it is. -/
inductive MovedToEnd (entry : Triplet α) : List (Triplet α) → List (Triplet α) → Prop where
  | last (entries : List (Triplet α)) :
      MovedToEnd entry (entries ++ [entry]) (entries ++ [entry])
  | moved (entries middle : List (Triplet α)) (last : Triplet α) :
      MovedToEnd entry (entries ++ entry :: (middle ++ [last]))
        ((entries ++ last :: middle) ++ [entry])

theorem discard_store (h : m.WellFormed) (hi : i < m.nrows) (hj : j < m.ncols)
    (hvacant : m.lookup i j = none) (x : α) : (m.store i j x).discard i j = m := by
  have hstored := store_wellFormed x h hi hj
  have hlist := toList_store_vacant h ((slots_eq_none_iff h).mpr hvacant) x
  refine eq_of_toList_eq (discard_wellFormed hstored) h ?_ ?_ (toList_discard_last hstored hlist)
  · rw [discard_nrows, store_nrows]
  · rw [discard_ncols, store_ncols]

theorem store_discard_movedToEnd (h : m.WellFormed) (hstored : m.lookup i j = some x) :
    MovedToEnd (i, j, x) m.toList ((m.discard i j).store i j x).toList := by
  have hdiscarded := discard_wellFormed (i := i) (j := j) h
  have hvacant : (m.discard i j).slots[(i, j)]? = none := by
    rw [slots_eq_none_iff hdiscarded, lookup_discard h, if_pos ⟨rfl, rfl⟩]
  obtain ⟨entries, after, hlist⟩ := List.append_of_mem ((mem_toList h i j x).mpr hstored)
  rw [toList_store_vacant hdiscarded hvacant]
  rcases List.eq_nil_or_concat after with rfl | ⟨middle, last, rfl⟩
  · rw [toList_discard_last h hlist, hlist]
    exact .last entries
  · rw [List.concat_eq_append] at hlist
    rw [toList_discard_moved h hlist, hlist]
    exact .moved entries middle last

theorem lookup_store_discard (h : m.WellFormed) (hstored : m.lookup i j = some x) (a b : Nat) :
    ((m.discard i j).store i j x).lookup a b = m.lookup a b := by
  rw [lookup_store (discard_wellFormed h), lookup_discard h]
  split
  · next hab => rw [hab.1, hab.2, hstored]
  · rfl

end Cancellation

end Coordinate

namespace Matrix

variable {α : Type}

/-- What setting an erased value again leaves. Lines have it back where it was,
while the coordinate form has it at the end, with an index that is the inverse
of the storage again. -/
def PutBack (m : Matrix α) (i j : Nat) (x : α) (m' : Matrix α) : Prop :=
  match m, m' with
  | .coordinate m, .coordinate m' =>
      m'.nrows = m.nrows ∧ m'.ncols = m.ncols ∧ m'.WellFormed ∧
        Coordinate.MovedToEnd (i, j, x) m.toList m'.toList
  | m, m' => m' = m

/-- How the two edits of one position cancel. -/
structure EditsCancel (m : Matrix α) (i j : Nat) : Prop where
  erase_vacant : m.entry i j = .ok none → m.erase i j = (.ok (), m)
  erase_set : m.entry i j = .ok none →
    ∀ x, ∃ stored, m.set i j x = (.ok (), stored) ∧ stored.erase i j = (.ok (), m)
  set_erase : ∀ x, m.entry i j = .ok (some x) →
    ∃ erased m', m.erase i j = (.ok (), erased) ∧ erased.set i j x = (.ok (), m') ∧
      m.PutBack i j x m' ∧ ∀ a b, m'.entry a b = m.entry a b

section Cancellation

variable {i j : Nat}

/-- What is read is determined by the dimensions and by what is stored where. -/
theorem entry_congr {m m' : Matrix α} (h : m.WellFormed) (h' : m'.WellFormed)
    (hnrows : m'.nrows = m.nrows) (hncols : m'.ncols = m.ncols)
    (hlookup : ∀ a b, m'.lookup a b = m.lookup a b) (a b : Nat) :
    m'.entry a b = m.entry a b := by
  by_cases hinside : a < m.nrows ∧ b < m.ncols
  · rw [entry_inside h hinside.1 hinside.2, entry_inside h' (hnrows ▸ hinside.1)
      (hncols ▸ hinside.2), hlookup]
  · have houtside : ¬ (a < m'.nrows ∧ b < m'.ncols) := by rwa [hnrows, hncols]
    rw [entry_outside m hinside, entry_outside m' houtside, hnrows, hncols]

/-- Which of the laws applies is known from what is stored at the position, and
neither edit is refused there. -/
theorem editsCancel_of_found {m erased : Matrix α} {stored : α → Matrix α} {found : Option α}
    (hentry : m.entry i j = .ok found) (herase : m.erase i j = (.ok (), erased))
    (hset : ∀ x, m.set i j x = (.ok (), stored x))
    (hvacant : found = none → erased = m ∧ ∀ x, (stored x).erase i j = (.ok (), m))
    (hfound : ∀ x, found = some x → ∃ m', erased.set i j x = (.ok (), m') ∧
      m.PutBack i j x m' ∧ ∀ a b, m'.entry a b = m.entry a b) : m.EditsCancel i j where
  erase_vacant h := by
    obtain ⟨hsame, -⟩ := hvacant (Except.ok.inj (hentry.symm.trans h))
    rw [herase, hsame]
  erase_set h x := by
    obtain ⟨-, hundone⟩ := hvacant (Except.ok.inj (hentry.symm.trans h))
    exact ⟨stored x, hset x, hundone x⟩
  set_erase x h := by
    obtain ⟨m', hback, hput, hread⟩ := hfound x (Except.ok.inj (hentry.symm.trans h))
    exact ⟨erased, m', herase, hback, hput, hread⟩

theorem editsCancel_row {m : RowMatrix α} (h : m.storage.WellFormed) (hi : i < m.nrows)
    (hj : j < m.ncols) : (row m).EditsCancel i j := by
  refine editsCancel_of_found (RowMatrix.entry_eq h hi hj)
    (congrArg (Prod.map id row) (RowMatrix.erase_eq h hi hj))
    (fun x => congrArg (Prod.map id row) (RowMatrix.set_eq h hi hj x)) ?_ ?_
  · intro hvacant
    refine ⟨?_, fun x => ?_⟩
    · rw [SparseLines.discard_of_vacant h hvacant]
    · have hi' : i < (m.storage.store i j x).majorDim := by rwa [SparseLines.store_majorDim]
      have hundo := RowMatrix.erase_eq (m := m.store i j x)
        (SparseLines.store_wellFormed h hj x) hi' hj
      rw [RowMatrix.store, SparseLines.discard_store h hvacant] at hundo
      exact congrArg (Prod.map id row) hundo
  · intro x hstored
    have hi' : i < (m.storage.discard i j).majorDim := by rwa [SparseLines.discard_majorDim]
    have hundo := RowMatrix.set_eq (m := ⟨m.storage.discard i j⟩)
      (SparseLines.discard_wellFormed h) hi' hj x
    rw [RowMatrix.store, SparseLines.store_discard h hstored] at hundo
    exact ⟨row m, congrArg (Prod.map id row) hundo, rfl, fun _ _ => rfl⟩

theorem editsCancel_col {m : ColMatrix α} (h : m.storage.WellFormed) (hi : i < m.nrows)
    (hj : j < m.ncols) : (col m).EditsCancel i j := by
  refine editsCancel_of_found (ColMatrix.entry_eq h hi hj)
    (congrArg (Prod.map id col) (ColMatrix.erase_eq h hi hj))
    (fun x => congrArg (Prod.map id col) (ColMatrix.set_eq h hi hj x)) ?_ ?_
  · intro hvacant
    refine ⟨?_, fun x => ?_⟩
    · rw [SparseLines.discard_of_vacant h hvacant]
    · have hj' : j < (m.storage.store j i x).majorDim := by rwa [SparseLines.store_majorDim]
      have hundo := ColMatrix.erase_eq (m := m.store i j x)
        (SparseLines.store_wellFormed h hi x) hi hj'
      rw [ColMatrix.store, SparseLines.discard_store h hvacant] at hundo
      exact congrArg (Prod.map id col) hundo
  · intro x hstored
    have hj' : j < (m.storage.discard j i).majorDim := by rwa [SparseLines.discard_majorDim]
    have hundo := ColMatrix.set_eq (m := ⟨m.storage.discard j i⟩)
      (SparseLines.discard_wellFormed h) hi hj' x
    rw [ColMatrix.store, SparseLines.store_discard h hstored] at hundo
    exact ⟨col m, congrArg (Prod.map id col) hundo, rfl, fun _ _ => rfl⟩

theorem editsCancel_coordinate {m : Coordinate α} (h : m.WellFormed) (hi : i < m.nrows)
    (hj : j < m.ncols) : (coordinate m).EditsCancel i j := by
  refine editsCancel_of_found (Coordinate.entry_eq h hi hj)
    (congrArg (Prod.map id coordinate) (Coordinate.erase_eq h hi hj))
    (fun x => congrArg (Prod.map id coordinate) (Coordinate.set_eq h hi hj x)) ?_ ?_
  · intro hvacant
    refine ⟨?_, fun x => ?_⟩
    · rw [Coordinate.discard_vacant ((Coordinate.slots_eq_none_iff h).mpr hvacant)]
    · have hundo := Coordinate.erase_eq (Coordinate.store_wellFormed x h hi hj)
        ((Coordinate.store_nrows m i j x).symm ▸ hi) ((Coordinate.store_ncols m i j x).symm ▸ hj)
      rw [Coordinate.discard_store h hi hj hvacant] at hundo
      exact congrArg (Prod.map id coordinate) hundo
  · intro x hstored
    have herased := Coordinate.discard_wellFormed (i := i) (j := j) h
    have hi' : i < (m.discard i j).nrows := by rwa [Coordinate.discard_nrows]
    have hj' : j < (m.discard i j).ncols := by rwa [Coordinate.discard_ncols]
    have hredo := congrArg (Prod.map id coordinate) (Coordinate.set_eq herased hi' hj' x)
    have hback := Coordinate.store_wellFormed x herased hi' hj'
    have hnrows : ((m.discard i j).store i j x).nrows = m.nrows := by
      rw [Coordinate.store_nrows, Coordinate.discard_nrows]
    have hncols : ((m.discard i j).store i j x).ncols = m.ncols := by
      rw [Coordinate.store_ncols, Coordinate.discard_ncols]
    refine ⟨_, hredo, ⟨hnrows, hncols, hback, Coordinate.store_discard_movedToEnd h hstored⟩, ?_⟩
    exact entry_congr h hback hnrows hncols (Coordinate.lookup_store_discard h hstored)

/-- In every reachable sparse matrix the two edits cancel at every position. -/
theorem edits_cancel {m : Matrix α} (h : m.Reachable) (hkind : m.kind ≠ .dense)
    (hi : i < m.nrows) (hj : j < m.ncols) : m.EditsCancel i j := by
  have hwf := h.wellFormed
  cases m with
  | dense m => exact absurd rfl hkind
  | row m => exact editsCancel_row hwf hi hj
  | col m => exact editsCancel_col hwf hi hj
  | coordinate m => exact editsCancel_coordinate hwf hi hj

/-- Three entries in coordinate form. -/
def threeStored : Coordinate Nat :=
  (((Coordinate.empty 2 3).store 0 1 5).store 1 2 7).store 1 0 6

/-- The first entry is erased and set again, and a vacant position is set and
erased again. -/
theorem edits_cancel_of_three_stored :
    (coordinate threeStored).Reachable ∧
      (coordinate threeStored).entry 0 1 = .ok (some 5) ∧
      (∃ erased m', (coordinate threeStored).erase 0 1 = (.ok (), erased) ∧
        erased.set 0 1 5 = (.ok (), m') ∧ (coordinate threeStored).PutBack 0 1 5 m') ∧
      (coordinate threeStored).entry 1 1 = .ok none ∧
      ∀ x, ∃ stored, (coordinate threeStored).set 1 1 x = (.ok (), stored) ∧
        stored.erase 1 1 = (.ok (), coordinate threeStored) := by
  have hbuilt : Coordinate.ofTriplets 2 3 [(0, 1, 5), (1, 2, 7), (1, 0, 6)] = .ok threeStored :=
    coordinate_accepts_inside (by decide)
  have hreachable : (coordinate threeStored).Reachable := .built (.triplets hbuilt)
  have hnrows : (coordinate threeStored).nrows = 2 := by
    simp [nrows, threeStored, Coordinate.empty]
  have hncols : (coordinate threeStored).ncols = 3 := by
    simp [ncols, threeStored, Coordinate.empty]
  have hstored : (coordinate threeStored).entry 0 1 = .ok (some 5) := by
    rw [entry_inside hreachable.wellFormed (by omega) (by omega)]
    simp [lookup, Coordinate.lookup, threeStored, Coordinate.store, Coordinate.empty,
      Std.ExtHashMap.getElem_insert]
  have hvacant : (coordinate threeStored).entry 1 1 = .ok none := by
    rw [entry_inside hreachable.wellFormed (by omega) (by omega)]
    simp [lookup, Coordinate.lookup, threeStored, Coordinate.store, Coordinate.empty]
  have hkind : (coordinate threeStored).kind ≠ .dense := by simp [kind]
  have hfirst := edits_cancel hreachable (i := 0) (j := 1) hkind (by omega) (by omega)
  have hother := edits_cancel hreachable (i := 1) (j := 1) hkind (by omega) (by omega)
  obtain ⟨erased, m', herase, hset, hback, -⟩ := hfirst.set_erase 5 hstored
  exact ⟨hreachable, hstored, ⟨erased, m', herase, hset, hback⟩, hvacant,
    hother.erase_set hvacant⟩

end Cancellation

end Matrix

end TransposedViews
