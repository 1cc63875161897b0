import Mathlib.Data.List.Basic
import TransposedViews.Coordinate.Traversal
import TransposedViews.Proofs.Traversal

/-!
The representation of matrices in coordinate form. The index of slots is the
inverse of the storage: it leads from a position to the one slot that holds
it, and to nothing where the position is not stored. Appending, overwriting
and the removal that moves the last entry all keep it so, and the stored
entries behave like a finite map from positions to values.
-/

namespace TransposedViews

section SwapRemoved

variable {α : Type u} {xs : Array α} {k : Nat}

/-- The sequence with its last element moved to a place, over the one there. -/
def swapRemoved (xs : Array α) (k : Nat) : Array α :=
  match xs.back? with
  | some last => (xs.setIfInBounds k last).pop
  | none => xs

theorem swapRemoved_eq (h : k < xs.size) :
    swapRemoved xs k = (xs.setIfInBounds k xs[xs.size - 1]).pop := by
  have hback : xs.back? = some xs[xs.size - 1] := by
    rw [Array.back?_eq_getElem?, Array.getElem?_eq_getElem]
  simp [swapRemoved, hback]

theorem swapRemove_eq (h : k < xs.size) : swapRemove xs k = .ok (xs[k], swapRemoved xs k) := by
  have hback : xs.back? = some xs[xs.size - 1] := by
    rw [Array.back?_eq_getElem?, Array.getElem?_eq_getElem]
  simp [swapRemove, swapRemoved_eq h, hback, h]

theorem size_swapRemoved (h : k < xs.size) : (swapRemoved xs k).size = xs.size - 1 := by
  simp [swapRemoved_eq h]

/-- The last element is found in the freed place; the others stay. -/
theorem getElem?_swapRemoved (h : k < xs.size) (s : Nat) :
    (swapRemoved xs k)[s]? =
      if s < xs.size - 1 then xs[if s = k then xs.size - 1 else s]? else none := by
  rw [swapRemoved_eq h, Array.getElem?_pop, Array.size_setIfInBounds,
    Array.getElem?_setIfInBounds]
  have hlast : xs.size - 1 < xs.size := by omega
  by_cases hs : s < xs.size - 1
  · by_cases hk : s = k
    · subst hk
      simp [hs, h]
    · have hne : k ≠ s := fun heq => hk heq.symm
      simp [hs, hk, hne]
  · simp [hs]

end SwapRemoved

namespace Coordinate

variable {α : Type}

/-- The value stored at a position, if there is one. -/
def lookup (m : Coordinate α) (i j : Nat) : Option α :=
  (m.slots[(i, j)]?).bind fun slot => m.values[slot]?

/-- The slot that holds a position, if it is stored, once its value has been
read. A slot outside the storage is refused. -/
def slot? (m : Coordinate α) (i j : Nat) : Except Fault (Option Nat) :=
  match m.slots[(i, j)]? with
  | none => .ok none
  | some slot => (readElement m.values slot).map fun _ => some slot

/-- The matrix with a value at a position, in its slot if it has one. -/
def store (m : Coordinate α) (i j : Nat) (x : α) : Coordinate α :=
  match m.slots[(i, j)]? with
  | some slot => {m with values := m.values.setIfInBounds slot x}
  | none =>
      {m with
        rowIndices := m.rowIndices.push i
        colIndices := m.colIndices.push j
        values := m.values.push x
        slots := m.slots.insert (i, j) m.values.size}

/-- The matrix with nothing at a position. The last entry is moved to the freed
slot, if it is another one. -/
def discard (m : Coordinate α) (i j : Nat) : Coordinate α :=
  match m.slots[(i, j)]? with
  | none => m
  | some slot =>
      let rowIndices := swapRemoved m.rowIndices slot
      let colIndices := swapRemoved m.colIndices slot
      let slots := m.slots.erase (i, j)
      let slots :=
        match rowIndices[slot]?, colIndices[slot]? with
        | some row, some col => slots.insert (row, col) slot
        | _, _ => slots
      {m with rowIndices, colIndices, values := swapRemoved m.values slot, slots}

/-- A slot of the storage holds a position. -/
def Holds (m : Coordinate α) (s i j : Nat) : Prop :=
  m.rowIndices[s]? = some i ∧ m.colIndices[s]? = some j

/-- The three sequences have one length, every stored position is inside the
matrix, and the index leads from a position to a slot exactly if the slot
holds that position. -/
structure WellFormed (m : Coordinate α) : Prop where
  rows_size : m.rowIndices.size = m.values.size
  cols_size : m.colIndices.size = m.values.size
  inside : ∀ s i j, m.Holds s i j → i < m.nrows ∧ j < m.ncols
  slots_iff : ∀ i j s, m.slots[(i, j)]? = some s ↔ m.Holds s i j

theorem Holds.position_unique {m : Coordinate α} {s i j a b : Nat} (h : m.Holds s i j)
    (h' : m.Holds s a b) : i = a ∧ j = b :=
  ⟨Option.some.inj (h.1.symm.trans h'.1), Option.some.inj (h.2.symm.trans h'.2)⟩

theorem empty_wellFormed (nrows ncols : Nat) :
    (empty nrows ncols : Coordinate α).WellFormed where
  rows_size := rfl
  cols_size := rfl
  inside := by simp [empty, Holds]
  slots_iff := by simp [empty, Holds]

namespace WellFormed

variable {m : Coordinate α} {i j s : Nat}

theorem slot_lt_of_holds (h : m.WellFormed) (hs : m.Holds s i j) : s < m.values.size := by
  obtain ⟨hlt, -⟩ := Array.getElem?_eq_some_iff.mp hs.1
  rwa [← h.rows_size]

/-- A slot of the index is a slot of the storage. -/
theorem slot_lt (h : m.WellFormed) (hs : m.slots[(i, j)]? = some s) : s < m.values.size :=
  h.slot_lt_of_holds ((h.slots_iff i j s).mp hs)

theorem holds_of_lt (h : m.WellFormed) (hs : s < m.values.size) : ∃ i j, m.Holds s i j :=
  ⟨_, _, Array.getElem?_eq_getElem (h.rows_size.symm ▸ hs),
    Array.getElem?_eq_getElem (h.cols_size.symm ▸ hs)⟩

/-- No position is stored twice. -/
theorem slot_unique (h : m.WellFormed) {s t : Nat} (hs : m.Holds s i j) (ht : m.Holds t i j) :
    s = t := by
  have hslot := (h.slots_iff i j s).mpr hs
  have hslot' := (h.slots_iff i j t).mpr ht
  exact Option.some.inj (hslot.symm.trans hslot')

theorem row_inside (h : m.WellFormed) (row : Nat) (hrow : row ∈ m.rowIndices) :
    row < m.nrows := by
  obtain ⟨s, hs⟩ := Array.getElem?_of_mem hrow
  obtain ⟨hlt, -⟩ := Array.getElem?_eq_some_iff.mp hs
  obtain ⟨i, j, hheld⟩ := h.holds_of_lt (h.rows_size ▸ hlt)
  have heq : row = i := Option.some.inj (hs.symm.trans hheld.1)
  exact heq ▸ (h.inside s i j hheld).1

theorem col_inside (h : m.WellFormed) (col : Nat) (hcol : col ∈ m.colIndices) :
    col < m.ncols := by
  obtain ⟨s, hs⟩ := Array.getElem?_of_mem hcol
  obtain ⟨hlt, -⟩ := Array.getElem?_eq_some_iff.mp hs
  obtain ⟨i, j, hheld⟩ := h.holds_of_lt (h.cols_size ▸ hlt)
  have heq : col = j := Option.some.inj (hs.symm.trans hheld.2)
  exact heq ▸ (h.inside s i j hheld).2

/-- Other values in the same slots leave the representation intact. -/
theorem with_values (h : m.WellFormed) (values : Array α)
    (hsize : values.size = m.values.size) : ({m with values} : Coordinate α).WellFormed where
  rows_size := h.rows_size.trans hsize.symm
  cols_size := h.cols_size.trans hsize.symm
  inside := h.inside
  slots_iff := h.slots_iff

end WellFormed

section Dimensions

variable (m : Coordinate α) (i j : Nat) (x : α)

@[simp] theorem store_nrows : (m.store i j x).nrows = m.nrows := by
  unfold store
  split <;> rfl

@[simp] theorem store_ncols : (m.store i j x).ncols = m.ncols := by
  unfold store
  split <;> rfl

@[simp] theorem discard_nrows : (m.discard i j).nrows = m.nrows := by
  unfold discard
  split <;> rfl

@[simp] theorem discard_ncols : (m.discard i j).ncols = m.ncols := by
  unfold discard
  split <;> rfl

end Dimensions

section Store

variable {m : Coordinate α} {i j s : Nat} (x : α)

theorem store_stored (hslot : m.slots[(i, j)]? = some s) :
    m.store i j x = {m with values := m.values.setIfInBounds s x} := by
  simp only [store, hslot]

theorem store_vacant (hslot : m.slots[(i, j)]? = none) :
    m.store i j x =
      {m with
        rowIndices := m.rowIndices.push i
        colIndices := m.colIndices.push j
        values := m.values.push x
        slots := m.slots.insert (i, j) m.values.size} := by
  simp only [store, hslot]

/-- An appended entry is held by the new slot, and nothing else changes. -/
theorem holds_store_vacant (h : m.WellFormed) (hslot : m.slots[(i, j)]? = none) (t a b : Nat) :
    (m.store i j x).Holds t a b ↔
      if t = m.values.size then a = i ∧ b = j else m.Holds t a b := by
  rw [store_vacant x hslot, Holds, Holds]
  simp only [Array.getElem?_push, h.rows_size, h.cols_size]
  by_cases ht : t = m.values.size
  · simp only [ht, if_true, Option.some.injEq, eq_comm]
  · simp only [ht, if_false]

theorem append_wellFormed (h : m.WellFormed) (hi : i < m.nrows) (hj : j < m.ncols)
    (hslot : m.slots[(i, j)]? = none) : (m.store i j x).WellFormed := by
  have hholds := holds_store_vacant x h hslot
  refine ⟨?_, ?_, ?_, ?_⟩
  · simp [store_vacant x hslot, h.rows_size]
  · simp [store_vacant x hslot, h.cols_size]
  · intro t a b hheld
    rw [store_nrows, store_ncols]
    rw [hholds] at hheld
    split at hheld
    · exact ⟨hheld.1 ▸ hi, hheld.2 ▸ hj⟩
    · exact h.inside t a b hheld
  · intro a b t
    have hlookup : (m.store i j x).slots[(a, b)]? =
        if i = a ∧ j = b then some m.values.size else m.slots[(a, b)]? := by
      simp [store_vacant x hslot, Std.ExtHashMap.getElem?_insert]
    rw [hlookup, hholds]
    by_cases hab : i = a ∧ j = b
    · obtain ⟨rfl, rfl⟩ := hab
      have hfree : ¬ m.Holds t i j := by
        intro hheld
        have hsome := (h.slots_iff i j t).mpr hheld
        rw [hslot] at hsome
        cases hsome
      simp [hfree, eq_comm]
    · have hne : ¬ (a = i ∧ b = j) := fun heq => hab ⟨heq.1.symm, heq.2.symm⟩
      rw [if_neg hab, h.slots_iff]
      by_cases ht : t = m.values.size
      · have hfree : ¬ m.Holds t a b := fun hheld => by
          have hlt := h.slot_lt_of_holds hheld
          omega
        simp only [ht, if_true, hne, iff_false]
        exact ht ▸ hfree
      · simp only [ht, if_false]

/-- Storing keeps the representation, whether it overwrites or appends. -/
theorem store_wellFormed (h : m.WellFormed) (hi : i < m.nrows) (hj : j < m.ncols) :
    (m.store i j x).WellFormed := by
  cases hslot : m.slots[(i, j)]? with
  | none => exact append_wellFormed x h hi hj hslot
  | some slot =>
      rw [store_stored x hslot]
      exact h.with_values _ (by simp)

end Store

section Discard

variable {m : Coordinate α} {i j s : Nat}

theorem discard_vacant (hslot : m.slots[(i, j)]? = none) : m.discard i j = m := by
  simp only [discard, hslot]

/-- What a removal leaves: every sequence loses the slot to its last element,
and the index of the moved position is corrected if it is another one. -/
theorem discard_stored (h : m.WellFormed) (hslot : m.slots[(i, j)]? = some s) {row col : Nat}
    (hlast : m.Holds (m.values.size - 1) row col) :
    m.discard i j =
      {m with
        rowIndices := swapRemoved m.rowIndices s
        colIndices := swapRemoved m.colIndices s
        values := swapRemoved m.values s
        slots :=
          if s < m.values.size - 1 then (m.slots.erase (i, j)).insert (row, col) s
          else m.slots.erase (i, j)} := by
  have hlt := h.slot_lt hslot
  have hrows := getElem?_swapRemoved (h.rows_size.symm ▸ hlt) s
  have hcols := getElem?_swapRemoved (h.cols_size.symm ▸ hlt) s
  rw [h.rows_size, if_pos rfl, hlast.1] at hrows
  rw [h.cols_size, if_pos rfl, hlast.2] at hcols
  by_cases hs : s < m.values.size - 1
  · simp only [hs, if_true] at hrows hcols ⊢
    simp only [discard, hslot, hrows, hcols]
  · simp only [hs, if_false] at hrows hcols ⊢
    simp only [discard, hslot, hrows]

/-- After a removal a slot holds what it held before, except for the freed
slot, which holds what the last one held. -/
theorem holds_discard_stored (h : m.WellFormed) (hslot : m.slots[(i, j)]? = some s)
    (t a b : Nat) :
    (m.discard i j).Holds t a b ↔
      t < m.values.size - 1 ∧ m.Holds (if t = s then m.values.size - 1 else t) a b := by
  have hlt := h.slot_lt hslot
  obtain ⟨row, col, hlast⟩ := h.holds_of_lt (show m.values.size - 1 < m.values.size by omega)
  rw [discard_stored h hslot hlast, Holds, Holds]
  simp only [getElem?_swapRemoved (h.rows_size.symm ▸ hlt),
    getElem?_swapRemoved (h.cols_size.symm ▸ hlt), h.rows_size, h.cols_size]
  by_cases ht : t < m.values.size - 1
  · simp only [ht, if_true, true_and]
  · simp [ht]

theorem erased_not_held (h : m.WellFormed) (hslot : m.slots[(i, j)]? = some s) (t : Nat) :
    ¬ (m.discard i j).Holds t i j := by
  intro hold
  obtain ⟨ht, hbefore⟩ := (holds_discard_stored h hslot t i j).mp hold
  have heq := h.slot_unique hbefore ((h.slots_iff i j s).mp hslot)
  split at heq <;> omega

/-- A position that is neither erased nor moved keeps its slot. -/
theorem holds_discard_other (h : m.WellFormed) (hslot : m.slots[(i, j)]? = some s)
    {row col a b : Nat} (hlast : m.Holds (m.values.size - 1) row col)
    (herased : ¬ (i = a ∧ j = b)) (hmoved : s < m.values.size - 1 → ¬ (row = a ∧ col = b))
    (t : Nat) : (m.discard i j).Holds t a b ↔ m.Holds t a b := by
  have hlt := h.slot_lt hslot
  have hheld := (h.slots_iff i j s).mp hslot
  rw [holds_discard_stored h hslot]
  constructor
  · rintro ⟨ht, hold⟩
    by_cases hts : t = s
    · rw [if_pos hts] at hold
      exact absurd (hlast.position_unique hold) (hmoved (by omega))
    · rwa [if_neg hts] at hold
  · intro hold
    have hts : t ≠ s := by
      rintro rfl
      exact herased (hheld.position_unique hold)
    have hne : t ≠ m.values.size - 1 := by
      rintro rfl
      exact hmoved (by omega) (hlast.position_unique hold)
    have ht := h.slot_lt_of_holds hold
    exact ⟨by omega, by rwa [if_neg hts]⟩

/-- The index after a removal is again the inverse of the storage. Only the
moved position changes its slot, and it moves to the freed one. -/
theorem slots_discard_stored (h : m.WellFormed) (hslot : m.slots[(i, j)]? = some s)
    (a b t : Nat) : (m.discard i j).slots[(a, b)]? = some t ↔ (m.discard i j).Holds t a b := by
  have hlt := h.slot_lt hslot
  obtain ⟨row, col, hlast⟩ := h.holds_of_lt (show m.values.size - 1 < m.values.size by omega)
  have hslots : (m.discard i j).slots[(a, b)]? =
      if s < m.values.size - 1 ∧ row = a ∧ col = b then some s
      else if i = a ∧ j = b then none else m.slots[(a, b)]? := by
    rw [discard_stored h hslot hlast]
    by_cases hs : s < m.values.size - 1
    · simp [hs, Std.ExtHashMap.getElem?_insert, Std.ExtHashMap.getElem?_erase]
    · simp [hs, Std.ExtHashMap.getElem?_erase]
  rw [hslots]
  by_cases hmoved : s < m.values.size - 1 ∧ row = a ∧ col = b
  · obtain ⟨hs, rfl, rfl⟩ := hmoved
    have hfreed : (m.discard i j).Holds s row col := by
      rw [holds_discard_stored h hslot, if_pos rfl]
      exact ⟨hs, hlast⟩
    rw [if_pos ⟨hs, rfl, rfl⟩, Option.some.injEq]
    constructor
    · rintro rfl
      exact hfreed
    · intro hold
      rw [holds_discard_stored h hslot] at hold
      by_contra hne
      rw [if_neg fun heq => hne heq.symm] at hold
      have heq := h.slot_unique hold.2 hlast
      omega
  · rw [if_neg hmoved]
    by_cases herased : i = a ∧ j = b
    · obtain ⟨rfl, rfl⟩ := herased
      simp [erased_not_held h hslot t]
    · rw [if_neg herased, holds_discard_other h hslot hlast herased fun hs heq => hmoved ⟨hs, heq⟩]
      exact h.slots_iff a b t

/-- Removal keeps the representation, whichever entry is removed. -/
theorem discard_wellFormed (h : m.WellFormed) : (m.discard i j).WellFormed := by
  cases hslot : m.slots[(i, j)]? with
  | none => rwa [discard_vacant hslot]
  | some s =>
      have hlt := h.slot_lt hslot
      obtain ⟨row, col, hlast⟩ := h.holds_of_lt (show m.values.size - 1 < m.values.size by omega)
      refine ⟨?_, ?_, ?_, slots_discard_stored h hslot⟩
      · simp [discard_stored h hslot hlast, size_swapRemoved, h.rows_size, hlt]
      · simp [discard_stored h hslot hlast, size_swapRemoved, h.cols_size, hlt]
      · intro t a b hheld
        have hinside := h.inside _ a b ((holds_discard_stored h hslot t a b).mp hheld).2
        simpa only [discard_nrows, discard_ncols] using hinside

end Discard

section Lookup

variable {m : Coordinate α} {i j s : Nat}

theorem lookup_eq_some_iff (h : m.WellFormed) (x : α) :
    m.lookup i j = some x ↔ ∃ s, m.Holds s i j ∧ m.values[s]? = some x := by
  rw [lookup, Option.bind_eq_some_iff]
  exact exists_congr fun s => and_congr_left fun _ => h.slots_iff i j s

theorem lookup_of_slot (hslot : m.slots[(i, j)]? = some s) (hlt : s < m.values.size) :
    m.lookup i j = some m.values[s] := by
  rw [lookup, hslot, Option.bind_some, Array.getElem?_eq_getElem hlt]

theorem lookup_inside (h : m.WellFormed) (x : α) (hx : m.lookup i j = some x) :
    i < m.nrows ∧ j < m.ncols := by
  obtain ⟨s, hheld, -⟩ := (lookup_eq_some_iff h x).mp hx
  exact h.inside s i j hheld

/-- A value for a vacant position is appended. All slots in use before are
below the new one. -/
theorem lookup_store_vacant (h : m.WellFormed) (x : α) (hslot : m.slots[(i, j)]? = none)
    (a b : Nat) :
    (m.store i j x).lookup a b = if a = i ∧ b = j then some x else m.lookup a b := by
  have hslots : (m.store i j x).slots[(a, b)]? =
      if i = a ∧ j = b then some m.values.size else m.slots[(a, b)]? := by
    simp [store_vacant x hslot, Std.ExtHashMap.getElem?_insert]
  have hvalues : (m.store i j x).values = m.values.push x := by
    simp only [store_vacant x hslot]
  rw [lookup, hslots, hvalues]
  by_cases hab : a = i ∧ b = j
  · obtain ⟨rfl, rfl⟩ := hab
    simp
  · have hne : ¬ (i = a ∧ j = b) := fun heq => hab ⟨heq.1.symm, heq.2.symm⟩
    rw [if_neg hne, if_neg hab, lookup]
    cases hother : m.slots[(a, b)]? with
    | none => rfl
    | some t => simp [Array.getElem?_push_lt (h.slot_lt hother), h.slot_lt hother]

/-- A value for a stored position is written to its slot, which no other
position shares. -/
theorem lookup_store_stored (h : m.WellFormed) (x : α) (hslot : m.slots[(i, j)]? = some s)
    (a b : Nat) :
    (m.store i j x).lookup a b = if a = i ∧ b = j then some x else m.lookup a b := by
  rw [store_stored x hslot]
  simp only [lookup]
  by_cases hab : a = i ∧ b = j
  · obtain ⟨rfl, rfl⟩ := hab
    simp [hslot, h.slot_lt hslot]
  · rw [if_neg hab]
    cases hother : m.slots[(a, b)]? with
    | none => rfl
    | some t =>
        have hst : s ≠ t := by
          rintro rfl
          have hheld := (h.slots_iff i j s).mp hslot
          exact hab (((h.slots_iff a b s).mp hother).position_unique hheld)
        simp [hst]

theorem lookup_store (h : m.WellFormed) (x : α) (a b : Nat) :
    (m.store i j x).lookup a b = if a = i ∧ b = j then some x else m.lookup a b := by
  cases hslot : m.slots[(i, j)]? with
  | none => exact lookup_store_vacant h x hslot a b
  | some s => exact lookup_store_stored h x hslot a b

theorem lookup_discard (h : m.WellFormed) (a b : Nat) :
    (m.discard i j).lookup a b = if a = i ∧ b = j then none else m.lookup a b := by
  cases hslot : m.slots[(i, j)]? with
  | none =>
      rw [discard_vacant hslot]
      by_cases hab : a = i ∧ b = j
      · obtain ⟨rfl, rfl⟩ := hab
        simp [lookup, hslot]
      · rw [if_neg hab]
  | some s =>
      have hlt := h.slot_lt hslot
      have hheld := (h.slots_iff i j s).mp hslot
      obtain ⟨row, col, hlast⟩ := h.holds_of_lt (show m.values.size - 1 < m.values.size by omega)
      have hvalues : (m.discard i j).values = swapRemoved m.values s := by
        simp only [discard_stored h hslot hlast]
      apply Option.ext
      intro x
      rw [lookup_eq_some_iff (discard_wellFormed h)]
      by_cases hab : a = i ∧ b = j
      · obtain ⟨rfl, rfl⟩ := hab
        simp only [and_self, if_true, reduceCtorEq, iff_false]
        rintro ⟨t, hold, -⟩
        exact erased_not_held h hslot t hold
      · simp only [holds_discard_stored h hslot, hvalues, getElem?_swapRemoved hlt]
        rw [if_neg hab, lookup_eq_some_iff h]
        constructor
        · rintro ⟨t, ⟨ht, hold⟩, hvalue⟩
          exact ⟨_, hold, by rwa [if_pos ht] at hvalue⟩
        · rintro ⟨u, hold, hvalue⟩
          have hus : u ≠ s := by
            rintro rfl
            exact hab (hold.position_unique hheld)
          have hu := h.slot_lt_of_holds hold
          by_cases hend : u = m.values.size - 1
          · have hs : s < m.values.size - 1 := by omega
            exact ⟨s, ⟨hs, by simpa [hend] using hold⟩, by simpa [hs, hend] using hvalue⟩
          · have ht : u < m.values.size - 1 := by omega
            exact ⟨u, ⟨ht, by simpa [hus] using hold⟩, by simpa [ht, hus] using hvalue⟩

end Lookup

section Access

variable {m : Coordinate α} {i j : Nat}

theorem slot?_eq (h : m.WellFormed) : m.slot? i j = .ok (m.slots[(i, j)]?) := by
  unfold slot?
  cases hslot : m.slots[(i, j)]? with
  | none => rfl
  | some s => exact congrArg (Except.map _) (readElement_of_lt (h.slot_lt hslot))

theorem entry_eq (h : m.WellFormed) (hi : i < m.nrows) (hj : j < m.ncols) :
    m.entry i j = .ok (m.lookup i j) := by
  rw [entry, assertInBounds_of_inside hi hj]
  cases hslot : m.slots[(i, j)]? with
  | none =>
      rw [lookup, hslot]
      rfl
  | some s =>
      have hlt := h.slot_lt hslot
      rw [lookup_of_slot hslot hlt]
      exact congrArg (Except.map some) (readElement_of_lt hlt)

/-- An insertion into an intact matrix reaches the slot that it looks up. -/
theorem insert_eq (h : m.WellFormed) (x : α) : m.insert i j x = (.ok (), m.store i j x) := by
  cases hslot : m.slots[(i, j)]? with
  | none =>
      rw [store_vacant x hslot]
      simp only [insert, hslot]
      rfl
  | some s =>
      have hlt := h.slot_lt hslot
      have hread := readElement_of_lt hlt
      rw [store_stored x hslot]
      simp only [insert, hslot, replaceElement, hread]
      rfl

/-- So does a removal, and the last entry is where the freed slot expects
it. -/
theorem remove_eq (h : m.WellFormed) : m.remove i j = (.ok (), m.discard i j) := by
  cases hslot : m.slots[(i, j)]? with
  | none =>
      rw [discard_vacant hslot]
      simp only [remove, hslot]
      rfl
  | some s =>
      have hlt := h.slot_lt hslot
      have hrow := h.rows_size.symm ▸ hlt
      have hcol := h.cols_size.symm ▸ hlt
      obtain ⟨row, col, hlast⟩ := h.holds_of_lt (show m.values.size - 1 < m.values.size by omega)
      rw [discard_stored h hslot hlast]
      simp only [remove, hslot, swapRemove_eq hrow, swapRemove_eq hcol, swapRemove_eq hlt]
      by_cases hs : s < m.values.size - 1
      · have hmovedRow : readElement (swapRemoved m.rowIndices s) s = .ok row := by
          simp [readElement, getElem?_swapRemoved hrow, h.rows_size, hs, hlast.1]
        have hmovedCol : readElement (swapRemoved m.colIndices s) s = .ok col := by
          simp [readElement, getElem?_swapRemoved hcol, h.cols_size, hs, hlast.2]
        simp [size_swapRemoved hlt, hs, hmovedRow, hmovedCol]
      · simp [size_swapRemoved hlt, hs]

theorem set_eq (h : m.WellFormed) (hi : i < m.nrows) (hj : j < m.ncols) (x : α) :
    m.set i j x = (.ok (), m.store i j x) := by
  rw [set, guarded_of_inside hi hj, insert_eq h]

theorem erase_eq (h : m.WellFormed) (hi : i < m.nrows) (hj : j < m.ncols) :
    m.erase i j = (.ok (), m.discard i j) := by
  rw [erase, guarded_of_inside hi hj, remove_eq h]

variable {fault : Fault}

/-- Only positions outside the matrix are refused. -/
theorem entry_refused (h : m.WellFormed) (hfault : m.entry i j = .error fault) :
    fault = .position i j m.nrows m.ncols := by
  by_cases hinside : i < m.nrows ∧ j < m.ncols
  · rw [entry_eq h hinside.1 hinside.2] at hfault
    cases hfault
  · rw [entry, asserted_of_outside hinside] at hfault
    exact (Except.error.inj hfault).symm

theorem set_refused (h : m.WellFormed) {x : α} (hfault : (m.set i j x).1 = .error fault) :
    fault = .position i j m.nrows m.ncols := by
  by_cases hinside : i < m.nrows ∧ j < m.ncols
  · rw [set_eq h hinside.1 hinside.2] at hfault
    cases hfault
  · rw [set, guarded_of_outside hinside] at hfault
    exact (Except.error.inj hfault).symm

theorem erase_refused (h : m.WellFormed) (hfault : (m.erase i j).1 = .error fault) :
    fault = .position i j m.nrows m.ncols := by
  by_cases hinside : i < m.nrows ∧ j < m.ncols
  · rw [erase_eq h hinside.1 hinside.2] at hfault
    cases hfault
  · rw [erase, guarded_of_outside hinside] at hfault
    exact (Except.error.inj hfault).symm

end Access

section Enumeration

theorem toList_indexed (rows cols : List Nat) (payloads : List β) :
    Cursor.toList (⟨rows, cols, payloads⟩ : Indexed β) =
      (rows.zip (cols.zip payloads)).map fun (i, j, x) => ⟨i, j, x⟩ := by
  refine Cursor.toList_eq_of_listing
    (fun s : Indexed β => (s.rows.zip (s.cols.zip s.payloads)).map fun (i, j, x) => ⟨i, j, x⟩)
    ?_ ?_ ⟨rows, cols, payloads⟩
  · rintro ⟨_ | ⟨i, rows⟩, _ | ⟨j, cols⟩, _ | ⟨x, payloads⟩⟩ <;> rfl
  · rintro ⟨_ | ⟨i, rows⟩, _ | ⟨j, cols⟩, _ | ⟨x, payloads⟩⟩ <;> rfl

variable {m : Coordinate α}

theorem getElem?_toList (m : Coordinate α) (s i j : Nat) (x : α) :
    m.toList[s]? = some (i, j, x) ↔ m.Holds s i j ∧ m.values[s]? = some x := by
  simp only [toList, List.getElem?_zip_eq_some, Array.getElem?_toList, Holds, and_assoc]

/-- The storage lists what lookups find and nothing else. -/
theorem mem_toList (h : m.WellFormed) (i j : Nat) (x : α) :
    (i, j, x) ∈ m.toList ↔ m.lookup i j = some x := by
  rw [List.mem_iff_getElem?, lookup_eq_some_iff h]
  exact exists_congr fun s => getElem?_toList m s i j x

theorem length_toList (h : m.WellFormed) : m.toList.length = m.nnz := by
  simp [toList, nnz, h.rows_size, h.cols_size]

/-- No position is listed twice. -/
theorem toList_distinct (h : m.WellFormed) :
    m.toList.Pairwise (fun a b => ¬ (a.1 = b.1 ∧ a.2.1 = b.2.1)) := by
  rw [List.pairwise_iff_getElem]
  intro s t hs ht hlt ⟨hrow, hcol⟩
  have hheld := ((getElem?_toList m s _ _ _).mp (List.getElem?_eq_getElem hs)).1
  have hheld' := ((getElem?_toList m t _ _ _).mp (List.getElem?_eq_getElem ht)).1
  rw [List.get_eq_getElem, hrow, hcol] at hheld
  have heq := h.slot_unique hheld hheld'
  omega

end Enumeration

section Scripts

variable (m : Coordinate α)

/-- Another matrix in which at most values were overwritten. -/
def Overwritten (m' : Coordinate α) : Prop :=
  ∃ values : Array α, values.size = m.values.size ∧ m' = {m with values}

theorem runRaw_overwritten (script : List (Request α)) : m.Overwritten (m.runRaw script).2 :=
  ⟨_, Script.run_size script _ m.values, rfl⟩

theorem runIndexed_overwritten (script : List (Request α)) :
    m.Overwritten (m.runIndexed script).2 :=
  ⟨_, Script.run_size script _ m.values, rfl⟩

/-- Line scripts overwrite values, whatever grouping they run on. -/
theorem runGrouped_overwritten (grouped : Except Fault (Items (List (Nat × Nat))))
    (scripts : List (LineScript α)) : m.Overwritten (m.runGrouped grouped scripts).2 := by
  cases grouped with
  | error fault => exact ⟨m.values, rfl, rfl⟩
  | ok lines =>
      refine ⟨_, LineScript.runLines_size _ ?_ scripts _ m.values, rfl⟩
      intro line script values
      exact LineScript.runWalk_size _ script _ values

theorem Overwritten.wellFormed {m m' : Coordinate α} (hover : m.Overwritten m')
    (h : m.WellFormed) : m'.WellFormed := by
  obtain ⟨values, hsize, rfl⟩ := hover
  exact h.with_values values hsize

end Scripts

end Coordinate

end TransposedViews
