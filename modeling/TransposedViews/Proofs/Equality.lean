import Mathlib.Data.List.Perm.Subperm
import Mathlib.Data.List.Sort
import TransposedViews.Proofs.RoundTrip

/-!
What equality says. Matrices stored the same way are compared by their
representations, and those of equal contents are equal: a buffer has one
element for each position, lines are sorted and keep no leftovers, and a
coordinate form is compared entry by entry, whatever the order. Elements are
compared by their own equality, so an element that differs from itself makes
every matrix that stores it differ from itself too.
-/

namespace TransposedViews

section Sequences

variable {α : Type u} [BEq α]

theorem isSome_eq_of_beq {x y : Option α} (h : (x == y) = true) : x.isSome = y.isSome := by
  cases x <;> cases y <;> first | rfl | cases h

/-- Lists are equal if they have equal elements, or none, in every place. -/
theorem list_beq_iff {xs ys : List α} :
    (xs == ys) = true ↔ ∀ k : Nat, (xs[k]? == ys[k]?) = true := by
  induction xs generalizing ys with
  | nil =>
      cases ys with
      | nil => simp
      | cons y ys =>
          refine ⟨nofun, fun h => ?_⟩
          have hhead := h 0
          cases hhead
  | cons x xs ih =>
      cases ys with
      | nil =>
          refine ⟨nofun, fun h => ?_⟩
          have hhead := h 0
          cases hhead
      | cons y ys =>
          rw [List.cons_beq_cons, Bool.and_eq_true, ih]
          constructor
          · rintro ⟨hhead, hrest⟩ k
            cases k with
            | zero => exact hhead
            | succ k => exact hrest k
          · intro h
            exact ⟨h 0, fun k => h (k + 1)⟩

theorem array_beq_iff {xs ys : Array α} :
    (xs == ys) = true ↔ ∀ k : Nat, (xs[k]? == ys[k]?) = true := by
  rw [← Array.beq_toList, list_beq_iff]
  simp only [Array.getElem?_toList]

end Sequences

namespace SparseVector

variable {α : Type} {u v : SparseVector α}

theorem mem_indices_iff (h : v.WellFormed) (k : Nat) :
    k ∈ v.indices ↔ (v.lookup k).isSome = true := by
  rw [Option.isSome_iff_exists]
  simp only [lookup_eq_some_iff k _ h]
  constructor
  · intro hk
    obtain ⟨p, hp, rfl⟩ := List.mem_iff_getElem.mp hk
    have hp' : p < v.values.length := h.length_eq ▸ hp
    have hlength : p < v.toList.length := by
      rw [toList, List.length_zip]
      omega
    exact ⟨v.values[p], List.mem_iff_getElem.mpr ⟨p, hlength, List.getElem_zip⟩⟩
  · rintro ⟨x, hx⟩
    exact (List.of_mem_zip hx).1

/-- The value in a place is the one looked up by the index in that place. -/
theorem lookup_getElem (h : v.WellFormed) {p : Nat} (hp : p < v.indices.length) :
    v.lookup v.indices[p] = v.values[p]? := by
  have hp' : p < v.values.length := h.length_eq ▸ hp
  have hlength : p < v.toList.length := by
    rw [toList, List.length_zip]
    omega
  rw [List.getElem?_eq_getElem hp', lookup_eq_some_iff _ _ h]
  exact List.mem_iff_getElem.mpr ⟨p, hlength, List.getElem_zip⟩

variable [BEq α]

theorem beq_iff : (u == v) = true ↔ u.indices = v.indices ∧
    ∀ p : Nat, (u.values[p]? == v.values[p]?) = true := by
  rw [← list_beq_iff, ← beq_iff_eq (a := u.indices), ← Bool.and_eq_true]
  rfl

theorem indices_eq_of_lookup (hu : u.WellFormed) (hv : v.WellFormed)
    (h : ∀ k, (u.lookup k == v.lookup k) = true) : u.indices = v.indices := by
  refine hu.ascending.eq_of_mem_iff hv.ascending fun k => ?_
  rw [mem_indices_iff hu, mem_indices_iff hv, isSome_eq_of_beq (h k)]

/-- Vectors with the same indices have equal values in all places if all
lookups in them are equal. -/
theorem values_beq_iff (hu : u.WellFormed) (hv : v.WellFormed) (hindices : u.indices = v.indices) :
    (∀ p : Nat, (u.values[p]? == v.values[p]?) = true) ↔
      ∀ k, (u.lookup k == v.lookup k) = true := by
  have hplace {p : Nat} (hp : p < u.indices.length) :
      u.lookup u.indices[p] = u.values[p]? ∧ v.lookup u.indices[p] = v.values[p]? := by
    refine ⟨lookup_getElem hu hp, ?_⟩
    simp only [hindices]
    exact lookup_getElem hv (hindices ▸ hp)
  constructor
  · intro hvalues k
    by_cases hk : k ∈ u.indices
    · obtain ⟨p, hp, rfl⟩ := List.mem_iff_getElem.mp hk
      rw [(hplace hp).1, (hplace hp).2]
      exact hvalues p
    · have hnone : u.lookup k = none := by simpa [mem_indices_iff hu] using hk
      have hnone' : v.lookup k = none := by simpa [hindices, mem_indices_iff hv] using hk
      rw [hnone, hnone']
      rfl
  · intro hlookup p
    by_cases hp : p < u.indices.length
    · have hequal := hlookup u.indices[p]
      rwa [(hplace hp).1, (hplace hp).2] at hequal
    · have hpu : u.values.length ≤ p := by
        have hlength := hu.length_eq
        omega
      have hpv : v.values.length ≤ p := by
        rw [← hv.length_eq, ← hindices]
        omega
      rw [List.getElem?_eq_none hpu, List.getElem?_eq_none hpv]
      rfl

/-- Sparse vectors are equal if all lookups in them are. -/
theorem beq_iff_lookup (hu : u.WellFormed) (hv : v.WellFormed) :
    (u == v) = true ↔ ∀ k, (u.lookup k == v.lookup k) = true := by
  rw [beq_iff]
  constructor
  · rintro ⟨hindices, hvalues⟩
    exact (values_beq_iff hu hv hindices).mp hvalues
  · intro hlookup
    have hindices := indices_eq_of_lookup hu hv hlookup
    exact ⟨hindices, (values_beq_iff hu hv hindices).mpr hlookup⟩

/-- Asking both vectors for every index is never refused and finds the same. -/
theorem beq_iff_get? (hu : u.WellFormed) (hv : v.WellFormed) : (u == v) = true ↔
    ∀ k, ∃ x y, u.get? k = .ok x ∧ v.get? k = .ok y ∧ (x == y) = true := by
  rw [beq_iff_lookup hu hv]
  refine forall_congr' fun k => ⟨fun hequal => ?_, ?_⟩
  · exact ⟨_, _, get?_eq k hu, get?_eq k hv, hequal⟩
  · rintro ⟨x, y, hx, hy, hequal⟩
    rw [get?_eq k hu] at hx
    rw [get?_eq k hv] at hy
    cases hx
    cases hy
    exact hequal

end SparseVector

namespace SparseLines

variable {α : Type} [BEq α] {s t : SparseLines α}

theorem beq_iff : (s == t) = true ↔ s.minorDim = t.minorDim ∧
    ∀ k : Nat, (s.lines[k]? == t.lines[k]?) = true := by
  rw [← array_beq_iff, ← beq_iff_eq (a := s.minorDim), ← Bool.and_eq_true]
  rfl

/-- Lines of one number are equal if all lookups in them are. -/
theorem line_beq_iff (hs : s.WellFormed) (ht : t.WellFormed) (hmajor : s.majorDim = t.majorDim)
    (i : Nat) : (s.lines[i]? == t.lines[i]?) = true ↔
      ∀ j, (s.lookup i j == t.lookup i j) = true := by
  unfold majorDim at hmajor
  by_cases hi : i < s.lines.size
  · have hi' : i < t.lines.size := by omega
    have hwf := (hs _ (Array.getElem_mem hi)).toWellFormed
    have hwf' := (ht _ (Array.getElem_mem hi')).toWellFormed
    simp only [lookup, Array.getElem?_eq_getElem hi, Array.getElem?_eq_getElem hi',
      Option.bind_some]
    exact SparseVector.beq_iff_lookup hwf hwf'
  · have hi' : ¬ i < t.lines.size := by omega
    simp [lookup, hi, hi']

/-- Stored lines are equal if their dimensions and all lookups in them are. -/
theorem beq_iff_lookup (hs : s.WellFormed) (ht : t.WellFormed) :
    (s == t) = true ↔ s.majorDim = t.majorDim ∧ s.minorDim = t.minorDim ∧
      ∀ i j, (s.lookup i j == t.lookup i j) = true := by
  rw [beq_iff]
  constructor
  · rintro ⟨hminor, hlines⟩
    have hmajor : s.majorDim = t.majorDim := Array.size_eq_of_beq (array_beq_iff.mpr hlines)
    exact ⟨hmajor, hminor, fun i => (line_beq_iff hs ht hmajor i).mp (hlines i)⟩
  · rintro ⟨hmajor, hminor, hlookup⟩
    exact ⟨hminor, fun i => (line_beq_iff hs ht hmajor i).mpr (hlookup i)⟩

end SparseLines

namespace Dense

variable {α : Type} {a b : Dense α}

/-- The element in a cell is the one looked up at the position it is kept
for. -/
theorem lookup_of_cell (h : a.WellFormed) {k : Nat} (hk : k < a.data.size) :
    a.lookup (k / a.ncols) (k % a.ncols) = a.data[k]? := by
  obtain ⟨hi, hj, hcell⟩ := position_of_cell (h.size_eq ▸ hk)
  rw [lookup, if_pos ⟨hi, hj⟩, hcell]

variable [BEq α]

theorem beq_iff : (a == b) = true ↔ a.nrows = b.nrows ∧ a.ncols = b.ncols ∧
    ∀ k : Nat, (a.data[k]? == b.data[k]?) = true := by
  rw [← array_beq_iff, ← beq_iff_eq (a := a.nrows), ← beq_iff_eq (a := a.ncols),
    ← Bool.and_eq_true, ← Bool.and_eq_true]
  rfl

/-- Dense matrices are equal if their dimensions and all lookups in them
are. -/
theorem beq_iff_lookup (ha : a.WellFormed) (hb : b.WellFormed) :
    (a == b) = true ↔ a.nrows = b.nrows ∧ a.ncols = b.ncols ∧
      ∀ i j, (a.lookup i j == b.lookup i j) = true := by
  rw [beq_iff]
  refine and_congr_right fun hrows => and_congr_right fun hcols => ?_
  constructor
  · intro hdata i j
    unfold lookup
    rw [← hrows, ← hcols]
    split
    · exact hdata _
    · rfl
  · intro hlookup k
    have hsize : a.data.size = b.data.size := by rw [ha.size_eq, hb.size_eq, hrows, hcols]
    by_cases hk : k < a.data.size
    · have hcell := hlookup (k / a.ncols) (k % a.ncols)
      rw [lookup_of_cell ha hk] at hcell
      rw [hcols] at hcell
      rwa [lookup_of_cell hb (hsize ▸ hk)] at hcell
    · have hk' : ¬ k < b.data.size := hsize ▸ hk
      simp [hk, hk']

end Dense

namespace Coordinate

variable {α : Type} {a b m : Coordinate α} {i j : Nat}

/-- A table lists each position that it has with its slot, and nothing else. -/
theorem mem_listed_iff (slots : Std.ExtHashMap (Nat × Nat) Nat) (p : Nat × Nat) (slot : Nat) :
    (p, slot) ∈ listed slots ↔ slots[p]? = some slot := by
  obtain ⟨inner⟩ := slots
  induction inner using Std.ExtDHashMap.inductionOn with
  | mk table => exact List.mem_mergeSort.trans Std.DHashMap.Const.mem_toList_iff_get?_eq_some

theorem mem_positions_iff_isSome (h : m.WellFormed) :
    (i, j) ∈ m.toList.map Triplet.position ↔ (m.lookup i j).isSome = true := by
  rw [List.mem_map, Option.isSome_iff_exists]
  constructor
  · rintro ⟨⟨a, b, x⟩, hmem, heq⟩
    cases heq
    exact ⟨x, (mem_toList h a b x).mp hmem⟩
  · rintro ⟨x, hx⟩
    exact ⟨(i, j, x), (mem_toList h i j x).mpr hx, rfl⟩

variable [BEq α]

/-- What is compared in a slot is the entry at its position. Neither the
lookup in the other matrix nor the access to the slot is refused. -/
theorem matchSlots_eq (ha : a.WellFormed) (hb : b.WellFormed) (hrows : a.nrows = b.nrows)
    (hcols : a.ncols = b.ncols) {slots : List ((Nat × Nat) × Nat)}
    (h : ∀ e ∈ slots, a.slots[e.1]? = some e.2) : a.matchSlots b slots =
      .ok (slots.all fun e => b.lookup e.1.1 e.1.2 == a.lookup e.1.1 e.1.2) := by
  induction slots with
  | nil => rfl
  | cons e slots ih =>
      obtain ⟨⟨i, j⟩, slot⟩ := e
      have hslot : a.slots[(i, j)]? = some slot := h _ List.mem_cons_self
      have hlt := ha.slot_lt hslot
      obtain ⟨hi, hj⟩ := ha.inside slot i j ((ha.slots_iff i j slot).mp hslot)
      have hentry : b.entry i j = .ok (b.lookup i j) := entry_eq hb (hrows ▸ hi) (hcols ▸ hj)
      have hvalue := readElement_of_lt hlt
      have hlookup := lookup_of_slot hslot hlt
      have hrest := ih fun e he => h e (List.mem_cons_of_mem _ he)
      simp only [matchSlots, hentry, hvalue, hrest, List.all_cons, hlookup]
      change (if b.lookup i j == some a.values[slot] then _ else _) = _
      cases b.lookup i j == some a.values[slot] <;> rfl

variable [PartialEquivBEq α]

theorem lookup_beq_comm (x y : Option α) : (x == y) = (y == x) := by
  cases x with
  | none => cases y <;> rfl
  | some x =>
      cases y with
      | none => rfl
      | some y =>
          change (x == y) = (y == x)
          exact BEq.comm

/-- Where the second matrix stores everything that the first one does and no
more in number, it stores nothing else. -/
theorem lookup_of_stored (ha : a.WellFormed) (hb : b.WellFormed) (hcount : a.nnz = b.nnz)
    (hstored : ∀ i j x, a.lookup i j = some x → (b.lookup i j == some x) = true) (i j : Nat) :
    (a.lookup i j == b.lookup i j) = true := by
  have hsubset : a.toList.map Triplet.position ⊆ b.toList.map Triplet.position := by
    rintro ⟨i, j⟩ hmem
    obtain ⟨x, hx⟩ := Option.isSome_iff_exists.mp ((mem_positions_iff_isSome ha).mp hmem)
    rw [mem_positions_iff_isSome hb, isSome_eq_of_beq (hstored i j x hx)]
    rfl
  have hlengths : (b.toList.map Triplet.position).length ≤
      (a.toList.map Triplet.position).length := by
    rw [List.length_map, List.length_map, length_toList ha, length_toList hb, hcount]
  have hperm := (List.subperm_of_subset (positions_nodup ha) hsubset).perm_of_length_le hlengths
  cases hx : a.lookup i j with
  | some x =>
      rw [lookup_beq_comm]
      exact hstored i j x hx
  | none =>
      cases hy : b.lookup i j with
      | none => rfl
      | some y =>
          have hmem : (i, j) ∈ b.toList.map Triplet.position := by
            rw [mem_positions_iff_isSome hb, hy]
            rfl
          rw [← hperm.mem_iff, mem_positions_iff_isSome ha, hx] at hmem
          cases hmem

omit [PartialEquivBEq α] in
theorem nnz_eq_of_lookup (ha : a.WellFormed) (hb : b.WellFormed)
    (hlookup : ∀ i j, (a.lookup i j == b.lookup i j) = true) : a.nnz = b.nnz := by
  have hperm : (a.toList.map Triplet.position).Perm (b.toList.map Triplet.position) := by
    rw [List.perm_ext_iff_of_nodup (positions_nodup ha) (positions_nodup hb)]
    rintro ⟨i, j⟩
    rw [mem_positions_iff_isSome ha, mem_positions_iff_isSome hb, isSome_eq_of_beq (hlookup i j)]
  have hlengths := hperm.length_eq
  rwa [List.length_map, List.length_map, length_toList ha, length_toList hb] at hlengths

theorem stored_iff_lookup (ha : a.WellFormed) (hb : b.WellFormed) :
    (a.nnz = b.nnz ∧ ∀ i j x, a.lookup i j = some x → (b.lookup i j == some x) = true) ↔
      ∀ i j, (a.lookup i j == b.lookup i j) = true := by
  constructor
  · rintro ⟨hcount, hstored⟩
    exact lookup_of_stored ha hb hcount hstored
  · intro hlookup
    refine ⟨nnz_eq_of_lookup ha hb hlookup, fun i j x hx => ?_⟩
    have hequal := hlookup i j
    rwa [hx, lookup_beq_comm] at hequal

omit [PartialEquivBEq α] in
/-- The slots are gone through by position, whatever is stored elsewhere. -/
theorem all_listed_iff (ha : a.WellFormed) :
    ((listed a.slots).all fun e => b.lookup e.1.1 e.1.2 == a.lookup e.1.1 e.1.2) = true ↔
      ∀ i j x, a.lookup i j = some x → (b.lookup i j == some x) = true := by
  rw [List.all_eq_true]
  constructor
  · intro h i j x hx
    obtain ⟨slot, hslot, -⟩ := Option.bind_eq_some_iff.mp hx
    have hmatched := h ((i, j), slot) ((mem_listed_iff ..).mpr hslot)
    rwa [hx] at hmatched
  · rintro h ⟨⟨i, j⟩, slot⟩ he
    have hslot := (mem_listed_iff ..).mp he
    have hlookup := lookup_of_slot hslot (ha.slot_lt hslot)
    dsimp only
    rw [hlookup]
    exact h i j _ hlookup

/-- Comparing coordinate forms is never refused and says whether dimensions
and all lookups are equal. -/
theorem equal_eq (ha : a.WellFormed) (hb : b.WellFormed) :
    ∃ result, a.equal b = .ok result ∧ (result = true ↔ a.nrows = b.nrows ∧ a.ncols = b.ncols ∧
      ∀ i j, (a.lookup i j == b.lookup i j) = true) := by
  rw [← stored_iff_lookup ha hb, ← all_listed_iff ha]
  unfold equal
  by_cases hdims : a.nrows = b.nrows ∧ a.ncols = b.ncols ∧ a.nnz = b.nnz
  · obtain ⟨hrows, hcols, hcount⟩ := hdims
    have hslots : ∀ e ∈ listed a.slots, a.slots[e.1]? = some e.2 :=
      fun e he => (mem_listed_iff ..).mp he
    rw [if_pos ⟨hrows, hcols, hcount⟩, matchSlots_eq ha hb hrows hcols hslots]
    refine ⟨_, rfl, ?_⟩
    simp only [hrows, hcols, hcount, true_and]
  · rw [if_neg hdims]
    refine ⟨false, rfl, ?_⟩
    simp only [Bool.false_eq_true, false_iff]
    rintro ⟨hrows, hcols, hcount, -⟩
    exact hdims ⟨hrows, hcols, hcount⟩

omit [PartialEquivBEq α] in
/-- A table of slots may be gone through in any order. -/
theorem matchSlots_of_perm (ha : a.WellFormed) (hb : b.WellFormed) (hrows : a.nrows = b.nrows)
    (hcols : a.ncols = b.ncols) {slots : List ((Nat × Nat) × Nat)}
    (hperm : slots.Perm (listed a.slots)) :
    ∃ result, a.matchSlots b slots = .ok result ∧ a.matchSlots b (listed a.slots) = .ok result := by
  have hslots : ∀ e ∈ slots, a.slots[e.1]? = some e.2 :=
    fun e he => (mem_listed_iff ..).mp (hperm.mem_iff.mp he)
  have hlisted : ∀ e ∈ listed a.slots, a.slots[e.1]? = some e.2 :=
    fun e he => (mem_listed_iff ..).mp he
  refine ⟨_, matchSlots_eq ha hb hrows hcols hslots, ?_⟩
  rw [matchSlots_eq ha hb hrows hcols hlisted, hperm.all_eq]

end Coordinate

section Elements

theorem BinaryFormat.numericEq_iff (f : BinaryFormat) (a b : Nat) : f.numericEq a b = true ↔
    f.isNaN a = false ∧ f.isNaN b = false ∧ (a = b ∨ f.magnitude a = 0 ∧ f.magnitude b = 0) := by
  simp [numericEq, and_assoc]

theorem BinaryFormat.numericEq_symm (f : BinaryFormat) {a b : Nat}
    (h : f.numericEq a b = true) : f.numericEq b a = true := by
  rw [numericEq_iff] at h ⊢
  obtain ⟨ha, hb, hequal⟩ := h
  exact ⟨hb, ha, hequal.imp Eq.symm And.symm⟩

theorem BinaryFormat.numericEq_trans (f : BinaryFormat) {a b c : Nat}
    (h : f.numericEq a b = true) (h' : f.numericEq b c = true) : f.numericEq a c = true := by
  rw [numericEq_iff] at h h' ⊢
  obtain ⟨ha, -, hequal⟩ := h
  obtain ⟨-, hc, hequal'⟩ := h'
  refine ⟨ha, hc, ?_⟩
  rcases hequal with rfl | ⟨hzero, hzeroMiddle⟩
  · exact hequal'
  · rcases hequal' with rfl | ⟨-, hzero'⟩
    · exact Or.inr ⟨hzero, hzeroMiddle⟩
    · exact Or.inr ⟨hzero, hzero'⟩

instance : PartialEquivBEq Binary32 where
  symm h := BinaryFormat.single.numericEq_symm h
  trans h h' := BinaryFormat.single.numericEq_trans h h'

instance : PartialEquivBEq Binary64 where
  symm h := BinaryFormat.double.numericEq_symm h
  trans h h' := BinaryFormat.double.numericEq_trans h h'

/-- What is no number differs from everything. -/
theorem Binary64.beq_of_isNaN {x : Binary64} (h : x.isNaN = true) (y : Binary64) :
    (x == y) = false := by
  refine Bool.eq_false_iff.mpr fun hequal => ?_
  obtain ⟨hnumber, -⟩ := (BinaryFormat.double.numericEq_iff _ _).mp hequal
  rw [isNaN, hnumber] at h
  cases h

end Elements

namespace Matrix

variable {α : Type} [BEq α] {a b : Matrix α}

/-- Matrices of the same dimensions with equal entries, or none, at every
position. -/
structure SameEntries (a b : Matrix α) : Prop where
  nrows_eq : a.nrows = b.nrows
  ncols_eq : a.ncols = b.ncols
  entry_eq : ∀ i j, i < a.nrows → j < a.ncols →
    ∃ x y, a.entry i j = .ok x ∧ b.entry i j = .ok y ∧ (x == y) = true

/-- Outside of the matrices there is nothing to compare. -/
theorem sameEntries_iff_lookup (ha : a.WellFormed) (hb : b.WellFormed) : a.SameEntries b ↔
    a.nrows = b.nrows ∧ a.ncols = b.ncols ∧ ∀ i j, (a.lookup i j == b.lookup i j) = true := by
  constructor
  · rintro ⟨hrows, hcols, hentry⟩
    refine ⟨hrows, hcols, fun i j => ?_⟩
    by_cases hinside : i < a.nrows ∧ j < a.ncols
    · obtain ⟨x, y, hx, hy, hequal⟩ := hentry i j hinside.1 hinside.2
      rw [entry_inside ha hinside.1 hinside.2] at hx
      rw [entry_inside hb (hrows ▸ hinside.1) (hcols ▸ hinside.2)] at hy
      cases hx
      cases hy
      exact hequal
    · have houtside : a.lookup i j = none :=
        Option.eq_none_iff_forall_ne_some.mpr fun x hx => hinside (lookup_inside ha hx)
      have houtside' : b.lookup i j = none :=
        Option.eq_none_iff_forall_ne_some.mpr fun x hx =>
          hinside (hrows ▸ hcols ▸ lookup_inside hb hx)
      rw [houtside, houtside']
      rfl
  · rintro ⟨hrows, hcols, hlookup⟩
    exact ⟨hrows, hcols, fun i j hi hj => ⟨_, _, entry_inside ha hi hj,
      entry_inside hb (hrows ▸ hi) (hcols ▸ hj), hlookup i j⟩⟩

variable [PartialEquivBEq α]

theorem SameEntries.symm (ha : a.WellFormed) (hb : b.WellFormed) (h : a.SameEntries b) :
    b.SameEntries a := by
  rw [sameEntries_iff_lookup hb ha]
  obtain ⟨hrows, hcols, hlookup⟩ := (sameEntries_iff_lookup ha hb).mp h
  refine ⟨hrows.symm, hcols.symm, fun i j => ?_⟩
  rw [Coordinate.lookup_beq_comm]
  exact hlookup i j

/-- Comparing matrices of one kind has an answer, which says whether their
entries are the same. -/
theorem equal?_of_wellFormed (ha : a.WellFormed) (hb : b.WellFormed) (hkind : a.kind = b.kind) :
    ∃ result, a.equal? b = some (.ok result) ∧ (result = true ↔ a.SameEntries b) := by
  rw [sameEntries_iff_lookup ha hb]
  cases a with
  | dense a =>
      cases b with
      | dense b => exact ⟨_, rfl, Dense.beq_iff_lookup ha hb⟩
      | row b | col b | coordinate b => cases hkind
  | row a =>
      cases b with
      | row b => exact ⟨_, rfl, SparseLines.beq_iff_lookup ha hb⟩
      | dense b | col b | coordinate b => cases hkind
  | col a =>
      cases b with
      | col b =>
          refine ⟨_, rfl, (SparseLines.beq_iff_lookup ha hb).trans ?_⟩
          -- the storage is compared in its own frame, columns first
          constructor
          · rintro ⟨hcols, hrows, hlookup⟩
            exact ⟨hrows, hcols, fun i j => hlookup j i⟩
          · rintro ⟨hrows, hcols, hlookup⟩
            exact ⟨hcols, hrows, fun j i => hlookup i j⟩
      | dense b | row b | coordinate b => cases hkind
  | coordinate a =>
      cases b with
      | coordinate b =>
          obtain ⟨result, hequal, hiff⟩ := Coordinate.equal_eq ha hb
          exact ⟨result, congrArg some hequal, hiff⟩
      | dense b | row b | col b => cases hkind

theorem equal?_symm (ha : a.WellFormed) (hb : b.WellFormed) (hkind : a.kind = b.kind) :
    a.equal? b = b.equal? a := by
  obtain ⟨result, hequal, hiff⟩ := equal?_of_wellFormed ha hb hkind
  obtain ⟨result', hequal', hiff'⟩ := equal?_of_wellFormed hb ha hkind.symm
  have hsame : a.SameEntries b ↔ b.SameEntries a :=
    ⟨SameEntries.symm ha hb, SameEntries.symm hb ha⟩
  have hresult : result = result' := by
    rw [Bool.eq_iff_iff, hiff, hiff', hsame]
  rw [hequal, hequal', hresult]

/-- An element that differs from everything makes every matrix that stores it
differ from every other and from itself. -/
theorem not_equal_of_unequal_element (ha : a.WellFormed) (hb : b.WellFormed)
    (hkind : a.kind = b.kind) {i j : Nat} {x : α} (hx : a.entry i j = .ok (some x))
    (hunequal : ∀ y, (x == y) = false) : a.equal? b = some (.ok false) := by
  obtain ⟨result, hequal, hiff⟩ := equal?_of_wellFormed ha hb hkind
  have hresult : result ≠ true := by
    intro htrue
    obtain ⟨-, -, hlookup⟩ := (sameEntries_iff_lookup ha hb).mp (hiff.mp htrue)
    have hentry := hlookup i j
    rw [(entry_eq_some_iff ha i j x).mp hx] at hentry
    cases hy : b.lookup i j with
    | none =>
        rw [hy] at hentry
        cases hentry
    | some y =>
        rw [hy] at hentry
        have hfalse := (hunequal y).symm.trans hentry
        cases hfalse
  rw [hequal, Bool.eq_false_iff.mpr hresult]

end Matrix

namespace Coordinate

variable {α : Type} [BEq α] [PartialEquivBEq α] {a b a' b' : Coordinate α}

/-- Only what is stored matters for the comparison, not in which order. -/
theorem equal_of_perm (ha : a.WellFormed) (hb : b.WellFormed) (ha' : a'.WellFormed)
    (hb' : b'.WellFormed) (hrows : a.nrows = a'.nrows) (hcols : a.ncols = a'.ncols)
    (hperm : a.toList.Perm a'.toList) (hrows' : b.nrows = b'.nrows) (hcols' : b.ncols = b'.ncols)
    (hperm' : b.toList.Perm b'.toList) : a.equal b = a'.equal b' := by
  have hlookup {m m' : Coordinate α} (h : m.WellFormed) (h' : m'.WellFormed)
      (hperm : m.toList.Perm m'.toList) (i j : Nat) : m.lookup i j = m'.lookup i j := by
    refine Option.ext fun x => ?_
    rw [← mem_toList h, ← mem_toList h', hperm.mem_iff]
  obtain ⟨result, hequal, hiff⟩ := equal_eq ha hb
  obtain ⟨result', hequal', hiff'⟩ := equal_eq ha' hb'
  have hresult : result = result' := by
    rw [Bool.eq_iff_iff, hiff, hiff', hrows, hcols, hrows', hcols']
    simp only [hlookup ha ha' hperm, hlookup hb hb' hperm']
  rw [hequal, hequal', hresult]

end Coordinate

/-- Comparing reachable matrices of one kind always has an answer, the same
from both sides: whether the dimensions agree and equal elements, or none, are
stored at every position. For coordinate forms neither the storage orders nor
the order in which a table of slots is gone through make a difference, and a
stored element that differs from everything makes the answer negative. Sparse
vectors are equal if all lookups in them are. -/
theorem equality_compares_entries (α : Type) [BEq α] [PartialEquivBEq α] :
    (∀ a b : Matrix α, a.Reachable → b.Reachable → a.kind = b.kind →
      (∃ result, a.equal? b = some (.ok result) ∧ b.equal? a = some (.ok result) ∧
        (result = true ↔ a.SameEntries b)) ∧
      ∀ i j x, a.entry i j = .ok (some x) → (∀ y, (x == y) = false) →
        a.equal? b = some (.ok false)) ∧
    (∀ a b a' b' : Coordinate α, (Matrix.coordinate a).Reachable → (Matrix.coordinate b).Reachable →
      (Matrix.coordinate a').Reachable → (Matrix.coordinate b').Reachable →
      a.nrows = a'.nrows → a.ncols = a'.ncols → a.toList.Perm a'.toList →
      b.nrows = b'.nrows → b.ncols = b'.ncols → b.toList.Perm b'.toList →
      a.equal b = a'.equal b') ∧
    (∀ a b : Coordinate α, (Matrix.coordinate a).Reachable → (Matrix.coordinate b).Reachable →
      (∀ p slot, (p, slot) ∈ Coordinate.listed a.slots ↔ a.slots[p]? = some slot) ∧
      (a.nrows = b.nrows → a.ncols = b.ncols → ∀ slots, slots.Perm (Coordinate.listed a.slots) →
        ∃ result, a.matchSlots b slots = .ok result ∧
          a.matchSlots b (Coordinate.listed a.slots) = .ok result)) ∧
    ∀ u v : SparseVector α, u.Reachable → v.Reachable →
      ((u == v) = true ↔
        ∀ k, ∃ x y, u.get? k = .ok x ∧ v.get? k = .ok y ∧ (x == y) = true) := by
  refine ⟨?_, ?_, ?_, ?_⟩
  · intro a b ha hb hkind
    constructor
    · obtain ⟨result, hequal, hiff⟩ :=
        Matrix.equal?_of_wellFormed ha.wellFormed hb.wellFormed hkind
      have hsymm := Matrix.equal?_symm ha.wellFormed hb.wellFormed hkind
      exact ⟨result, hequal, hsymm ▸ hequal, hiff⟩
    · intro i j x hx hunequal
      exact Matrix.not_equal_of_unequal_element ha.wellFormed hb.wellFormed hkind hx hunequal
  · intro a b a' b' ha hb ha' hb' hrows hcols hperm hrows' hcols' hperm'
    exact Coordinate.equal_of_perm ha.wellFormed hb.wellFormed ha'.wellFormed hb'.wellFormed
      hrows hcols hperm hrows' hcols' hperm'
  · intro a b ha hb
    refine ⟨Coordinate.mem_listed_iff a.slots, ?_⟩
    intro hrows hcols slots hperm
    exact Coordinate.matchSlots_of_perm ha.wellFormed hb.wellFormed hrows hcols hperm
  · intro u v hu hv
    exact SparseVector.beq_iff_get? hu.wellFormed hv.wellFormed

/-- The other zero, with a sign. -/
def negativeZero : Binary64 := .ofPattern 0x8000000000000000

/-- A dense matrix of one number. -/
def oneNumber (x : Binary64) : Dense Binary64 := ⟨1, 1, #[x]⟩

theorem oneNumber_reachable (x : Binary64) : (Matrix.dense (oneNumber x)).Reachable := by
  have hbuilt : Dense.ofArray 1 1 #[x] = .ok (oneNumber x) := rfl
  exact .built (.rowMajor hbuilt)

/-- Two entries in coordinate form, in the order in which they are stored. -/
def twoEntries (first second : Triplet Binary64) : Coordinate Binary64 :=
  ((Coordinate.empty 2 3).store first.1 first.2.1 first.2.2).store second.1 second.2.1 second.2.2

theorem twoEntries_reachable (first second : Triplet Binary64)
    (h : ∀ t ∈ [first, second], t.1 < 2 ∧ t.2.1 < 3) :
    (Matrix.coordinate (twoEntries first second)).Reachable :=
  .built (.triplets (Matrix.coordinate_accepts_inside h))

theorem dimensions_twoEntries (first second : Triplet Binary64) :
    (twoEntries first second).nrows = 2 ∧ (twoEntries first second).ncols = 3 := by
  simp [twoEntries, Coordinate.empty]

theorem lookup_twoEntries (first second : Triplet Binary64) (h : first.1 < 2 ∧ first.2.1 < 3)
    (i j : Nat) : (twoEntries first second).lookup i j =
      if i = second.1 ∧ j = second.2.1 then some second.2.2
      else if i = first.1 ∧ j = first.2.1 then some first.2.2 else none := by
  have hempty := Coordinate.empty_wellFormed (α := Binary64) 2 3
  have hfirst := Coordinate.store_wellFormed first.2.2 hempty h.1 h.2
  have hnone : (Coordinate.empty 2 3 : Coordinate Binary64).lookup i j = none := by
    simp [Coordinate.lookup, Coordinate.empty]
  rw [twoEntries, Coordinate.lookup_store hfirst, Coordinate.lookup_store hempty, hnone]

/-- The two are stored the other way round. -/
theorem twoEntries_sameEntries :
    (Matrix.coordinate (twoEntries (0, 1, ⟨0⟩) (1, 2, .ofInt 7))).SameEntries
      (.coordinate (twoEntries (1, 2, .ofInt 7) (0, 1, negativeZero))) := by
  have ha := twoEntries_reachable (0, 1, ⟨0⟩) (1, 2, .ofInt 7) (by decide)
  have hb := twoEntries_reachable (1, 2, .ofInt 7) (0, 1, negativeZero) (by decide)
  obtain ⟨hrows, hcols⟩ := dimensions_twoEntries (0, 1, ⟨0⟩) (1, 2, .ofInt 7)
  obtain ⟨hrows', hcols'⟩ := dimensions_twoEntries (1, 2, .ofInt 7) (0, 1, negativeZero)
  apply (Matrix.sameEntries_iff_lookup ha.wellFormed hb.wellFormed).mpr
  refine ⟨hrows.trans hrows'.symm, hcols.trans hcols'.symm, fun i j => ?_⟩
  change ((twoEntries _ _).lookup i j == (twoEntries _ _).lookup i j) = true
  rw [lookup_twoEntries _ _ (by decide), lookup_twoEntries _ _ (by decide)]
  dsimp only
  by_cases hsecond : i = 1 ∧ j = 2
  · have hfirst : ¬ (i = 0 ∧ j = 1) := by omega
    rw [if_pos hsecond, if_neg hfirst, if_pos hsecond]
    decide
  · rw [if_neg hsecond, if_neg hsecond]
    split <;> decide

/-- Two rows with a single entry. -/
def oneEntry (x : Binary64) : RowMatrix Binary64 := ⟨⟨3, #[⟨[1], [x]⟩, ⟨[], []⟩]⟩⟩

theorem oneEntry_reachable_negative : (Matrix.row (oneEntry negativeZero)).Reachable := by
  have hbuilt : RowMatrix.ofTriplets 2 3 [(0, 1, .ofInt 7), (0, 1, negativeZero)] =
      .ok (oneEntry negativeZero) := rfl
  exact .built (.rowTriplets hbuilt)

/-- It can also be what an erasure has left. -/
theorem oneEntry_reachable : (Matrix.row (oneEntry ⟨0⟩)).Reachable := by
  have hbuilt : RowMatrix.ofTriplets 2 3 [(0, 1, ⟨0⟩), (1, 0, .ofInt 7)] =
      .ok (⟨⟨3, #[⟨[1], [⟨0⟩]⟩, ⟨[0], [.ofInt 7]⟩]⟩⟩ : RowMatrix Binary64) := rfl
  exact (Matrix.Reachable.built (.rowTriplets hbuilt)).written [.exclusive] (.erase 0 1)

/-- The two zeros are equal, and what is no number differs even from itself.
Entries that were stored in another order, or after others that have been
erased, are the same entries. -/
theorem one_number_compared :
    (Matrix.dense (oneNumber ⟨0⟩)).SameEntries (.dense (oneNumber negativeZero)) ∧
      (∀ x : Binary64, x.isNaN = true →
        (Matrix.dense (oneNumber x)).equal? (.dense (oneNumber x)) = some (.ok false)) ∧
      (twoEntries (0, 1, ⟨0⟩) (1, 2, .ofInt 7)).equal
        (twoEntries (1, 2, .ofInt 7) (0, 1, negativeZero)) = .ok true ∧
      (Matrix.row (oneEntry ⟨0⟩)).SameEntries (.row (oneEntry negativeZero)) ∧
      ∀ k, ∃ x y,
        (SparseVector.collect [(7, .ofInt 4), (3, ⟨0⟩)]).get? k = .ok x ∧
          (SparseVector.collect [(3, negativeZero), (7, .ofInt 4)]).get? k = .ok y ∧
          (x == y) = true := by
  obtain ⟨hmatrices, -, -, hvectors⟩ := equality_compares_entries Binary64
  refine ⟨?_, ?_, ?_, ?_, ?_⟩
  · obtain ⟨⟨result, hequal, -, hiff⟩, -⟩ := hmatrices _ _ (oneNumber_reachable ⟨0⟩)
      (oneNumber_reachable negativeZero) rfl
    have hresult : (oneNumber ⟨0⟩ == oneNumber negativeZero) = true := by decide
    apply hiff.mp
    cases hequal
    exact hresult
  · intro x hx
    obtain ⟨-, hunequal⟩ :=
      hmatrices _ _ (oneNumber_reachable x) (oneNumber_reachable x) rfl
    refine hunequal 0 0 x ?_ (Binary64.beq_of_isNaN hx)
    rfl
  · obtain ⟨⟨result, hequal, -, hiff⟩, -⟩ := hmatrices _ _
      (twoEntries_reachable (0, 1, ⟨0⟩) (1, 2, .ofInt 7) (by decide))
      (twoEntries_reachable (1, 2, .ofInt 7) (0, 1, negativeZero) (by decide)) rfl
    have hresult := hiff.mpr twoEntries_sameEntries
    rw [hresult] at hequal
    exact Option.some.inj hequal
  · obtain ⟨⟨result, hequal, -, hiff⟩, -⟩ :=
      hmatrices _ _ oneEntry_reachable oneEntry_reachable_negative rfl
    have hresult : (oneEntry ⟨0⟩ == oneEntry negativeZero) = true := by decide
    apply hiff.mp
    cases hequal
    exact hresult
  · have hu := SparseVector.Reachable.collected
      (SparseVector.ofPairs_eq [(7, .ofInt 4), (3, (⟨0⟩ : Binary64))])
    have hv := SparseVector.Reachable.collected
      (SparseVector.ofPairs_eq [(3, negativeZero), (7, .ofInt 4)])
    exact (hvectors _ _ hu hv).mp (by decide)

end TransposedViews
