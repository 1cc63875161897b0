import Std.Data.ExtHashMap
import TransposedViews.Attempt
import TransposedViews.Element
import TransposedViews.Triplets

/-!
Matrices in coordinate form: row indices, column indices and values side by
side in storage order, and an index that leads from a position to its slot. A
new entry is appended; an erased one is replaced by the last, whose slot is
then corrected in the index.
-/

namespace TransposedViews

-- a position is found again by the key that it was stored with
instance positionEquivBEq : EquivBEq (Nat × Nat) := inferInstance

instance positionLawfulHashable : LawfulHashable (Nat × Nat) := inferInstance

structure Coordinate (α : Type) where
  nrows : Nat
  ncols : Nat
  rowIndices : Array Nat
  colIndices : Array Nat
  values : Array α
  slots : Std.ExtHashMap (Nat × Nat) Nat

/-- Dimensions and triplets, before the triplets are checked. -/
structure Coordinate.Parts (α : Type) where
  nrows : Nat
  ncols : Nat
  entries : List (Triplet α)
  deriving DecidableEq, Repr

namespace Coordinate

/-- Whether a position with its slot comes before another one: by row, by column,
then by slot. -/
def slotBefore (a b : (Nat × Nat) × Nat) : Bool :=
  a.1.1 < b.1.1 ∨ a.1.1 = b.1.1 ∧ (a.1.2 < b.1.2 ∨ a.1.2 = b.1.2 ∧ a.2 ≤ b.2)

theorem mergeSort_eq_of_perm {table table' : List ((Nat × Nat) × Nat)} (h : table.Perm table') :
    table.mergeSort slotBefore = table'.mergeSort slotBefore := by
  have hsorted (slots : List ((Nat × Nat) × Nat)) :
      (slots.mergeSort slotBefore).Pairwise fun a b => slotBefore a b = true := by
    apply List.pairwise_mergeSort
    · intro a b c
      simp only [slotBefore, decide_eq_true_eq]
      omega
    · intro a b
      simp only [slotBefore, Bool.or_eq_true, decide_eq_true_eq]
      omega
  refine List.Perm.eq_of_pairwise ?_ (hsorted table) (hsorted table')
    (((List.mergeSort_perm table _).trans h).trans (List.mergeSort_perm table' _).symm)
  rintro ⟨⟨i, j⟩, s⟩ ⟨⟨i', j'⟩, s'⟩ - -
  simp only [slotBefore, decide_eq_true_eq, Prod.mk.injEq]
  omega

/-- The entries of a slot table in this order. A table has no order of its own. -/
def listed (slots : Std.ExtHashMap (Nat × Nat) Nat) : List ((Nat × Nat) × Nat) :=
  slots.inner.lift (fun table => (Std.DHashMap.Const.toList table).mergeSort slotBefore)
    fun _ _ h => mergeSort_eq_of_perm h.constToList_perm

variable {α : Type}

def empty (nrows ncols : Nat) : Coordinate α :=
  {nrows, ncols, rowIndices := #[], colIndices := #[], values := #[], slots := ∅}

def nnz (m : Coordinate α) : Nat := m.values.size

/-- The stored entries in storage order. -/
def toList (m : Coordinate α) : List (Triplet α) :=
  m.rowIndices.toList.zip (m.colIndices.toList.zip m.values.toList)

/-- Overwrites the value at a position in its slot, or appends an entry. -/
def insert (m : Coordinate α) (i j : Nat) (x : α) : Except Fault Unit × Coordinate α :=
  attempt m do
    match m.slots[(i, j)]? with
    | some slot =>
        let (_, values) ← replaceElement m.values slot x
        modify ({· with values})
    | none =>
        modify
          ({· with
            rowIndices := m.rowIndices.push i
            colIndices := m.colIndices.push j
            values := m.values.push x
            slots := m.slots.insert (i, j) m.values.size})

/-- Removes the entry at a position, if one is stored. -/
def remove (m : Coordinate α) (i j : Nat) : Except Fault Unit × Coordinate α :=
  attempt m do
    match m.slots[(i, j)]? with
    | none => return
    | some slot =>
        modify ({· with slots := m.slots.erase (i, j)})
        let (_, rowIndices) ← swapRemove m.rowIndices slot
        modify ({· with rowIndices})
        let (_, colIndices) ← swapRemove m.colIndices slot
        modify ({· with colIndices})
        let (_, values) ← swapRemove m.values slot
        modify ({· with values})
        -- the former last entry, if it is another one, is found in the freed slot from now on
        if slot < values.size then
          let row ← readElement rowIndices slot
          let col ← readElement colIndices slot
          modify fun m => {m with slots := m.slots.insert (row, col) slot}

/-- Accepts triplets inside the dimensions; later ones overwrite earlier ones
at the same position, in the slot of the first. -/
def ofTriplets (nrows ncols : Nat) (triplets : List (Triplet α)) :
    Except BuildFailure (Coordinate α) :=
  storeTriplets nrows ncols insert triplets (empty nrows ncols)

def ofParts (parts : Parts α) : Except BuildFailure (Coordinate α) :=
  ofTriplets parts.nrows parts.ncols parts.entries

def toParts (m : Coordinate α) : Parts α :=
  {nrows := m.nrows, ncols := m.ncols, entries := m.toList}

def entry (m : Coordinate α) (i j : Nat) : Except Fault (Option α) := do
  assertInBounds i j m.nrows m.ncols
  match m.slots[(i, j)]? with
  | none => return none
  | some slot => return some (← readElement m.values slot)

def set (m : Coordinate α) (i j : Nat) (x : α) : Except Fault Unit × Coordinate α :=
  guarded i j m.nrows m.ncols (fun m => m.insert i j x) m

def erase (m : Coordinate α) (i j : Nat) : Except Fault Unit × Coordinate α :=
  guarded i j m.nrows m.ncols (fun m => m.remove i j) m

/-- Whether the second matrix stores an equal value wherever the first one has
one of the given slots. -/
def matchSlots [BEq α] (a b : Coordinate α) : List ((Nat × Nat) × Nat) → Except Fault Bool
  | [] => .ok true
  | ((i, j), slot) :: slots => do
      let found ← b.entry i j
      let x ← readElement a.values slot
      if found == some x then a.matchSlots b slots else return false

/-- Equality of dimensions and stored entries, whatever their order. The slots
of the first matrix are gone through only when dimensions and counts agree. -/
def equal [BEq α] (a b : Coordinate α) : Except Fault Bool :=
  if a.nrows = b.nrows ∧ a.ncols = b.ncols ∧ a.nnz = b.nnz then a.matchSlots b (listed a.slots)
  else .ok false

end Coordinate

end TransposedViews
