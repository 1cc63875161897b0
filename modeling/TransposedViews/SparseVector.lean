import TransposedViews.Attempt
import TransposedViews.Validation
import TransposedViews.Traversal.Script

/-!
Sparse vectors: the stored indices in ascending order and, in step with them,
the values stored there. Every operation finds its place by the position of
the first index that is not below the one asked for.
-/

namespace TransposedViews

structure SparseVector (α : Type u) where
  indices : List Nat
  values : List α
  deriving DecidableEq, BEq, Repr

/-- The two sequences of a sparse vector before anything is known about
them. -/
structure SparseVector.Parts (α : Type u) where
  indices : List Nat
  values : List α
  deriving DecidableEq, Repr

namespace SparseVector

variable {α : Type}

/-- Where an index is stored, or where it would have to be stored. -/
inductive Place where
  | stored (position : Nat)
  | vacant (position : Nat)
  deriving DecidableEq, Repr

/-- Finds the place of an index among ascending ones. -/
def locate (indices : List Nat) (k : Nat) : Place :=
  let position := indices.findIdx (k ≤ ·)
  if indices[position]? = some k then .stored position else .vacant position

def empty : SparseVector α := ⟨[], []⟩

def nnz (v : SparseVector α) : Nat := v.indices.length

def isEmpty (v : SparseVector α) : Bool := v.indices.isEmpty

/-- The largest stored index. -/
def lastIndex? (v : SparseVector α) : Option Nat := v.indices.getLast?

/-- The value stored at an index. -/
def get? (v : SparseVector α) (k : Nat) : Except Fault (Option α) :=
  match locate v.indices k with
  | .stored position => (readItem v.values position).map some
  | .vacant _ => .ok none

/-- Stores a value at an index and returns the value that was there. -/
def insert (v : SparseVector α) (k : Nat) (x : α) : Except Fault (Option α) × SparseVector α :=
  attempt v do
    match locate v.indices k with
    | .stored position =>
        let (previous, values) ← replaceItem v.values position x
        modify ({· with values})
        return some previous
    | .vacant position =>
        let indices ← insertItem v.indices position k
        modify ({· with indices})
        let values ← insertItem v.values position x
        modify ({· with values})
        return none

/-- Removes the value at an index, if one is stored, and returns it. -/
def remove (v : SparseVector α) (k : Nat) : Except Fault (Option α) × SparseVector α :=
  attempt v do
    match locate v.indices k with
    | .stored position =>
        let (_, indices) ← removeItem v.indices position
        modify ({· with indices})
        let (removed, values) ← removeItem v.values position
        modify ({· with values})
        return some removed
    | .vacant _ => return none

/-- Replaces the value at an index, if one is stored, and returns the value
that was there. Unlike `insert` this never stores a new index. -/
def overwrite (v : SparseVector α) (k : Nat) (x : α) : Except Fault (Option α) × SparseVector α :=
  attempt v do
    match locate v.indices k with
    | .stored position =>
        let (previous, values) ← replaceItem v.values position x
        modify ({· with values})
        return some previous
    | .vacant _ => return none

/-- Overwrites the values from the front, as far as replacements reach. -/
def overwriteValues (v : SparseVector α) (replacements : List α) : SparseVector α :=
  let count := min replacements.length v.values.length
  {v with values := replacements.take count ++ v.values.drop count}

/-- Stores index and value pairs from left to right, so later pairs replace
earlier ones. -/
def ofPairs (pairs : List (Nat × α)) : Except Fault (SparseVector α) :=
  pairs.foldlM (fun v (k, x) => let (previous, v) := v.insert k x; previous.map fun _ => v) empty

/-- Accepts sequences of one length whose indices ascend strictly. A
difference in length is reported first. -/
def ofParts (parts : Parts α) : Except MatrixError (SparseVector α) :=
  if parts.indices.length = parts.values.length then
    match validateSortedIndices parts.indices with
    | .error e => .error e
    | .ok _ => .ok ⟨parts.indices, parts.values⟩
  else .error (.dimensionMismatch parts.indices.length parts.values.length)

/-- The stored pairs by ascending index. -/
def toList (v : SparseVector α) : List (Nat × α) := v.indices.zip v.values

def cursor (v : SparseVector α) : Items (Nat × α) := ⟨v.toList⟩

/-- The stored indices, each with the cell its value is kept in. -/
def cells (v : SparseVector α) : List (Nat × Nat) := v.indices.zip (List.range v.values.length)

/-- Runs a script on the traversal of the stored pairs. -/
def runScript (v : SparseVector α) (script : List (Request α)) :
    List (Reply Nat α) × SparseVector α :=
  let (replies, _, values) := Script.run script (⟨v.cells⟩ : Items (Nat × Nat)) v.values
  (replies, {v with values})

end SparseVector

end TransposedViews
