import TransposedViews.Category
import TransposedViews.ColMatrix
import TransposedViews.Coordinate
import TransposedViews.Dense
import TransposedViews.RowMatrix

namespace TransposedViews

/-- The ways of storing a matrix. -/
inductive Kind where
  | dense
  | row
  | col
  | coordinate
  deriving DecidableEq, Repr

inductive Matrix (α : Type) where
  | dense (m : Dense α)
  | row (m : RowMatrix α)
  | col (m : ColMatrix α)
  | coordinate (m : Coordinate α)

namespace Matrix

variable {α : Type}

def kind : Matrix α → Kind
  | .dense _ => .dense
  | .row _ => .row
  | .col _ => .col
  | .coordinate _ => .coordinate

def nrows : Matrix α → Nat
  | .dense m => m.nrows
  | .row m => m.nrows
  | .col m => m.nrows
  | .coordinate m => m.nrows

def ncols : Matrix α → Nat
  | .dense m => m.ncols
  | .row m => m.ncols
  | .col m => m.ncols
  | .coordinate m => m.ncols

/-- What a way of storing guarantees about traversal by lines. -/
def category : Matrix α → Category
  | .dense _ => .rowCol
  | .row _ => .row
  | .col _ => .col
  | .coordinate _ => .generic

/-- The entry at a position, absent if nothing is stored there. -/
def entry (m : Matrix α) (i j : Nat) : Except Fault (Option α) :=
  match m with
  | .dense m => m.entry i j
  | .row m => m.entry i j
  | .col m => m.entry i j
  | .coordinate m => m.entry i j

/-- Replaces `x` by the entry at a position and says whether there was one;
an absent entry leaves `x` as it is. -/
def fetch (m : Matrix α) (x : α) (i j : Nat) : Except Fault Bool × α :=
  attempt x do
    match ← m.entry i j with
    | some y =>
        modify fun _ => y
        return true
    | none => return false

/-- Sets the entry at a position, storing it if it was absent. -/
def set (m : Matrix α) (i j : Nat) (x : α) : Except Fault Unit × Matrix α :=
  match m with
  | .dense m => (m.set i j x).map id .dense
  | .row m => (m.set i j x).map id .row
  | .col m => (m.set i j x).map id .col
  | .coordinate m => (m.set i j x).map id .coordinate

/-- Erases the entry at a position. A dense matrix keeps the value. -/
def erase (m : Matrix α) (i j : Nat) : Except Fault Unit × Matrix α :=
  match m with
  | .dense m => (m.erase i j).map id .dense
  | .row m => (m.erase i j).map id .row
  | .col m => (m.erase i j).map id .col
  | .coordinate m => (m.erase i j).map id .coordinate

/-- Equality of two matrices stored the same way; there is none across. -/
def equal? [BEq α] : Matrix α → Matrix α → Option (Except Fault Bool)
  | .dense a, .dense b => some (.ok (a == b))
  | .row a, .row b => some (.ok (a == b))
  | .col a, .col b => some (.ok (a == b))
  | .coordinate a, .coordinate b => some (a.equal b)
  | _, _ => none

end Matrix

end TransposedViews
