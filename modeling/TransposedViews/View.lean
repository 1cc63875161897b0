import TransposedViews.Matrix.Traversal

/-!
Transposed views. A view holds no entries: it is a matrix, or something seen
through one more transposition, and every request is passed inwards with rows
and columns exchanged. Rows of a view are the columns of what it wraps.
Requests about raw storage are passed on as they are.

A view is read-only as soon as one of its transpositions is shared.
-/

namespace TransposedViews

/-- How a view holds what it wraps: to read it beside others, or alone and to
modify it. -/
inductive Access where
  | shared
  | exclusive
  deriving DecidableEq, Repr

inductive View (α : Type) where
  | whole (m : Matrix α)
  | transposed (access : Access) (inner : View α)

namespace View

variable {α : Type}

/-- The matrix that stores the entries. -/
def base : View α → Matrix α
  | .whole m => m
  | .transposed _ v => v.base

/-- The chain of transpositions over a matrix, innermost first. -/
def chain (m : Matrix α) (accesses : List Access) : View α :=
  accesses.foldl (fun v access => .transposed access v) (.whole m)

/-- Whether entries can be modified through the view. -/
def writable : View α → Bool
  | .whole _ => true
  | .transposed .exclusive v => v.writable
  | .transposed .shared _ => false

mutual

def nrows : View α → Nat
  | .whole m => m.nrows
  | .transposed _ v => v.ncols

def ncols : View α → Nat
  | .whole m => m.ncols
  | .transposed _ v => v.nrows

end

def category : View α → Category
  | .whole m => m.category
  | .transposed _ v => v.category.transposed

def entry : View α → Nat → Nat → Except Fault (Option α)
  | .whole m, i, j => m.entry i j
  | .transposed _ v, i, j => v.entry j i

def fetch : View α → α → Nat → Nat → Except Fault Bool × α
  | .whole m, x, i, j => m.fetch x i j
  | .transposed _ v, x, i, j => v.fetch x j i

def set : View α → Nat → Nat → α → Except Fault Unit × View α
  | .whole m, i, j, x => (m.set i j x).map id .whole
  | .transposed access v, i, j, x => (v.set j i x).map id (.transposed access)

def erase : View α → Nat → Nat → Except Fault Unit × View α
  | .whole m, i, j => (m.erase i j).map id .whole
  | .transposed access v, i, j => (v.erase j i).map id (.transposed access)

mutual

/-- The traversal of the rows, if the category of the view has one. -/
def rows? : View α → Option (Matrix.Lines α)
  | .whole m => m.rows?
  | .transposed _ v => v.cols?

/-- The traversal of the columns, if the category of the view has one. -/
def cols? : View α → Option (Matrix.Lines α)
  | .whole m => m.cols?
  | .transposed _ v => v.rows?

end

def raw : View α → Matrix.Raw α
  | .whole m => m.raw
  | .transposed _ v => v.raw

/-- All stored values with their positions in the frame of the base matrix. -/
def rawIndexed : View α → Matrix.RawIndexed α
  | .whole m => m.rawIndexed
  | .transposed _ v => v.rawIndexed

/-- The stored values with row and column exchanged once, for a view that is
a transposition: the raw traversal of what it wraps, seen through it. -/
def entries? : View α → Option (Mapped (Matrix.RawIndexed α) (IndexedEntry α) (IndexedEntry α))
  | .whole _ => none
  | .transposed _ v => some ⟨v.rawIndexed, IndexedEntry.transposed⟩

/-- What a transposition wraps. -/
def inner? : View α → Option (View α)
  | .whole _ => none
  | .transposed _ v => some v

def runRaw : View α → List (Request α) → List (Reply Unit α) × View α
  | .whole m, script =>
      let (replies, m) := m.runRaw script
      (replies, .whole m)
  | .transposed access v, script =>
      let (replies, v) := v.runRaw script
      (replies, .transposed access v)

def runIndexed : View α → List (Request α) → List (Reply (Nat × Nat) α) × View α
  | .whole m, script =>
      let (replies, m) := m.runIndexed script
      (replies, .whole m)
  | .transposed access v, script =>
      let (replies, v) := v.runIndexed script
      (replies, .transposed access v)

mutual

/-- Runs one script per row, if the view is traversed by rows. -/
def runRows? : View α → List (LineScript α) → Option (Matrix.LineReplies α × View α)
  | .whole m, scripts => (m.runRows? scripts).map fun (result, m) => (result, .whole m)
  | .transposed access v, scripts =>
      (v.runCols? scripts).map fun (result, v) => (result, .transposed access v)

/-- Runs one script per column, if the view is traversed by columns. -/
def runCols? : View α → List (LineScript α) → Option (Matrix.LineReplies α × View α)
  | .whole m, scripts => (m.runCols? scripts).map fun (result, m) => (result, .whole m)
  | .transposed access v, scripts =>
      (v.runRows? scripts).map fun (result, v) => (result, .transposed access v)

end

end View

end TransposedViews
