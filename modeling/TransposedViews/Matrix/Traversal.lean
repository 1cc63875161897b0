import TransposedViews.Coordinate.Traversal
import TransposedViews.Dense.Traversal
import TransposedViews.Matrix

/-!
The traversals of a matrix, whichever way it is stored. Raw traversals visit
every stored entry in the order of the storage; line traversals exist in the
directions that the category of the matrix guarantees.
-/

namespace TransposedViews

namespace Matrix

/-- A traversal of all stored values. -/
inductive Raw (α : Type) where
  | buffer (cursor : Items α)
  | flattened (cursor : Mapped (Entries α) (Nat × Nat × α) α)

instance : Cursor (Raw α) α where
  next
    | .buffer c => let (x, c) := Cursor.next c; (x, .buffer c)
    | .flattened c => let (x, c) := Cursor.next c; (x, .flattened c)
  hint
    | .buffer c => Cursor.hint c
    | .flattened c => Cursor.hint c
  ahead
    | .buffer c => Cursor.ahead c
    | .flattened c => Cursor.ahead c
  ahead_next
    | .buffer c, a, h => Cursor.ahead_next c a h
    | .flattened c, a, h => Cursor.ahead_next c a h

/-- A traversal of all stored values with their positions. -/
inductive RawIndexed (α : Type) where
  | positioned (cursor : Dense.Positioned α)
  | flattened (cursor : Mapped (Entries α) (Nat × Nat × α) (IndexedEntry α))
  | indexed (cursor : Coordinate.Indexed α)

instance : Cursor (RawIndexed α) (IndexedEntry α) where
  next
    | .positioned c => let (x, c) := Cursor.next c; (x, .positioned c)
    | .flattened c => let (x, c) := Cursor.next c; (x, .flattened c)
    | .indexed c => let (x, c) := Cursor.next c; (x, .indexed c)
  hint
    | .positioned c => Cursor.hint c
    | .flattened c => Cursor.hint c
    | .indexed c => Cursor.hint c
  ahead
    | .positioned c => Cursor.ahead c
    | .flattened c => Cursor.ahead c
    | .indexed c => Cursor.ahead c
  ahead_next
    | .positioned c, a, h => Cursor.ahead_next c a h
    | .flattened c, a, h => Cursor.ahead_next c a h
    | .indexed c, a, h => Cursor.ahead_next c a h

/-- A traversal of one line. -/
inductive Line (α : Type) where
  | contiguous (cursor : Items α)
  | strided (cursor : Dense.Strided α)
  | sparse (cursor : Items (Nat × α))
  | scan (cursor : Coordinate.Scan α)

instance : Cursor (Line α) (Item α) where
  next
    | .contiguous c => let (x, c) := Cursor.next c; (x.map .value, .contiguous c)
    | .strided c => let (x, c) := Cursor.next c; (x.map .value, .strided c)
    | .sparse c => let (x, c) := Cursor.next c; (x.map fun (k, x) => .stored k x, .sparse c)
    | .scan c => let (x, c) := Cursor.next c; (x.map fun (k, x) => .stored k x, .scan c)
  hint
    | .contiguous c => Cursor.hint c
    | .strided c => Cursor.hint c
    | .sparse c => Cursor.hint c
    | .scan c => Cursor.hint c
  ahead
    | .contiguous c => Cursor.ahead c
    | .strided c => Cursor.ahead c
    | .sparse c => Cursor.ahead c
    | .scan c => Cursor.ahead c
  ahead_next
    | .contiguous c, _, h =>
        have ⟨b, hb, _⟩ := Option.map_eq_some_iff.1 h
        Cursor.ahead_next c b hb
    | .strided c, _, h =>
        have ⟨b, hb, _⟩ := Option.map_eq_some_iff.1 h
        Cursor.ahead_next c b hb
    | .sparse c, _, h =>
        have ⟨b, hb, _⟩ := Option.map_eq_some_iff.1 h
        Cursor.ahead_next c b hb
    | .scan c, _, h =>
        have ⟨b, hb, _⟩ := Option.map_eq_some_iff.1 h
        Cursor.ahead_next c b hb

/-- A traversal of the lines in one direction. -/
inductive Lines (α : Type) where
  | contiguous (cursor : Dense.Rows α)
  | strided (cursor : Dense.Cols α)
  | sparse (cursor : Items (SparseVector α))
  | scans (cursor : Coordinate.Lines α)

instance : Cursor (Lines α) (Line α) where
  next
    | .contiguous c => let (x, c) := Cursor.next c; (x.map fun row => .contiguous ⟨row⟩, .contiguous c)
    | .strided c => let (x, c) := Cursor.next c; (x.map .strided, .strided c)
    | .sparse c => let (x, c) := Cursor.next c; (x.map fun v => .sparse v.cursor, .sparse c)
    | .scans c => let (x, c) := Cursor.next c; (x.map .scan, .scans c)
  hint
    | .contiguous c => Cursor.hint c
    | .strided c => Cursor.hint c
    | .sparse c => Cursor.hint c
    | .scans c => Cursor.hint c
  ahead
    | .contiguous c => Cursor.ahead c
    | .strided c => Cursor.ahead c
    | .sparse c => Cursor.ahead c
    | .scans c => Cursor.ahead c
  ahead_next
    | .contiguous c, _, h =>
        have ⟨b, hb, _⟩ := Option.map_eq_some_iff.1 h
        Cursor.ahead_next c b hb
    | .strided c, _, h =>
        have ⟨b, hb, _⟩ := Option.map_eq_some_iff.1 h
        Cursor.ahead_next c b hb
    | .sparse c, _, h =>
        have ⟨b, hb, _⟩ := Option.map_eq_some_iff.1 h
        Cursor.ahead_next c b hb
    | .scans c, _, h =>
        have ⟨b, hb, _⟩ := Option.map_eq_some_iff.1 h
        Cursor.ahead_next c b hb

variable {α : Type}

def raw : Matrix α → Raw α
  | .dense m => .buffer m.raw
  | .row m => .flattened ⟨m.storage.entries, fun (_, _, x) => x⟩
  | .col m => .flattened ⟨m.storage.entries, fun (_, _, x) => x⟩
  | .coordinate m => .buffer m.raw

def rawIndexed : Matrix α → RawIndexed α
  | .dense m => .positioned m.rawIndexed
  | .row m => .flattened ⟨m.storage.entries, RowMatrix.position⟩
  | .col m => .flattened ⟨m.storage.entries, ColMatrix.position⟩
  | .coordinate m => .indexed m.rawIndexed

/-- The traversal of the rows, top to bottom, if the storage has one. -/
def rows? : Matrix α → Option (Lines α)
  | .dense m => some (.contiguous m.rows)
  | .row m => some (.sparse m.rows)
  | .col _ => none
  | .coordinate m => some (.scans m.rows)

/-- The traversal of the columns, left to right, if the storage has one. -/
def cols? : Matrix α → Option (Lines α)
  | .dense m => some (.strided m.cols)
  | .row _ => none
  | .col m => some (.sparse m.cols)
  | .coordinate m => some (.scans m.cols)

/-- Runs a script on the traversal of all values. -/
def runRaw (m : Matrix α) (script : List (Request α)) : List (Reply Unit α) × Matrix α :=
  match m with
  | .dense m => let (replies, m) := m.runRaw script; (replies, .dense m)
  | .row m => let (replies, m) := m.runRaw script; (replies, .row m)
  | .col m => let (replies, m) := m.runRaw script; (replies, .col m)
  | .coordinate m => let (replies, m) := m.runRaw script; (replies, .coordinate m)

/-- Runs a script on the traversal of all values with their positions. -/
def runIndexed (m : Matrix α) (script : List (Request α)) :
    List (Reply (Nat × Nat) α) × Matrix α :=
  match m with
  | .dense m => let (replies, m) := m.runIndexed script; (replies, .dense m)
  | .row m => let (replies, m) := m.runIndexed script; (replies, .row m)
  | .col m => let (replies, m) := m.runIndexed script; (replies, .col m)
  | .coordinate m => let (replies, m) := m.runIndexed script; (replies, .coordinate m)

/-- What running one script per line gives: a list of replies for each line
that was reached and the size hint left, or the fault that ended the run. -/
abbrev LineReplies (α : Type) := Except Fault (List (List (LineReply α)) × SizeHint)

/-- Runs one script per row, if the storage is traversed by rows. -/
def runRows? (m : Matrix α) (scripts : List (LineScript α)) :
    Option (LineReplies α × Matrix α) :=
  match m with
  | .dense m => let (result, m) := m.runRows scripts; some (result, .dense m)
  | .row m => let (result, storage) := m.storage.runLines scripts; some (result, .row ⟨storage⟩)
  | .col _ => none
  | .coordinate m => let (result, m) := m.runRows scripts; some (result, .coordinate m)

/-- Runs one script per column, if the storage is traversed by columns. -/
def runCols? (m : Matrix α) (scripts : List (LineScript α)) :
    Option (LineReplies α × Matrix α) :=
  match m with
  | .dense m => let (result, m) := m.runCols scripts; some (result, .dense m)
  | .row _ => none
  | .col m => let (result, storage) := m.storage.runLines scripts; some (result, .col ⟨storage⟩)
  | .coordinate m => let (result, m) := m.runCols scripts; some (result, .coordinate m)

end Matrix

end TransposedViews
