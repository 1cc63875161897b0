import TransposedViews.View

namespace TransposedViews

/-- A request that reads. A limit bounds how many items, or lines, are taken;
without one all are. -/
inductive Reading (α : Type) where
  | dimensions
  | category
  | entry (i j : Nat)
  | fetch (i j : Nat) (x : α)
  | grid
  | raw (limit : Option Nat)
  | rawIndexed (limit : Option Nat)
  | rows (limit : Option Nat)
  | cols (limit : Option Nat)
  | row (k : Nat) (limit : Option Nat)
  | col (k : Nat) (limit : Option Nat)
  | entries (limit : Option Nat)
  | inner
  deriving DecidableEq, Repr

/-- A request that writes. -/
inductive Writing (α : Type) where
  | set (i j : Nat) (x : α)
  | erase (i j : Nat)
  | raw (script : List (Request α))
  | rawIndexed (script : List (Request α))
  | rows (scripts : List (LineScript α))
  | cols (scripts : List (LineScript α))
  deriving DecidableEq, Repr

/-- Why a request got no answer: the access was refused, or the view has no
such operation. -/
inductive Refusal where
  | fault (fault : Fault)
  | unsupported
  deriving DecidableEq, Repr

inductive ReadAnswer (α : Type) where
  | dimensions (nrows ncols : Nat)
  | category (category : Category)
  | entry (x : Option α)
  | fetched (found : Bool) (x : α)
  | grid (rows : List (List (Option α)))
  | values (items : List α) (left : SizeHint)
  | entries (items : List (IndexedEntry α)) (left : SizeHint)
  | lines (lines : List (List (Item α))) (left : SizeHint)
  | line (line : Option (List (Item α) × SizeHint))
  | inner (nrows ncols : Nat) (category : Category)

inductive WriteAnswer (α : Type) where
  | done
  | values (replies : List (Reply Unit α))
  | entries (replies : List (Reply (Nat × Nat) α))
  | lines (replies : List (List (LineReply α))) (left : SizeHint)

namespace View

variable {α : Type}

/-- The entries at all positions, row by row. -/
def grid (v : View α) : Except Fault (List (List (Option α))) :=
  (List.range v.nrows).mapM fun i => (List.range v.ncols).mapM fun j => v.entry i j

/-- The items of each of the lines taken. -/
def readLines (limit : Option Nat) : Option (Matrix.Lines α) → Except Refusal (ReadAnswer α)
  | none => .error .unsupported
  | some cursor =>
      let (lines, left) := Cursor.collect limit cursor
      .ok (.lines (lines.map Cursor.toList) left)

/-- The items of one line, if there is a line of that number. -/
def readLine (k : Nat) (limit : Option Nat) :
    Option (Matrix.Lines α) → Except Refusal (ReadAnswer α)
  | none => .error .unsupported
  | some cursor => .ok (.line ((Cursor.nth k cursor).1.map (Cursor.collect limit)))

def orFault (result : Except Fault β) : Except Refusal β := result.mapError .fault

def read (v : View α) (request : Reading α) : Except Refusal (ReadAnswer α) :=
  match request with
  | .dimensions => .ok (.dimensions v.nrows v.ncols)
  | .category => .ok (.category v.category)
  | .entry i j => (orFault (v.entry i j)).map .entry
  | .fetch i j x =>
      let (found, x) := v.fetch x i j
      (orFault found).map fun found => .fetched found x
  | .grid => (orFault v.grid).map .grid
  | .raw limit =>
      let (items, left) := Cursor.collect limit v.raw
      .ok (.values items left)
  | .rawIndexed limit =>
      let (items, left) := Cursor.collect limit v.rawIndexed
      .ok (.entries items left)
  | .rows limit => readLines limit v.rows?
  | .cols limit => readLines limit v.cols?
  | .row k limit => readLine k limit v.rows?
  | .col k limit => readLine k limit v.cols?
  | .entries limit =>
      match v.entries? with
      | none => .error .unsupported
      | some cursor =>
          let (items, left) := Cursor.collect limit cursor
          .ok (.entries items left)
  | .inner =>
      match v.inner? with
      | none => .error .unsupported
      | some w => .ok (.inner w.nrows w.ncols w.category)

/-- The outcome of a modification. -/
def modified (outcome : Except Fault Unit × View α) : Except Refusal (WriteAnswer α) × View α :=
  outcome.map (fun result => (orFault result).map fun _ => .done) id

/-- The outcome of running line scripts, unless there are no such lines. -/
def linesRun (v : View α) :
    Option (Matrix.LineReplies α × View α) → Except Refusal (WriteAnswer α) × View α
  | none => (.error .unsupported, v)
  | some (result, w) => ((orFault result).map fun (replies, left) => .lines replies left, w)

/-- Writes through the view. A read-only view supports none of this. -/
def write (v : View α) (request : Writing α) : Except Refusal (WriteAnswer α) × View α :=
  if v.writable then
    match request with
    | .set i j x => modified (v.set i j x)
    | .erase i j => modified (v.erase i j)
    | .raw script =>
        let (replies, w) := v.runRaw script
        (.ok (.values replies), w)
    | .rawIndexed script =>
        let (replies, w) := v.runIndexed script
        (.ok (.entries replies), w)
    | .rows scripts => v.linesRun (v.runRows? scripts)
    | .cols scripts => v.linesRun (v.runCols? scripts)
  else (.error .unsupported, v)

end View

end TransposedViews
