import TransposedViews.SparseVector

/-!
Requests to one line of a matrix that is being traversed for writing. What a
line can do depends on how it is stored: a contiguous line is indexed, a
scattered one is walked item by item, and a sparse one is edited like a sparse
vector, with insertions bounded by the length of the line. A request that the
line does not know is answered as unsupported and changes nothing.
-/

namespace TransposedViews

inductive LineRequest (α : Type u) where
  | next (replacement : Option α)
  | hint
  | len
  | isEmpty
  | nnz
  | get (k : Nat)
  | set (k : Nat) (x : α)
  | insert (k : Nat) (x : α)
  | remove (k : Nat)
  | overwrite (k : Nat) (x : α)
  | vector
  | pairs
  | walk (script : List (Request α))
  | consume (script : List (Request α))
  | unknown
  deriving DecidableEq, Repr

abbrev LineScript (α : Type u) := List (LineRequest α)

/-- An item of a line: dense lines deliver values alone, the others deliver
each value with its index in the line. -/
inductive Item (α : Type u) where
  | value (x : α)
  | stored (index : Nat) (x : α)
  deriving DecidableEq, Repr

inductive LineReply (α : Type u) where
  | item (item : Item α)
  | finished
  | hint (size : SizeHint)
  | count (n : Nat)
  | flag (b : Bool)
  | value (x : Option α)
  | vector (v : SparseVector α)
  | pairs (items : List (Nat × α))
  | replies (replies : List (Reply Nat α))
  | unsupported
  deriving DecidableEq, Repr

namespace LineScript

variable {α : Type u}

/-- Answers one request to a contiguous line, given by the cells of a value
array that it consists of. -/
def answerContiguous (cells : List Nat) (request : LineRequest α) (values : Array α) :
    Except Fault (LineReply α × Array α) :=
  match request with
  | .len => .ok (.count cells.length, values)
  | .get k =>
      match cells[k]? with
      | none => .error (.element k cells.length)
      | some cell => (readElement values cell).map fun x => (.value (some x), values)
  | .set k x =>
      match cells[k]? with
      | none => .error (.element k cells.length)
      | some cell =>
          (readElement values cell).map fun old =>
            (.value (some old), values.setIfInBounds cell x)
  | _ => .ok (.unsupported, values)

/-- Runs a script on a contiguous line. What was written before a refused
access stays written. -/
def runContiguous (cells : List Nat) :
    LineScript α → Array α → Except Fault (List (LineReply α)) × Array α
  | [], values => (.ok [], values)
  | request :: script, values =>
      match answerContiguous cells request values with
      | .error fault => (.error fault, values)
      | .ok (reply, values) =>
          let (replies, values) := runContiguous cells script values
          (replies.map (reply :: ·), values)

/-- Runs a script on a line that is walked item by item. -/
def runWalk {σ : Type v} {ι : Type w} {κ : Type x} {S : Type y} [Cursor σ (ι × κ)] [Cells S κ α]
    (item : ι → α → Item α) : LineScript α → σ → S → List (LineReply α) × S
  | [], _, store => ([], store)
  | request :: script, cursor, store =>
      let (reply, cursor, store) : LineReply α × σ × S :=
        match request with
        | .next replacement =>
            match Script.step (.next replacement) cursor store with
            | (.item label x, cursor, store) => (.item (item label x), cursor, store)
            | (.finished, cursor, store) => (.finished, cursor, store)
            | (.hint size, cursor, store) => (.hint size, cursor, store)
        | .hint => (.hint (Cursor.hint cursor), cursor, store)
        | _ => (.unsupported, cursor, store)
      let (replies, store) := runWalk item script cursor store
      (reply :: replies, store)

/-- Answers one request to a sparse line of length `len`. -/
def answerSparse {α : Type} (len : Nat) (request : LineRequest α) (v : SparseVector α) :
    Except Fault (LineReply α) × SparseVector α :=
  match request with
  | .len => (.ok (.count len), v)
  | .isEmpty => (.ok (.flag (len == 0)), v)
  | .nnz => (.ok (.count v.nnz), v)
  | .get k => ((v.get? k).map .value, v)
  | .insert k x =>
      if k < len then
        let (previous, v) := v.insert k x
        (previous.map .value, v)
      else (.error (.lineInsert k len), v)
  | .remove k =>
      let (removed, v) := v.remove k
      (removed.map .value, v)
  | .overwrite k x =>
      let (previous, v) := v.overwrite k x
      (previous.map .value, v)
  | .vector => (.ok (.vector v), v)
  | .pairs => (.ok (.pairs v.toList), v)
  | .walk script | .consume script =>
      let (replies, v) := v.runScript script
      (.ok (.replies replies), v)
  | .next _ | .hint | .set _ _ | .unknown => (.ok .unsupported, v)

/-- Runs a script on a sparse line. A walk that consumes the line ends the
script, so what follows it is not run. -/
def runSparse {α : Type} (len : Nat) :
    LineScript α → SparseVector α → Except Fault (List (LineReply α)) × SparseVector α
  | [], v => (.ok [], v)
  | request :: script, v =>
      match answerSparse len request v with
      | (.error fault, v) => (.error fault, v)
      | (.ok reply, v) =>
          match request with
          | .consume _ => (.ok [reply], v)
          | _ =>
              let (replies, v) := runSparse len script v
              (replies.map (reply :: ·), v)

/-- Runs one script per line, in the order of the lines, until either runs
out, and reports the size hint that the line cursor is left with. `edit` runs
one script on one line. -/
def runLines {σ : Type v} {ι : Type w} {S : Type x} [Cursor σ ι]
    (edit : ι → LineScript α → S → Except Fault (List (LineReply α)) × S) :
    List (LineScript α) → σ → S → Except Fault (List (List (LineReply α)) × SizeHint) × S
  | [], cursor, store => (.ok ([], Cursor.hint cursor), store)
  | script :: scripts, cursor, store =>
      match Cursor.next cursor with
      | (none, cursor) => (.ok ([], Cursor.hint cursor), store)
      | (some line, cursor) =>
          match edit line script store with
          | (.error fault, store) => (.error fault, store)
          | (.ok replies, store) =>
              let (rest, store) := runLines edit scripts cursor store
              (rest.map fun (lines, size) => (replies :: lines, size), store)

end LineScript

end TransposedViews
