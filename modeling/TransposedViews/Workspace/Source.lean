import TransposedViews.Document
import TransposedViews.Log

/-!
Where matrices come from: each kind can be built from some sources, and what
was built or rejected is logged.
-/

namespace TransposedViews

/-- Where a matrix is built from. Not every kind can be built from every
source. -/
inductive Source (α : Type) where
  | zeros (nrows ncols : Nat)
  | rowMajor (nrows ncols : Nat) (values : Array α)
  | cycle (nrows ncols : Nat) (values : List α)
  | empty (nrows ncols : Nat)
  | triplets (nrows ncols : Nat) (entries : List (Triplet α))
  | parts (nrows ncols : Nat) (entries : List (Triplet α))
  | document (text : String)
  | unknown
  deriving DecidableEq, Repr

/-- Why no matrix was built. -/
inductive BuildError where
  | failed (failure : BuildFailure)
  | undecoded (error : Json.DocumentError)
  | unsupported
  deriving DecidableEq, Repr

/-- What building comes to: the matrix, with the positions that values were
asked for where they were asked for one by one, or the reason why there is
none; and what is logged on the way. -/
structure Building (α : Type) where
  result : Except BuildError (Matrix α × Option (List (Nat × Nat)))
  log : List LogRecord

namespace Source

variable {α : Type} [DocumentElement α]

/-- The values of a list one after the other, from the start again after the
last, with a note of every position they were asked for, the latest first. -/
def nextOf (values : List α) (i j : Nat) : StateM (List α × List (Nat × Nat)) α :=
  fun (upcoming, calls) =>
    let calls := (i, j) :: calls
    match upcoming, values with
    | x :: upcoming, _ | [], x :: upcoming => (x, upcoming, calls)
    | [], [] => (Element.zero, [], calls)

/-- The number of entries that a log record mentions: none for a matrix that
stores every position. -/
def loggedCount : Matrix α → Option Nat
  | .dense _ => none
  | .row m => some m.nnz
  | .col m => some m.nnz
  | .coordinate m => some m.nnz

/-- What is logged of a matrix that was accepted or rejected. A refused access
is not logged. -/
def logged (kind : Kind) (nrows ncols : Nat) : Except BuildFailure (Matrix α) → List LogRecord
  | .ok m => [.built kind nrows ncols (Element.dataType α) (loggedCount m)]
  | .error (.rejected e) => [.rejected kind nrows ncols (Element.dataType α) e]
  | .error (.fault _) => []

/-- A matrix from data that were checked. -/
def ofResult (kind : Kind) (nrows ncols : Nat) (result : Except BuildFailure (Matrix α)) :
    Building α :=
  {result := (result.map fun m => (m, none)).mapError .failed
   log := logged kind nrows ncols result}

/-- A matrix that needs no checks and is not logged. -/
def unchecked (m : Matrix α) : Building α := {result := .ok (m, none), log := []}

/-- A matrix from a document, with the log record of its check if the document
got that far. What follows a document cannot undo its log record. -/
def ofDocument (kind : Kind) (parts : Json.Decoder π) (dims : π → Nat × Nat)
    (accept : π → Except BuildFailure (Matrix α)) (text : String) : Building α :=
  let decoder := Json.checked parts .ofBuildFailure accept
  {result := ((Json.decode decoder text).map fun m => (m, none)).mapError .undecoded
   log :=
    match Json.checkable parts text with
    | none => []
    | some p => logged kind (dims p).1 (dims p).2 (accept p)}

/-- A matrix from a document of lines, which is not logged. -/
def ofLines (decoder : Json.Decoder μ) (matrix : μ → Matrix α) (text : String) : Building α :=
  {result := ((Json.decode decoder text).map fun m => (matrix m, none)).mapError .undecoded
   log := []}

/-- A source that a kind cannot be built from. -/
def unsupported : Building α := {result := .error .unsupported, log := []}

def buildDense : Source α → Building α
  | .zeros nrows ncols => ofResult .dense nrows ncols (.ok (.dense (.zeros nrows ncols)))
  | .rowMajor nrows ncols values =>
      ofResult .dense nrows ncols
        (((Dense.ofArray nrows ncols values).map .dense).mapError .rejected)
  | .cycle nrows ncols values =>
      let (m, _, calls) := (Dense.generate nrows ncols (nextOf values)).run (values, [])
      {result := .ok (.dense m, some calls.reverse)
       log := logged .dense nrows ncols (.ok (.dense m))}
  | .document text =>
      ofDocument .dense Dense.Parts.ofValue (fun p => (p.nrows, p.ncols))
        (fun p => ((Dense.ofParts p).map .dense).mapError .rejected) text
  | _ => unsupported

def buildRow : Source α → Building α
  | .empty nrows ncols => unchecked (.row (.empty nrows ncols))
  | .triplets nrows ncols entries =>
      ofResult .row nrows ncols ((RowMatrix.ofTriplets nrows ncols entries).map .row)
  | .document text => ofLines RowMatrix.ofValue .row text
  | _ => unsupported

def buildCol : Source α → Building α
  | .empty nrows ncols => unchecked (.col (.empty nrows ncols))
  | .triplets nrows ncols entries =>
      ofResult .col nrows ncols ((ColMatrix.ofTriplets nrows ncols entries).map .col)
  | .document text => ofLines ColMatrix.ofValue .col text
  | _ => unsupported

def buildCoordinate : Source α → Building α
  | .empty nrows ncols => unchecked (.coordinate (.empty nrows ncols))
  | .triplets nrows ncols entries =>
      ofResult .coordinate nrows ncols
        ((Coordinate.ofTriplets nrows ncols entries).map .coordinate)
  | .parts nrows ncols entries =>
      ofResult .coordinate nrows ncols
        ((Coordinate.ofParts {nrows, ncols, entries}).map .coordinate)
  | .document text =>
      ofDocument .coordinate Coordinate.Parts.ofValue (fun p => (p.nrows, p.ncols))
        (fun p => (Coordinate.ofParts p).map .coordinate) text
  | _ => unsupported

def build : Kind → Source α → Building α
  | .dense => buildDense
  | .row => buildRow
  | .col => buildCol
  | .coordinate => buildCoordinate

end Source

end TransposedViews
