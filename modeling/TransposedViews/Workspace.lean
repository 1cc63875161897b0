import TransposedViews.View.Operation
import TransposedViews.Workspace.Source

namespace TransposedViews

/-- Requests that only matrices stored in a certain way understand. -/
inductive StorageRequest where
  | buffer
  | bytes
  | nnz
  | rowVector (k : Nat)
  | colVector (k : Nat)
  | parts
  deriving DecidableEq, Repr

/-- What can be done with a matrix that is there. -/
inductive Action (α : Type) where
  | clone (target : String)
  | equal (other : String)
  | document
  | storage (request : StorageRequest)
  | read (chain : List Access) (request : Reading α)
  | write (chain : List Access) (request : Writing α)
  deriving DecidableEq, Repr

inductive Step (α : Type) where
  | build (source : Source α)
  | act (action : Action α)
  deriving DecidableEq, Repr

inductive Failure where
  | refused (refusal : Refusal)
  | rejected (error : MatrixError)
  | undecoded (error : Json.DocumentError)
  | noMatrix
  deriving DecidableEq, Repr

inductive Answer (α : Type) where
  | done
  | calls (positions : List (Nat × Nat))
  | flag (b : Bool)
  | document (v : Json.Value)
  | values (xs : List α)
  | bytes (bs : List UInt8)
  | count (n : Nat)
  | vector (v : SparseVector α)
  | parts (p : Coordinate.Parts α)
  | read (answer : ReadAnswer α)
  | write (answer : WriteAnswer α)

abbrev Outcome (α : Type) := Except Failure (Answer α)

def BuildError.toFailure : BuildError → Failure
  | .failed (.rejected e) => .rejected e
  | .failed (.fault f) => .refused (.fault f)
  | .undecoded e => .undecoded e
  | .unsupported => .refused .unsupported

/-- Answers a request about the way a matrix is stored. -/
def Matrix.storage [Element α] (m : Matrix α) (request : StorageRequest) : Outcome α :=
  match m, request with
  | .dense m, .buffer => .ok (.values m.data.toList)
  | .dense m, .bytes => .ok (.bytes m.bytes)
  | .row m, .nnz => .ok (.count m.nnz)
  | .col m, .nnz => .ok (.count m.nnz)
  | .coordinate m, .nnz => .ok (.count m.nnz)
  | .row m, .rowVector k => ((m.row k).map .vector).mapError (.refused ∘ .fault)
  | .col m, .colVector k => ((m.col k).map .vector).mapError (.refused ∘ .fault)
  | .coordinate m, .parts => .ok (.parts m.toParts)
  | _, _ => .error (.refused .unsupported)

/-- Matrices of one kind, kept under names. -/
structure Workspace (α : Type) where
  kind : Kind
  matrices : List (String × Matrix α)

/-- The outcome of a step, the matrix to be shown after it where the step
may have changed one, and what it logged. -/
structure StepResult (α : Type) where
  outcome : Outcome α
  shown : Option (Matrix α)
  log : List LogRecord

namespace Workspace

variable {α : Type}

def empty (kind : Kind) : Workspace α := ⟨kind, []⟩

def get? (w : Workspace α) (name : String) : Option (Matrix α) := w.matrices.lookup name

/-- Keeps a matrix under a name, in place of the one that had it. -/
def put (w : Workspace α) (name : String) (m : Matrix α) : Workspace α :=
  {w with matrices := (name, m) :: w.matrices.filter (·.1 != name)}

/-- Compares a matrix with another one of the workspace. -/
def compare [BEq α] (w : Workspace α) (m : Matrix α) (other : String) : Outcome α :=
  match w.get? other with
  | none => .error .noMatrix
  | some n =>
      match m.equal? n with
      | none => .error (.refused .unsupported)
      | some result => (result.map .flag).mapError (.refused ∘ .fault)

/-- Carries out an action on a matrix. Views are bound for reading and writing
only. -/
def act [DocumentElement α] (w : Workspace α) (name : String) (m : Matrix α) :
    Action α → StepResult α × Workspace α
  | .clone target => (⟨.ok .done, none, []⟩, w.put target m)
  | .equal other => (⟨w.compare m other, none, []⟩, w)
  | .document => (⟨.ok (.document m.toValue), none, []⟩, w)
  | .storage request => (⟨m.storage request, none, []⟩, w)
  | .read chain request =>
      let v := View.chain m chain
      (⟨((v.read request).map .read).mapError .refused, none, v.bindings⟩, w)
  | .write chain request =>
      let v := View.chain m chain
      let (outcome, after) := v.write request
      (⟨(outcome.map .write).mapError .refused, some after.base, v.bindings⟩,
        w.put name after.base)

/-- Builds a matrix. The name goes on standing for what it stood for if that
fails. -/
def build [DocumentElement α] (w : Workspace α) (name : String) (source : Source α) :
    StepResult α × Workspace α :=
  let building := Source.build w.kind source
  match building.result with
  | .error e => (⟨.error e.toFailure, none, building.log⟩, w)
  | .ok (m, none) => (⟨.ok .done, some m, building.log⟩, w.put name m)
  | .ok (m, some calls) => (⟨.ok (.calls calls), some m, building.log⟩, w.put name m)

/-- Carries out one step. Everything but building needs a matrix of that
name. -/
def step [DocumentElement α] (w : Workspace α) (name : String) :
    Step α → StepResult α × Workspace α
  | .build source => w.build name source
  | .act action =>
      match w.get? name with
      | none => (⟨.error .noMatrix, none, []⟩, w)
      | some m => w.act name m action

end Workspace

end TransposedViews
