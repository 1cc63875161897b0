import TransposedViews.Document

namespace TransposedViews

/-- How a vector is made anew. -/
inductive VectorSource (α : Type) where
  | empty
  | collect (pairs : List (Nat × α))
  | document (text : String)
  deriving DecidableEq, Repr

/-- What can be done with a vector that is there. -/
inductive VectorAction (α : Type) where
  | insert (k : Nat) (x : α)
  | remove (k : Nat)
  | get (k : Nat)
  | overwrite (k : Nat) (x : α)
  | nnz
  | isEmpty
  | lastIndex
  | indices
  | values
  | toDocument
  | overwriteValues (replacements : List α)
  | pairs (limit : Option Nat)
  | walk (script : List (Request α))
  | equal (other : String)
  deriving DecidableEq, Repr

inductive VectorStep (α : Type) where
  | build (source : VectorSource α)
  | act (action : VectorAction α)
  deriving DecidableEq, Repr

inductive VectorAnswer (α : Type) where
  | done
  | value (x : Option α)
  | count (n : Nat)
  | flag (b : Bool)
  | index (k : Option Nat)
  | indices (ks : List Nat)
  | values (xs : List α)
  | document (v : Json.Value)
  | items (items : List (Nat × α)) (left : SizeHint)
  | replies (replies : List (Reply Nat α))

inductive VectorFailure where
  | fault (fault : Fault)
  | undecoded (error : Json.DocumentError)
  | noVector
  deriving DecidableEq, Repr

abbrev Vectors (α : Type) := List (String × SparseVector α)

/-- The outcome of a step, and the vector to be shown after it if there is
one. -/
structure VectorResult (α : Type) where
  outcome : Except VectorFailure (VectorAnswer α)
  shown : Option (SparseVector α)

namespace Vectors

variable {α : Type}

def put (w : Vectors α) (name : String) (v : SparseVector α) : Vectors α :=
  (name, v) :: w.filter (·.1 != name)

/-- The answer of a step and the vector after it, which is kept also if the step
was refused. -/
def answered (w : Vectors α) (name : String) (answer : Except Fault (VectorAnswer α))
    (v : SparseVector α) : VectorResult α × Vectors α :=
  (⟨answer.mapError .fault, some v⟩, w.put name v)

/-- Makes a vector. The name goes on standing for what it stood for if that
fails. -/
def build [DocumentElement α] (w : Vectors α) (name : String) :
    VectorSource α → VectorResult α × Vectors α
  | .empty => w.answered name (.ok .done) .empty
  | .collect pairs =>
      match SparseVector.ofPairs pairs with
      | .error f => (⟨.error (.fault f), none⟩, w)
      | .ok v => w.answered name (.ok .done) v
  | .document text =>
      match Json.decode SparseVector.ofValue text with
      | .error e => (⟨.error (.undecoded e), none⟩, w)
      | .ok v => w.answered name (.ok .done) v

/-- Carries out an action on a vector. -/
def act [DocumentElement α] (w : Vectors α) (name : String) (v : SparseVector α) :
    VectorAction α → VectorResult α × Vectors α
  | .insert k x =>
      let (previous, v) := v.insert k x
      w.answered name (previous.map .value) v
  | .remove k =>
      let (removed, v) := v.remove k
      w.answered name (removed.map .value) v
  | .get k => w.answered name ((v.get? k).map .value) v
  | .overwrite k x =>
      let (previous, v) := v.overwrite k x
      w.answered name (previous.map .value) v
  | .nnz => w.answered name (.ok (.count v.nnz)) v
  | .isEmpty => w.answered name (.ok (.flag v.isEmpty)) v
  | .lastIndex => w.answered name (.ok (.index v.lastIndex?)) v
  | .indices => w.answered name (.ok (.indices v.indices)) v
  | .values => w.answered name (.ok (.values v.values)) v
  | .toDocument => w.answered name (.ok (.document v.toValue)) v
  | .overwriteValues replacements =>
      w.answered name (.ok .done) (v.overwriteValues replacements)
  | .pairs limit =>
      let (items, left) := Cursor.collect limit v.cursor
      w.answered name (.ok (.items items left)) v
  | .walk script =>
      let (replies, v) := v.runScript script
      w.answered name (.ok (.replies replies)) v
  | .equal other =>
      match w.lookup other with
      | none => (⟨.error .noVector, some v⟩, w)
      | some u => w.answered name (.ok (.flag (v == u))) v

/-- Carries out one step. -/
def step [DocumentElement α] (w : Vectors α) (name : String) :
    VectorStep α → VectorResult α × Vectors α
  | .build source => w.build name source
  | .act action =>
      match w.lookup name with
      | none => (⟨.error .noVector, none⟩, w)
      | some v => w.act name v action

end Vectors

end TransposedViews
