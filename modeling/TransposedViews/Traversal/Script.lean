import TransposedViews.Traversal.Cursor

/-!
Traversals that write. A cursor over `(label, cell)` pairs says which cells of
a store come in which order; running a script of requests on it reads each
cell as it stands at that moment and may replace its content. A store is
addressed by cells alone, so a traversal cannot change its shape.
-/

namespace TransposedViews

/-- Values addressed by cells. A cell that the store does not have reads as
nothing, and writing to it changes nothing. -/
class Cells (S : Type u) (κ : outParam (Type v)) (α : outParam (Type w)) where
  read : S → κ → Option α
  write : S → κ → α → S

instance : Cells (Array α) Nat α where
  read xs k := xs[k]?
  write xs k x := xs.setIfInBounds k x

instance : Cells (List α) Nat α where
  read xs k := xs[k]?
  write xs k x := xs.set k x

/-- One request to a traversal that writes: the next item, with a replacement
for its value or without, or the size hint. -/
inductive Request (α : Type u) where
  | next (replacement : Option α)
  | hint
  deriving DecidableEq, Repr

/-- The answer to a request. An item reports the value it had before it was
replaced. -/
inductive Reply (ι : Type u) (α : Type v) where
  | item (label : ι) (value : α)
  | finished
  | hint (size : SizeHint)
  deriving DecidableEq, Repr

namespace Script

variable {σ : Type u} {ι : Type v} {κ : Type w} {S : Type x} {α : Type y}

/-- Answers one request. -/
def step [Cursor σ (ι × κ)] [Cells S κ α] (request : Request α) (cursor : σ) (store : S) :
    Reply ι α × σ × S :=
  match request with
  | .hint => (.hint (Cursor.hint cursor), cursor, store)
  | .next replacement =>
      match Cursor.next cursor with
      | (none, cursor) => (.finished, cursor, store)
      | (some (label, cell), cursor) =>
          match Cells.read store cell with
          | none => (.finished, cursor, store)
          | some value =>
              match replacement with
              | none => (.item label value, cursor, store)
              | some x => (.item label value, cursor, Cells.write store cell x)

/-- Answers requests in order. -/
def run [Cursor σ (ι × κ)] [Cells S κ α] : List (Request α) → σ → S → List (Reply ι α) × σ × S
  | [], cursor, store => ([], cursor, store)
  | request :: requests, cursor, store =>
      let (reply, cursor, store) := step request cursor store
      let (replies, cursor, store) := run requests cursor store
      (reply :: replies, cursor, store)

end Script

end TransposedViews
