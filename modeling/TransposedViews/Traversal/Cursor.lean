/-!
Suspended traversals. A cursor is asked for one item at a time and returns its
new state with the answer, also when it is exhausted, so that it can be asked
again. Each cursor type names a quantity that every delivered item lowers;
this is what makes running a cursor to its end a total function.
-/

namespace TransposedViews

/-- A promise about the items still to come: at least `lower`, and at most
`upper` where that is known. -/
structure SizeHint where
  lower : Nat
  upper : Option Nat
  deriving DecidableEq, Repr

namespace SizeHint

def exactly (n : Nat) : SizeHint := ⟨n, some n⟩

/-- The promise that promises nothing. -/
def unknown : SizeHint := ⟨0, none⟩

end SizeHint

class Cursor (σ : Type u) (ι : outParam (Type v)) where
  next : σ → Option ι × σ
  hint : σ → SizeHint
  ahead : σ → Nat
  ahead_next : ∀ (s : σ) (a : ι), (next s).1 = some a → ahead (next s).2 < ahead s

namespace Cursor

variable {σ : Type u} {ι : Type v} [Cursor σ ι]

/-- Takes at most `n` items. A cursor found exhausted is not asked again. -/
def take : Nat → σ → List ι × σ
  | 0, s => ([], s)
  | n + 1, s =>
      match next s with
      | (none, s) => ([], s)
      | (some a, s) =>
          let (items, s) := take n s
          (a :: items, s)

/-- Takes all items, and asks once past the last. -/
def drain (s : σ) : List ι × σ :=
  match h : next s with
  | (none, s') => ([], s')
  | (some a, s') =>
      have : ahead s' < ahead s := by simpa [h] using ahead_next s a (by rw [h])
      let (items, s'') := drain s'
      (a :: items, s'')
termination_by ahead s

/-- The items still to come. -/
def toList (s : σ) : List ι := (drain s).1

/-- Skips `k` items and takes the one after them. -/
def nth : Nat → σ → Option ι × σ
  | 0, s => next s
  | k + 1, s =>
      match next s with
      | (none, s) => (none, s)
      | (some _, s) => nth k s

/-- Takes at most `limit` items, or all of them, and reports the size hint
that the cursor is left with. -/
def collect (limit : Option Nat) (s : σ) : List ι × SizeHint :=
  let (items, s) :=
    match limit with
    | some n => take n s
    | none => drain s
  (items, hint s)

end Cursor

/-- The traversal of a list, which always knows how many items it has left. -/
structure Items (ι : Type u) where
  rest : List ι
  deriving DecidableEq, Repr

instance : Cursor (Items ι) ι where
  next
    | ⟨[]⟩ => (none, ⟨[]⟩)
    | ⟨a :: rest⟩ => (some a, ⟨rest⟩)
  hint s := .exactly s.rest.length
  ahead s := s.rest.length
  ahead_next
    | ⟨[]⟩, _, h => by simp at h
    | ⟨_ :: _⟩, _, _ => by simp

/-- A traversal whose items are changed on delivery. -/
structure Mapped (σ : Type u) (ι : Type v) (κ : Type w) where
  inner : σ
  onItem : ι → κ

instance [Cursor σ ι] : Cursor (Mapped σ ι κ) κ where
  next s :=
    let (item, inner) := Cursor.next s.inner
    (item.map s.onItem, {s with inner})
  hint s := Cursor.hint s.inner
  ahead s := Cursor.ahead s.inner
  ahead_next s a h := by
    obtain ⟨b, hb, -⟩ := Option.map_eq_some_iff.1 h
    exact Cursor.ahead_next s.inner b hb

end TransposedViews
