import TransposedViews.Traversal.Cursor

/-!
The traversal that flattens a sequence of lines. It keeps the line it is in
together with the lines still to come, and moves on only when it is asked for
an item and the current line has none left, so runs of empty lines are skipped
in one call. What is stored in the lines is left open: values for reading, or
the cells that hold them for writing.
-/

namespace TransposedViews

/-- A flattening under way: how many lines were begun, the lines not yet
begun, and the line in progress with its number. -/
structure Entries (β : Type u) where
  begun : Nat
  rest : List (List (Nat × β))
  current : Option (Nat × List (Nat × β))
  deriving Repr

namespace Entries

variable {β : Type u}

/-- The traversal of all lines, before the first is begun. -/
def ofLines (lines : List (List (Nat × β))) : Entries β := ⟨0, lines, none⟩

/-- Delivers the next item as `(major, minor, payload)`, beginning lines until
one has an item. The last line stays in progress when all are exhausted. -/
def advance : Nat → List (List (Nat × β)) → Option (Nat × List (Nat × β)) →
    Option (Nat × Nat × β) × Entries β
  | begun, rest, some (major, (minor, x) :: line) =>
      (some (major, minor, x), ⟨begun, rest, some (major, line)⟩)
  | begun, line :: rest, _ => advance (begun + 1) rest (some (begun, line))
  | begun, [], current => (none, ⟨begun, [], current⟩)

def next (s : Entries β) : Option (Nat × Nat × β) × Entries β :=
  advance s.begun s.rest s.current

/-- The number of items left in the line in progress. -/
def inCurrent : Option (Nat × List (Nat × β)) → Nat
  | some (_, line) => line.length
  | none => 0

/-- The number of items still to come. -/
def remaining (s : Entries β) : Nat := inCurrent s.current + s.rest.flatten.length

theorem remaining_advance (rest : List (List (Nat × β))) (begun : Nat)
    (current : Option (Nat × List (Nat × β))) (a : Nat × Nat × β)
    (h : (advance begun rest current).1 = some a) :
    (advance begun rest current).2.remaining + 1 =
      inCurrent current + rest.flatten.length := by
  induction rest generalizing begun current with
  | nil =>
      match current with
      | none | some (_, []) => simp [advance] at h
      | some (_, _ :: _) => simp [advance, remaining, inCurrent]
  | cons line rest ih =>
      match current with
      | some (_, _ :: _) => simp [advance, remaining, inCurrent]; omega
      | none | some (_, []) =>
          simp only [advance] at h ⊢
          rw [ih _ _ h]
          simp [inCurrent]

end Entries

/-- Nothing is promised about the number of items, since lines are not looked
into before they are begun. -/
instance : Cursor (Entries β) (Nat × Nat × β) where
  next := Entries.next
  hint _ := .unknown
  ahead := Entries.remaining
  ahead_next s a h := by
    have := Entries.remaining_advance s.rest s.begun s.current a h
    simp only [Entries.next, Entries.remaining] at *
    omega

end TransposedViews
