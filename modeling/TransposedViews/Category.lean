namespace TransposedViews

/-- Which line traversals a matrix guarantees. A `generic` matrix declares no
preference and offers both. -/
inductive Category where
  | rowCol
  | row
  | col
  | generic
  deriving DecidableEq, Repr

namespace Category

/-- The category seen through a transposed view. -/
def transposed : Category → Category
  | .row => .col
  | .col => .row
  | other => other

def hasRows : Category → Bool
  | .col => false
  | _ => true

def hasCols : Category → Bool
  | .row => false
  | _ => true

/-- The name used in messages. -/
def displayName : Category → String
  | .rowCol => "row+col"
  | .row => "row"
  | .col => "col"
  | .generic => "generic"

@[simp] theorem transposed_transposed (c : Category) : c.transposed.transposed = c := by
  cases c <;> rfl

@[simp] theorem hasRows_transposed (c : Category) : c.transposed.hasRows = c.hasCols := by
  cases c <;> rfl

@[simp] theorem hasCols_transposed (c : Category) : c.transposed.hasCols = c.hasRows := by
  cases c <;> rfl

end Category

end TransposedViews
