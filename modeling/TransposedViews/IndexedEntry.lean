namespace TransposedViews

/-- A stored value together with its position. -/
structure IndexedEntry (ν : Type u) where
  row : Nat
  col : Nat
  value : ν
  deriving DecidableEq, BEq, Repr

namespace IndexedEntry

/-- The same entry seen from the transposed frame. -/
def transposed (e : IndexedEntry ν) : IndexedEntry ν :=
  {row := e.col, col := e.row, value := e.value}

def map (f : ν → μ) (e : IndexedEntry ν) : IndexedEntry μ :=
  {row := e.row, col := e.col, value := f e.value}

@[simp] theorem transposed_transposed (e : IndexedEntry ν) :
    e.transposed.transposed = e := rfl

end IndexedEntry

end TransposedViews
