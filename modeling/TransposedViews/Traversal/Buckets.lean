import TransposedViews.Error

namespace TransposedViews

/-- Puts one item into a bucket, refusing a bucket that does not exist. -/
def pushInto (buckets : Array (List β)) (bucket : Nat) (x : β) :
    Except Fault (Array (List β)) :=
  match buckets[bucket]? with
  | some items => .ok (buckets.setIfInBounds bucket (items ++ [x]))
  | none => .error (.element bucket buckets.size)

/-- Distributes items, given with the numbers of their buckets, over `count`
buckets. -/
def distribute (count : Nat) (items : List (Nat × β)) : Except Fault (Array (List β)) :=
  items.foldlM (fun buckets (bucket, x) => pushInto buckets bucket x) (.replicate count [])

end TransposedViews
