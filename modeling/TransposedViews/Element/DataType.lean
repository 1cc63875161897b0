namespace TransposedViews

/-- The types of elements, as values. -/
inductive DataType where
  | f32
  | f64
  | i32
  | i64
  | u32
  | u64
  deriving DecidableEq, Repr

namespace DataType

/-- The name used in messages. -/
def displayName : DataType → String
  | .f32 => "f32"
  | .f64 => "f64"
  | .i32 => "i32"
  | .i64 => "i64"
  | .u32 => "u32"
  | .u64 => "u64"

/-- The number that stands for the type where a byte has to. -/
def code : DataType → Nat
  | .f32 => 0
  | .f64 => 1
  | .i32 => 2
  | .i64 => 3
  | .u32 => 4
  | .u64 => 5

end DataType

end TransposedViews
