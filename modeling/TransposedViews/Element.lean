import TransposedViews.Element.DataType
import TransposedViews.Element.Binary

/-!
What a matrix needs to know of its elements: a name for their type, a zero to
fill with, an equality and the bytes they occupy. No arithmetic is done on
them. The equality need not be an equivalence: a floating-point element that
is no number differs from itself.
-/

namespace TransposedViews

class Element (α : Type) extends BEq α where
  dataType : DataType
  zero : α
  bytes : α → List UInt8

/-- The `count` low bytes of a number, least significant first. -/
def littleEndian (count n : Nat) : List UInt8 :=
  (List.range count).map fun k => ((n >>> (8 * k)) % 256).toUInt8

instance : Element Int32 where
  dataType := .i32
  zero := 0
  bytes x := littleEndian 4 x.toUInt32.toNat

instance : Element Int64 where
  dataType := .i64
  zero := 0
  bytes x := littleEndian 8 x.toUInt64.toNat

instance : Element UInt32 where
  dataType := .u32
  zero := 0
  bytes x := littleEndian 4 x.toNat

instance : Element UInt64 where
  dataType := .u64
  zero := 0
  bytes x := littleEndian 8 x.toNat

instance : Element Binary32 where
  dataType := .f32
  zero := ⟨0⟩
  bytes x := littleEndian 4 x.bits.toNat

instance : Element Binary64 where
  dataType := .f64
  zero := ⟨0⟩
  bytes x := littleEndian 8 x.bits.toNat

end TransposedViews
