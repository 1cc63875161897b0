import TransposedViews.Category
import TransposedViews.Coordinate
import TransposedViews.Dense
import TransposedViews.IndexedEntry
import TransposedViews.Json.Decoder
import TransposedViews.Matrix

/-!
The documents in which matrices are kept. Each kind of data has a record of
named fields; reading one applies the checks that its constructor makes, so a
document can hold nothing that could not have been built.
-/

namespace TransposedViews

/-- Elements that can be part of a document. -/
class DocumentElement (α : Type) extends Element α where
  ofNumber? : Json.Number → Option α
  toValue : α → Json.Value

/-- The integer a number is, if it lies between the bounds. -/
def Json.Number.integer? (low high : Int) : Json.Number → Option Int
  | .integer n => if low ≤ n ∧ n ≤ high then some n else none
  | .real _ => none

/-- A double as part of a document. Nothing stands for those that are not
finite. -/
def Json.Value.ofDouble (x : Binary64) : Json.Value :=
  if x.isFinite then .number (.real x) else .null

instance : DocumentElement Int32 where
  ofNumber? n := (n.integer? (-2147483648) 2147483647).map Int32.ofInt
  toValue x := .number (.integer x.toInt)

instance : DocumentElement Int64 where
  ofNumber? n := (n.integer? (-9223372036854775808) 9223372036854775807).map Int64.ofInt
  toValue x := .number (.integer x.toInt)

instance : DocumentElement UInt32 where
  ofNumber? n := (n.integer? 0 4294967295).map fun n => n.toNat.toUInt32
  toValue x := .number (.integer x.toNat)

instance : DocumentElement UInt64 where
  ofNumber? n := (n.integer? 0 18446744073709551615).map fun n => n.toNat.toUInt64
  toValue x := .number (.integer x.toNat)

/-- Numbers that are no integers are read in double precision and rounded once
more, so a number out of the range of single precision is read as infinite. -/
instance : DocumentElement Binary32 where
  ofNumber?
    | .integer n => some (.ofInt n)
    | .real x => if x.isFinite then some x.narrow else none
  toValue x := .ofDouble x.widen

instance : DocumentElement Binary64 where
  ofNumber?
    | .integer n => some (.ofInt n)
    | .real x => if x.isFinite then some x else none
  toValue x := .ofDouble x

namespace Json

variable {α : Type} [DocumentElement α]

def element : Decoder α
  | .number n =>
      match DocumentElement.ofNumber? n with
      | some x => .ok x
      | none => .error .malformed
  | _ => .error .malformed

end Json

open Json (Decoder Value)

section

variable {α : Type} [DocumentElement α]

def Dense.Parts.ofValue : Decoder (Dense.Parts α) := fun v =>
  (Json.record₃ "nrows" "ncols" "data" Json.index Json.index (Json.list Json.element) v).map
    fun (nrows, ncols, data) => {nrows, ncols, data := data.toArray}

def Dense.ofValue : Decoder (Dense α) := Json.checked Dense.Parts.ofValue .invalid Dense.ofParts

def Dense.toValue (m : Dense α) : Value :=
  .record
    [("nrows", .ofNat m.nrows), ("ncols", .ofNat m.ncols),
      ("data", .list (m.data.toList.map DocumentElement.toValue))]

def SparseVector.Parts.ofValue : Decoder (SparseVector.Parts α) := fun v =>
  (Json.record₂ "indices" "values" (Json.list Json.index) (Json.list Json.element) v).map
    fun (indices, values) => {indices, values}

def SparseVector.ofValue : Decoder (SparseVector α) :=
  Json.checked SparseVector.Parts.ofValue .invalid SparseVector.ofParts

def SparseVector.toValue (v : SparseVector α) : Value :=
  .record
    [("indices", .list (v.indices.map .ofNat)),
      ("values", .list (v.values.map DocumentElement.toValue))]

/-- Lines are checked one by one as they are read. -/
def SparseLines.ofValue : Decoder (SparseLines α) := fun v =>
  (Json.record₂ "minor_dim" "lines" Json.index (Json.list SparseVector.ofValue) v).map
    fun (minorDim, lines) => {minorDim, lines := lines.toArray}

def SparseLines.toValue (s : SparseLines α) : Value :=
  .record
    [("minor_dim", .ofNat s.minorDim), ("lines", .list (s.lines.toList.map SparseVector.toValue))]

def RowMatrix.ofValue : Decoder (RowMatrix α) :=
  Json.checked SparseLines.ofValue .invalid RowMatrix.ofLines

def RowMatrix.toValue (m : RowMatrix α) : Value := m.storage.toValue

def ColMatrix.ofValue : Decoder (ColMatrix α) :=
  Json.checked SparseLines.ofValue .invalid ColMatrix.ofLines

def ColMatrix.toValue (m : ColMatrix α) : Value := m.storage.toValue

def Coordinate.Parts.ofValue : Decoder (Coordinate.Parts α) := fun v =>
  (Json.record₃ "nrows" "ncols" "entries" Json.index Json.index
      (Json.list (Json.triple Json.index Json.index Json.element)) v).map
    fun (nrows, ncols, entries) => {nrows, ncols, entries}

def Coordinate.ofValue : Decoder (Coordinate α) :=
  Json.checked Coordinate.Parts.ofValue .ofBuildFailure Coordinate.ofParts

def Coordinate.Parts.toValue (parts : Coordinate.Parts α) : Value :=
  .record
    [("nrows", .ofNat parts.nrows), ("ncols", .ofNat parts.ncols),
      ("entries", .list (parts.entries.map fun (i, j, x) =>
        .list [.ofNat i, .ofNat j, DocumentElement.toValue x]))]

def Coordinate.toValue (m : Coordinate α) : Value := m.toParts.toValue

def Matrix.toValue : Matrix α → Value
  | .dense m => m.toValue
  | .row m => m.toValue
  | .col m => m.toValue
  | .coordinate m => m.toValue

def IndexedEntry.ofValue : Decoder (IndexedEntry α) := fun v =>
  (Json.record₃ "row" "col" "value" Json.index Json.index Json.element v).map
    fun (row, col, value) => {row, col, value}

def IndexedEntry.toValue (e : IndexedEntry α) : Value :=
  .record
    [("row", .ofNat e.row), ("col", .ofNat e.col), ("value", DocumentElement.toValue e.value)]

end

/-- The name of an element type in documents. -/
def DataType.documentName : DataType → String
  | .f32 => "F32"
  | .f64 => "F64"
  | .i32 => "I32"
  | .i64 => "I64"
  | .u32 => "U32"
  | .u64 => "U64"

def DataType.ofValue : Decoder DataType :=
  Json.oneOf ([.f32, .f64, .i32, .i64, .u32, .u64].map fun t => (documentName t, t))

def DataType.toValue (t : DataType) : Value := .ofString t.documentName

/-- The name of a category in documents. -/
def Category.documentName : Category → String
  | .rowCol => "RowCol"
  | .row => "Row"
  | .col => "Col"
  | .generic => "Generic"

def Category.ofValue : Decoder Category :=
  Json.oneOf ([.rowCol, .row, .col, .generic].map fun c => (documentName c, c))

def Category.toValue (c : Category) : Value := .ofString c.documentName

end TransposedViews
