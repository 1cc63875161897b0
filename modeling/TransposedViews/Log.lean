import TransposedViews.Category
import TransposedViews.Element.DataType
import TransposedViews.Matrix
import TransposedViews.View

namespace TransposedViews

/-- Building a matrix says what was built or why the data were rejected;
binding a view says what was bound. -/
inductive LogRecord where
  | bound (access : Access) (nrows ncols : Nat) (category : Category)
  | built (kind : Kind) (nrows ncols : Nat) (dataType : DataType) (nnz : Option Nat)
  | rejected (kind : Kind) (nrows ncols : Nat) (dataType : DataType) (error : MatrixError)
  deriving DecidableEq, Repr

/-- The name of a way of storing in log records. -/
def Kind.displayName : Kind → String
  | .dense => "dense"
  | .row => "sparse row"
  | .col => "sparse col"
  | .coordinate => "coo"

def Access.displayName : Access → String
  | .shared => "read-only"
  | .exclusive => "read-write"

namespace LogRecord

def level : LogRecord → String
  | .bound .. => "TRACE"
  | .built .. | .rejected .. => "DEBUG"

def text : LogRecord → String
  | .bound access nrows ncols category =>
      s!"binding {access.displayName} transpose of {nrows}x{ncols} {category.displayName} matrix"
  | .built kind nrows ncols dataType none =>
      s!"built {kind.displayName} {nrows}x{ncols} {dataType.displayName} matrix"
  | .built kind nrows ncols dataType (some nnz) =>
      s!"built {kind.displayName} {nrows}x{ncols} {dataType.displayName} matrix with {nnz} entries"
  | .rejected kind nrows ncols dataType error =>
      s!"rejecting {kind.displayName} {nrows}x{ncols} {dataType.displayName} matrix: {error.message}"

end LogRecord

/-- One record for each transposition of a view, innermost first. -/
def View.bindings : View α → List LogRecord
  | .whole _ => []
  | .transposed access v => v.bindings ++ [.bound access v.nrows v.ncols v.category]

end TransposedViews
