import TransposedViews.View.Operation

/-!
Operations performed on a matrix itself. They are written out here from what
each way of storing a matrix offers, without a view, so that what goes through
a view can be compared with what the matrix does on its own.
-/

namespace TransposedViews

/-- An operation on a matrix or on a view. -/
inductive Operation (α : Type) where
  | read (request : Reading α)
  | write (request : Writing α)
  deriving DecidableEq, Repr

/-- What an operation is answered with. -/
abbrev Operation.Answer (α : Type) := Except Refusal (ReadAnswer α ⊕ WriteAnswer α)

namespace Matrix

variable {α : Type}

/-- Reads the matrix. There is no transposition here, so there is nothing that
it wraps and no listing of the entries seen through it. -/
def read (m : Matrix α) (request : Reading α) : Except Refusal (ReadAnswer α) :=
  match request with
  | .dimensions => .ok (.dimensions m.nrows m.ncols)
  | .category => .ok (.category m.category)
  | .entry i j =>
      match m.entry i j with
      | .ok x => .ok (.entry x)
      | .error fault => .error (.fault fault)
  | .fetch i j x =>
      match m.fetch x i j with
      | (.ok found, y) => .ok (.fetched found y)
      | (.error fault, _) => .error (.fault fault)
  | .grid =>
      let rows := (List.range m.nrows).mapM fun i => (List.range m.ncols).mapM fun j => m.entry i j
      match rows with
      | .ok rows => .ok (.grid rows)
      | .error fault => .error (.fault fault)
  | .raw limit =>
      let (items, left) := Cursor.collect limit m.raw
      .ok (.values items left)
  | .rawIndexed limit =>
      let (items, left) := Cursor.collect limit m.rawIndexed
      .ok (.entries items left)
  | .rows limit =>
      match m.rows? with
      | some cursor =>
          let (lines, left) := Cursor.collect limit cursor
          .ok (.lines (lines.map Cursor.toList) left)
      | none => .error .unsupported
  | .cols limit =>
      match m.cols? with
      | some cursor =>
          let (lines, left) := Cursor.collect limit cursor
          .ok (.lines (lines.map Cursor.toList) left)
      | none => .error .unsupported
  | .row k limit =>
      match m.rows? with
      | some cursor => .ok (.line ((Cursor.nth k cursor).1.map (Cursor.collect limit)))
      | none => .error .unsupported
  | .col k limit =>
      match m.cols? with
      | some cursor => .ok (.line ((Cursor.nth k cursor).1.map (Cursor.collect limit)))
      | none => .error .unsupported
  | .entries _ | .inner => .error .unsupported

/-- Writes to the matrix. -/
def write (m : Matrix α) (request : Writing α) : Except Refusal (WriteAnswer α) × Matrix α :=
  match request with
  | .set i j x =>
      match m.set i j x with
      | (.ok _, m) => (.ok .done, m)
      | (.error fault, m) => (.error (.fault fault), m)
  | .erase i j =>
      match m.erase i j with
      | (.ok _, m) => (.ok .done, m)
      | (.error fault, m) => (.error (.fault fault), m)
  | .raw script => (.ok (.values (m.runRaw script).1), (m.runRaw script).2)
  | .rawIndexed script => (.ok (.entries (m.runIndexed script).1), (m.runIndexed script).2)
  | .rows scripts =>
      match m.runRows? scripts with
      | some (.ok (replies, left), m) => (.ok (.lines replies left), m)
      | some (.error fault, m) => (.error (.fault fault), m)
      | none => (.error .unsupported, m)
  | .cols scripts =>
      match m.runCols? scripts with
      | some (.ok (replies, left), m) => (.ok (.lines replies left), m)
      | some (.error fault, m) => (.error (.fault fault), m)
      | none => (.error .unsupported, m)

/-- The answer to an operation and the matrix after it. -/
def perform (m : Matrix α) : Operation α → Operation.Answer α × Matrix α
  | .read request => ((m.read request).map .inl, m)
  | .write request => (m.write request).map (Except.map .inr) id

/-- The answers to operations one after the other and the matrix after them. -/
def performAll (m : Matrix α) : List (Operation α) → List (Operation.Answer α) × Matrix α
  | [] => ([], m)
  | op :: ops =>
      let (answers, after) := (m.perform op).2.performAll ops
      ((m.perform op).1 :: answers, after)

end Matrix

namespace View

variable {α : Type} (m : Matrix α)

/-- A view without a transposition reads like the matrix. -/
theorem read_whole (request : Reading α) : (whole m).read request = m.read request := by
  cases request with
  | entry i j =>
      simp only [read, Matrix.read, entry]
      cases m.entry i j <;> rfl
  | fetch i j x =>
      simp only [read, Matrix.read, fetch]
      rcases m.fetch x i j with ⟨_ | _, y⟩ <;> rfl
  | grid =>
      simp only [read, Matrix.read, grid, nrows, ncols, entry]
      split
      · next heq =>
          rw [heq]
          rfl
      · next heq =>
          rw [heq]
          rfl
  | rows limit | row k limit =>
      simp only [read, Matrix.read, rows?]
      cases m.rows? <;> rfl
  | cols limit | col k limit =>
      simp only [read, Matrix.read, cols?]
      cases m.cols? <;> rfl
  | _ => rfl

/-- It writes like the matrix too. -/
theorem write_whole (request : Writing α) :
    (whole m).write request = (m.write request).map id whole := by
  cases request with
  | set i j x =>
      change modified ((m.set i j x).map id whole) = _
      simp only [Matrix.write]
      rcases m.set i j x with ⟨_ | _, m'⟩ <;> rfl
  | erase i j =>
      change modified ((m.erase i j).map id whole) = _
      simp only [Matrix.write]
      rcases m.erase i j with ⟨_ | _, m'⟩ <;> rfl
  | raw script => rfl
  | rawIndexed script => rfl
  | rows scripts =>
      change (whole m).linesRun ((m.runRows? scripts).map (Prod.map id whole)) = _
      simp only [Matrix.write]
      rcases m.runRows? scripts with _ | ⟨_ | _, m'⟩ <;> rfl
  | cols scripts =>
      change (whole m).linesRun ((m.runCols? scripts).map (Prod.map id whole)) = _
      simp only [Matrix.write]
      rcases m.runCols? scripts with _ | ⟨_ | _, m'⟩ <;> rfl

end View

end TransposedViews
