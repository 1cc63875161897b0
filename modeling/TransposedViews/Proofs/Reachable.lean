import TransposedViews.Proofs.Construction
import TransposedViews.View.Operation

namespace TransposedViews

namespace View

variable {α : Type} {v : View α}

theorem base_foldl (v : View α) (accesses : List Access) :
    (accesses.foldl (fun v access => .transposed access v) v).base = v.base := by
  induction accesses generalizing v with
  | nil => rfl
  | cons access rest ih => exact ih (.transposed access v)

@[simp] theorem base_chain (m : Matrix α) (accesses : List Access) : (chain m accesses).base = m :=
  base_foldl (.whole m) accesses

section Modification

/-- A modification through a view is one of its base, at some position. -/
theorem set_base (v : View α) (i j : Nat) (x : α) :
    ∃ a b, v.base.set a b x = (v.set i j x).map id View.base := by
  induction v generalizing i j with
  | whole m => exact ⟨i, j, rfl⟩
  | transposed access v ih => exact ih j i

theorem erase_base (v : View α) (i j : Nat) :
    ∃ a b, v.base.erase a b = (v.erase i j).map id View.base := by
  induction v generalizing i j with
  | whole m => exact ⟨i, j, rfl⟩
  | transposed access v ih => exact ih j i

theorem runRaw_base (v : View α) (script : List (Request α)) :
    (v.runRaw script).2.base = (v.base.runRaw script).2 := by
  induction v with
  | whole m => rfl
  | transposed access v ih => exact ih

theorem runIndexed_base (v : View α) (script : List (Request α)) :
    (v.runIndexed script).2.base = (v.base.runIndexed script).2 := by
  induction v with
  | whole m => rfl
  | transposed access v ih => exact ih

/-- A run over lines of a view is a run over rows or over columns of its base,
whichever the number of transpositions makes of it. -/
theorem runLines_base (v : View α) (scripts : List (LineScript α))
    (replies : Matrix.LineReplies α) :
    (∀ w, v.runRows? scripts = some (replies, w) →
      v.base.runRows? scripts = some (replies, w.base) ∨
        v.base.runCols? scripts = some (replies, w.base)) ∧
    (∀ w, v.runCols? scripts = some (replies, w) →
      v.base.runRows? scripts = some (replies, w.base) ∨
        v.base.runCols? scripts = some (replies, w.base)) := by
  induction v with
  | whole m =>
      constructor
      · intro w h
        obtain ⟨⟨result, m'⟩, hrun, heq⟩ := Option.map_eq_some_iff.mp h
        cases heq
        exact Or.inl hrun
      · intro w h
        obtain ⟨⟨result, m'⟩, hrun, heq⟩ := Option.map_eq_some_iff.mp h
        cases heq
        exact Or.inr hrun
  | transposed access v ih =>
      constructor
      · intro w h
        obtain ⟨⟨result, v'⟩, hrun, heq⟩ := Option.map_eq_some_iff.mp h
        cases heq
        exact ih.2 v' hrun
      · intro w h
        obtain ⟨⟨result, v'⟩, hrun, heq⟩ := Option.map_eq_some_iff.mp h
        cases heq
        exact ih.1 v' hrun

theorem linesRun_follows (h : v.base.WellFormed)
    {outcome : Option (Matrix.LineReplies α × View α)}
    (houtcome : ∀ replies w, outcome = some (replies, w) → v.base.Follows w.base) :
    v.base.Follows (v.linesRun outcome).2.base := by
  cases outcome with
  | none => exact .refl h
  | some run => exact houtcome run.1 run.2 rfl

theorem runLines_follows (h : v.base.WellFormed) {scripts : List (LineScript α)}
    {replies : Matrix.LineReplies α} {m' : Matrix α}
    (hrun : v.base.runRows? scripts = some (replies, m') ∨
      v.base.runCols? scripts = some (replies, m')) : v.base.Follows m' := by
  rcases hrun with hrows | hcols
  · exact Matrix.runRows?_follows h hrows
  · exact Matrix.runCols?_follows h hcols

/-- Whatever is written through a view, and whether or not it is refused, the
matrix at its base stays a well-formed matrix of the same kind and shape. -/
theorem write_follows (v : View α) (request : Writing α) (h : v.base.WellFormed) :
    v.base.Follows (v.write request).2.base := by
  unfold write
  split
  · cases request with
    | set i j x =>
        obtain ⟨a, b, hbase⟩ := set_base v i j x
        have hfollows := Matrix.set_follows (i := a) (j := b) h x
        rwa [hbase] at hfollows
    | erase i j =>
        obtain ⟨a, b, hbase⟩ := erase_base v i j
        have hfollows := Matrix.erase_follows (i := a) (j := b) h
        rwa [hbase] at hfollows
    | raw script =>
        have hfollows := Matrix.runRaw_follows h script
        rwa [← runRaw_base] at hfollows
    | rawIndexed script =>
        have hfollows := Matrix.runIndexed_follows h script
        rwa [← runIndexed_base] at hfollows
    | rows scripts =>
        apply linesRun_follows h
        intro replies w hrun
        exact runLines_follows h ((runLines_base v scripts replies).1 w hrun)
    | cols scripts =>
        apply linesRun_follows h
        intro replies w hrun
        exact runLines_follows h ((runLines_base v scripts replies).2 w hrun)
  · exact .refl h

end Modification

end View

namespace Matrix

variable {α : Type}

/-- The matrices that constructors and any finite run of requests, each
through a chain of views of its own, lead to. -/
inductive Reachable : Matrix α → Prop where
  | built {m : Matrix α} (h : m.Built) : Reachable m
  | written {m : Matrix α} (h : Reachable m) (accesses : List Access) (request : Writing α) :
      Reachable ((View.chain m accesses).write request).2.base

theorem Reachable.wellFormed {m : Matrix α} (h : m.Reachable) : m.WellFormed := by
  induction h with
  | built h => exact h.wellFormed
  | @written m h accesses request ih =>
      have hbase : (View.chain m accesses).base.WellFormed := by rwa [View.base_chain]
      exact (View.write_follows _ request hbase).wellFormed

end Matrix

namespace Coordinate

variable {α : Type}

/-- In every reachable matrix in coordinate form the index of slots is the
inverse of the storage. No slot leads past the stored values, so insertions and
removals always succeed, and positions outside the matrix are the only ones
that an access refuses. -/
theorem slots_inverse_of_reachable {m : Coordinate α} (h : (Matrix.coordinate m).Reachable) :
    m.rowIndices.size = m.values.size ∧ m.colIndices.size = m.values.size ∧
      (∀ i ∈ m.rowIndices, i < m.nrows) ∧ (∀ j ∈ m.colIndices, j < m.ncols) ∧
      (∀ s t, s < m.values.size → t < m.values.size → m.rowIndices[s]? = m.rowIndices[t]? →
        m.colIndices[s]? = m.colIndices[t]? → s = t) ∧
      (∀ i j s, m.slots[(i, j)]? = some s ↔
        s < m.values.size ∧ m.rowIndices[s]? = some i ∧ m.colIndices[s]? = some j) ∧
      (∀ i j, m.slot? i j = .ok m.slots[(i, j)]?) ∧
      (∀ i j x, (m.insert i j x).1 = .ok ()) ∧ (∀ i j, (m.remove i j).1 = .ok ()) ∧
      (∀ i j fault, m.entry i j = .error fault → fault = .position i j m.nrows m.ncols) ∧
      (∀ i j x fault, (m.set i j x).1 = .error fault → fault = .position i j m.nrows m.ncols) ∧
      (∀ i j fault, (m.erase i j).1 = .error fault → fault = .position i j m.nrows m.ncols) := by
  have hwf : m.WellFormed := h.wellFormed
  refine ⟨hwf.rows_size, hwf.cols_size, ?_, ?_, ?_, ?_, ?_, ?_, ?_, ?_, ?_, ?_⟩
  · exact hwf.row_inside
  · exact hwf.col_inside
  · intro s t _ ht hrows hcols
    obtain ⟨i, j, hheld⟩ := hwf.holds_of_lt ht
    exact hwf.slot_unique ⟨hrows.trans hheld.1, hcols.trans hheld.2⟩ hheld
  · intro i j s
    constructor
    · intro hslot
      exact ⟨hwf.slot_lt hslot, (hwf.slots_iff i j s).mp hslot⟩
    · rintro ⟨-, hheld⟩
      exact (hwf.slots_iff i j s).mpr hheld
  · intro i j
    exact slot?_eq hwf
  · intro i j x
    rw [insert_eq hwf x]
  · intro i j
    rw [remove_eq hwf]
  · intro i j fault
    exact entry_refused hwf
  · intro i j x fault
    exact set_refused hwf
  · intro i j fault
    exact erase_refused hwf

/-- Two stored entries, and the first one erased through a transposed view. -/
def erasedThroughView : Coordinate Nat :=
  (((empty 2 3).store 0 1 5).store 1 2 7).discard 0 1

theorem erasedThroughView_reachable : (Matrix.coordinate erasedThroughView).Reachable := by
  have hbuilt : ofTriplets 2 3 [(0, 1, 5), (1, 2, 7)] =
      .ok (((empty 2 3).store 0 1 5).store 1 2 7) :=
    Matrix.coordinate_accepts_inside (by decide)
  have hwf := Matrix.triplets_wellFormed hbuilt
  have hdims : 0 < (((empty 2 3).store 0 1 5).store 1 2 7).nrows ∧
      1 < (((empty 2 3).store 0 1 5).store 1 2 7).ncols := by
    simp [empty]
  have herase := erase_eq hwf hdims.1 hdims.2
  have hreached := (Matrix.Reachable.built (.triplets hbuilt)).written [.exclusive] (.erase 1 0)
  simpa [View.chain, View.write, View.writable, View.erase, Matrix.erase, herase, View.modified,
    View.base, erasedThroughView] using hreached

theorem slots_inverse_of_erased :
    (Matrix.coordinate erasedThroughView).Reachable ∧
      ∀ i j s, erasedThroughView.slots[(i, j)]? = some s ↔
        s < erasedThroughView.values.size ∧ erasedThroughView.rowIndices[s]? = some i ∧
          erasedThroughView.colIndices[s]? = some j := by
  have hsound := slots_inverse_of_reachable erasedThroughView_reachable
  exact ⟨erasedThroughView_reachable, hsound.2.2.2.2.2.1⟩

end Coordinate

end TransposedViews
