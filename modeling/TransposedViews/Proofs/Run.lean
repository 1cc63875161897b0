import TransposedViews.Proofs.Frame

namespace TransposedViews

namespace LineScript

section Sparse

variable {α : Type} {len : Nat} {v : SparseVector α} {fault : Fault}

/-- A sparse line refuses nothing but insertions at or past its length. -/
theorem insertion_of_answerSparse (hv : v.WellFormed) {request : LineRequest α}
    (h : (answerSparse len request v).1 = .error fault) :
    ∃ k x, request = .insert k x ∧ len ≤ k ∧ fault = .lineInsert k len := by
  cases request with
  | insert k x =>
      simp only [answerSparse] at h
      split at h
      · simp only [SparseVector.insert_answer k x hv] at h
        cases h
      · next houtside =>
          cases h
          exact ⟨k, x, rfl, by omega, rfl⟩
  | get k =>
      simp only [answerSparse, SparseVector.get?_eq k hv] at h
      cases h
  | remove k =>
      simp only [answerSparse, SparseVector.remove_answer k hv] at h
      cases h
  | overwrite k x =>
      simp only [answerSparse, SparseVector.overwrite_answer k x hv] at h
      cases h
  | _ => cases h

theorem insertion_of_runSparse (hv : v.FitsIn len) {script : LineScript α}
    (h : (runSparse len script v).1 = .error fault) :
    ∃ k x, LineRequest.insert k x ∈ script ∧ len ≤ k ∧ fault = .lineInsert k len := by
  induction script generalizing v with
  | nil => cases h
  | cons request script ih =>
      have hanswered := SparseVector.answerSparse_fits hv request
      simp only [runSparse] at h
      split at h
      · next heq =>
          cases h
          obtain ⟨k, x, rfl, hk, hfault⟩ :=
            insertion_of_answerSparse hv.toWellFormed (congrArg Prod.fst heq)
          exact ⟨k, x, List.mem_cons_self, hk, hfault⟩
      · next heq =>
          rw [heq] at hanswered
          split at h
          · cases h
          · obtain ⟨k, x, hmem, hk, hfault⟩ := ih hanswered (map_eq_error_iff.mp h)
            exact ⟨k, x, List.mem_cons_of_mem request hmem, hk, hfault⟩

end Sparse

variable {α : Type u}

/-- A run over lines is refused where one of its scripts is refused on one of
the lines, which finds the store as the scripts before it left it. -/
theorem script_of_runLines {ι : Type v} {S : Type w} (P : S → Prop)
    (edit : ι → LineScript α → S → Except Fault (List (LineReply α)) × S)
    (hedit : ∀ line script store, P store → P (edit line script store).2)
    {scripts : List (LineScript α)} {lines : List ι} {store : S} {fault : Fault} (hstore : P store)
    (h : (runLines edit scripts (⟨lines⟩ : Items ι) store).1 = .error fault) :
    ∃ line ∈ lines, ∃ script ∈ scripts, ∃ before, P before ∧
      (edit line script before).1 = .error fault := by
  induction scripts generalizing lines store with
  | nil => cases h
  | cons script scripts ih =>
      cases lines with
      | nil => cases h
      | cons line lines =>
          simp only [runLines, Cursor.next] at h
          have hline := hedit line script store hstore
          split at h
          · next heq =>
              cases h
              exact ⟨line, List.mem_cons_self, script, List.mem_cons_self, store, hstore,
                by rw [heq]⟩
          · next heq =>
              rw [heq] at hline
              obtain ⟨later, hlater, next, hnext, before, hbefore, hfault⟩ :=
                ih hline (map_eq_error_iff.mp h)
              exact ⟨later, List.mem_cons_of_mem line hlater, next,
                List.mem_cons_of_mem script hnext, before, hbefore, hfault⟩

end LineScript

namespace SparseLines

variable {α : Type} {s : SparseLines α}

/-- Handing out the lines for editing is refused for an insertion at or past
the minor dimension and for nothing else. -/
theorem insertion_of_runLines (h : s.WellFormed) {scripts : List (LineScript α)} {fault : Fault}
    (hrefused : (s.runLines scripts).1 = .error fault) :
    ∃ script ∈ scripts, ∃ k x, LineRequest.insert k x ∈ script ∧ s.minorDim ≤ k ∧
      fault = .lineInsert k s.minorDim := by
  obtain ⟨major, hmajor, script, hscript, lines, hlines, hfault⟩ :=
    LineScript.script_of_runLines s.SameShape _ (editLine_sameShape s) ⟨rfl, h⟩ hrefused
  have hlt : major < lines.size := by
    rw [hlines.1]
    exact List.mem_range.mp hmajor
  rw [editElement_answer lines _ hlt] at hfault
  have hfits := hlines.2 _ (Array.getElem_mem hlt)
  exact ⟨script, hscript, LineScript.insertion_of_runSparse hfits hfault⟩

/-- What becomes of lines that are written to, line by line: as many lines of
the same length, each one a list of strictly ascending indices inside the
length in step with its values, and still no edit of a line refused but an
insertion at or past that length. -/
structure Keeps (s s' : SparseLines α) : Prop where
  majorDim_eq : s'.lines.size = s.lines.size
  minorDim_eq : s'.minorDim = s.minorDim
  in_step : ∀ line ∈ s'.lines, line.indices.length = line.values.length
  ascending : ∀ line ∈ s'.lines, line.indices.Pairwise (· < ·)
  inside : ∀ line ∈ s'.lines, ∀ k ∈ line.indices, k < s'.minorDim
  refused : ∀ scripts fault, (s'.runLines scripts).1 = .error fault →
    ∃ script ∈ scripts, ∃ k x, LineRequest.insert k x ∈ script ∧ s.minorDim ≤ k ∧
      fault = .lineInsert k s.minorDim

theorem keeps_of_wellFormed {s' : SparseLines α} (h : s'.WellFormed)
    (hmajor : s'.majorDim = s.majorDim) (hminor : s'.minorDim = s.minorDim) : s.Keeps s' := by
  refine ⟨hmajor, hminor, ?_, ?_, ?_, ?_⟩
  · intro line hline
    exact (h line hline).length_eq
  · intro line hline
    exact (h line hline).ascending
  · intro line hline
    exact (h line hline).bounded
  · intro scripts fault hrefused
    rw [← hminor]
    exact insertion_of_runLines h hrefused

end SparseLines

namespace Matrix

variable {α : Type} {m : Matrix α}

/-- The matrix after a run of requests, each one written through a chain of
views of its own. A refused request is one of the run like any other. -/
def writtenAll (m : Matrix α) (run : List (List Access × Writing α)) : Matrix α :=
  run.foldl (fun m (accesses, request) => ((View.chain m accesses).write request).2.base) m

theorem writtenAll_follows (h : m.WellFormed) (run : List (List Access × Writing α)) :
    m.Follows (m.writtenAll run) := by
  induction run generalizing m with
  | nil => exact .refl h
  | cons step rest ih =>
      obtain ⟨accesses, request⟩ := step
      have hbase : (View.chain m accesses).base.WellFormed := by rwa [View.base_chain]
      have hstep := View.write_follows _ request hbase
      rw [View.base_chain] at hstep
      exact hstep.trans (ih hstep.wellFormed)

theorem exists_row_of_kind (h : m.kind = .row) : ∃ r, m = .row r := by
  cases m with
  | row r => exact ⟨r, rfl⟩
  | _ => cases h

theorem exists_col_of_kind (h : m.kind = .col) : ∃ c, m = .col c := by
  cases m with
  | col c => exact ⟨c, rfl⟩
  | _ => cases h

/-- A run of writes on a sparse matrix, through whichever views and whether or
not it is refused on the way, keeps the number and the length of the lines
and with them the dimensions. Every line stays strictly ascending and inside
the matrix, so what is stored in a line is what the entries show. -/
theorem lines_kept_by_run (run : List (List Access × Writing α)) :
    (∀ m : RowMatrix α, (row m).Built → ∃ m' : RowMatrix α,
      (row m).writtenAll run = row m' ∧ m.storage.Keeps m'.storage ∧
      m'.nrows = m.nrows ∧ m'.ncols = m.ncols ∧
      ∀ i j x, m'.entry i j = .ok (some x) ↔
        ∃ line, m'.storage.lines[i]? = some line ∧ (j, x) ∈ line.toList) ∧
    (∀ m : ColMatrix α, (col m).Built → ∃ m' : ColMatrix α,
      (col m).writtenAll run = col m' ∧ m.storage.Keeps m'.storage ∧
      m'.nrows = m.nrows ∧ m'.ncols = m.ncols ∧
      ∀ i j x, m'.entry i j = .ok (some x) ↔
        ∃ line, m'.storage.lines[j]? = some line ∧ (i, x) ∈ line.toList) := by
  constructor
  · intro m hbuilt
    have hfollows := writtenAll_follows hbuilt.wellFormed run
    obtain ⟨m', hm'⟩ := exists_row_of_kind hfollows.kind_eq
    rw [hm'] at hfollows
    have hwf : m'.storage.WellFormed := hfollows.wellFormed
    refine ⟨m', hm', ?_, hfollows.nrows_eq, hfollows.ncols_eq, ?_⟩
    · exact SparseLines.keeps_of_wellFormed hwf hfollows.nrows_eq hfollows.ncols_eq
    · intro i j x
      have hentry := entry_eq_some_iff (m := row m') hwf i j x
      exact hentry.trans (SparseLines.lookup_eq_some_iff i j hwf x)
  · intro m hbuilt
    have hfollows := writtenAll_follows hbuilt.wellFormed run
    obtain ⟨m', hm'⟩ := exists_col_of_kind hfollows.kind_eq
    rw [hm'] at hfollows
    have hwf : m'.storage.WellFormed := hfollows.wellFormed
    refine ⟨m', hm', ?_, hfollows.nrows_eq, hfollows.ncols_eq, ?_⟩
    · exact SparseLines.keeps_of_wellFormed hwf hfollows.ncols_eq hfollows.nrows_eq
    · intro i j x
      have hentry := entry_eq_some_iff (m := col m') hwf i j x
      exact hentry.trans (SparseLines.lookup_eq_some_iff j i hwf x)

/-- The first row takes an insertion past its length after a good one: the run
is refused there, and the matrix has the first entry and keeps its shape. -/
theorem lines_kept_by_refused_run :
    ∃ m' : RowMatrix Nat,
      (row (.empty 2 3)).writtenAll [([.exclusive], .cols [[.insert 0 4, .insert 3 9]])] =
        row m' ∧
      m'.storage.lines.size = 2 ∧ m'.ncols = 3 ∧ m'.entry 0 0 = .ok (some 4) := by
  have hrun := lines_kept_by_run (α := Nat)
    [([.exclusive], .cols [[.insert 0 4, .insert 3 9]])]
  obtain ⟨m', hm', hkeeps, -, hcols, hentry⟩ := hrun.1 (.empty 2 3) (.emptyRows 2 3)
  refine ⟨m', hm', hkeeps.majorDim_eq, hcols, ?_⟩
  cases hm'
  rfl

end Matrix

end TransposedViews
