import TransposedViews.Proofs.SparseVector
import TransposedViews.SparseLines

namespace TransposedViews

namespace Entries

variable {β : Type u}

/-- The entries of numbered lines, one line after the other. -/
def numbered (begun : Nat) (lines : List (List (Nat × β))) : List (Nat × Nat × β) :=
  (lines.zipIdx begun).flatMap fun (line, major) => line.map fun (minor, x) => (major, minor, x)

/-- The items a flattening has still to deliver. -/
def pending (s : Entries β) : List (Nat × Nat × β) :=
  (match s.current with
    | some (major, line) => line.map fun (minor, x) => (major, minor, x)
    | none => []) ++ numbered s.begun s.rest

theorem numbered_cons (begun : Nat) (line : List (Nat × β)) (rest : List (List (Nat × β))) :
    numbered begun (line :: rest) =
      (line.map fun (minor, x) => (begun, minor, x)) ++ numbered (begun + 1) rest := by
  simp [numbered, List.zipIdx_cons]

theorem advance_pending (rest : List (List (Nat × β))) (begun : Nat)
    (current : Option (Nat × List (Nat × β))) :
    (advance begun rest current).1 = (pending ⟨begun, rest, current⟩).head? ∧
      (advance begun rest current).2.pending = (pending ⟨begun, rest, current⟩).tail := by
  induction rest generalizing begun current with
  | nil =>
      rcases current with _ | ⟨_, _ | ⟨_, _⟩⟩
      · simp [advance, pending, numbered]
      · simp [advance, pending, numbered]
      · simp [advance, pending, numbered]
  | cons line rest ih =>
      rcases current with _ | ⟨_, _ | ⟨_, _⟩⟩
      · simpa [advance, pending, numbered_cons] using ih (begun + 1) (some (begun, line))
      · simpa [advance, pending, numbered_cons] using ih (begun + 1) (some (begun, line))
      · simp [advance, pending]

theorem toList_eq_pending (s : Entries β) : Cursor.toList s = s.pending :=
  Cursor.toList_eq_of_listing pending (fun s => (advance_pending s.rest s.begun s.current).1)
    (fun s => (advance_pending s.rest s.begun s.current).2) s

/-- Flattening delivers the lines one after the other, each item with the
number of its line. -/
theorem toList_ofLines (lines : List (List (Nat × β))) :
    Cursor.toList (ofLines lines) = numbered 0 lines := by
  simpa [pending, ofLines] using toList_eq_pending (ofLines lines)

theorem mem_numbered (begun : Nat) (lines : List (List (Nat × β))) (major minor : Nat) (x : β) :
    (major, minor, x) ∈ numbered begun lines ↔
      ∃ line, begun ≤ major ∧ lines[major - begun]? = some line ∧ (minor, x) ∈ line := by
  constructor
  · intro hmem
    obtain ⟨⟨line, number⟩, hline, hitem⟩ := List.mem_flatMap.mp hmem
    obtain ⟨⟨k, y⟩, hk, heq⟩ := List.mem_map.mp hitem
    cases heq
    obtain ⟨hle, hget⟩ := List.mk_mem_zipIdx_iff_le_and_getElem?_sub.mp hline
    exact ⟨line, hle, hget, hk⟩
  · rintro ⟨line, hle, hget, hmem⟩
    refine List.mem_flatMap.mpr ⟨(line, major), ?_, List.mem_map.mpr ⟨(minor, x), hmem, rfl⟩⟩
    exact List.mk_mem_zipIdx_iff_le_and_getElem?_sub.mpr ⟨hle, hget⟩

/-- Positions ascend: by line first, and inside a line as the line has them. -/
theorem numbered_ascending (begun : Nat) (lines : List (List (Nat × β)))
    (h : ∀ line ∈ lines, line.Pairwise (fun a b => a.1 < b.1)) :
    (numbered begun lines).Pairwise
      (fun a b => a.1 < b.1 ∨ (a.1 = b.1 ∧ a.2.1 < b.2.1)) := by
  induction lines generalizing begun with
  | nil => exact List.Pairwise.nil
  | cons line rest ih =>
      rw [numbered_cons]
      refine List.pairwise_append.mpr ⟨?_, ih (begun + 1) fun l hl => h l (by simp [hl]), ?_⟩
      · refine List.pairwise_map.mpr ((h line (by simp)).imp ?_)
        intro a b hab
        exact Or.inr ⟨rfl, hab⟩
      · intro a ha b hb
        obtain ⟨⟨k, x⟩, -, rfl⟩ := List.mem_map.mp ha
        obtain ⟨major, minor, y⟩ := b
        obtain ⟨-, hle, -⟩ := (mem_numbered (begun + 1) rest major minor y).mp hb
        exact Or.inl hle

theorem length_numbered (begun : Nat) (lines : List (List (Nat × β))) :
    (numbered begun lines).length = lines.flatten.length := by
  induction lines generalizing begun with
  | nil => rfl
  | cons line rest ih =>
      rw [numbered_cons, List.length_append, List.length_map, ih, List.flatten_cons,
        List.length_append]

end Entries

/-- Working on one element in place changes that element at most. -/
theorem editElement_elements (xs : Array α) (index : Nat) (edit : α → Except Fault β × α) :
    (editElement xs index edit).2 = xs.modify index fun x => (edit x).2 := by
  unfold editElement
  cases hget : xs[index]? with
  | none =>
      have hsize : ¬ index < xs.size := by simpa using hget
      simp [Array.modify, Array.modifyM, hsize]
  | some x =>
      obtain ⟨hsize, rfl⟩ := Array.getElem?_eq_some_iff.mp hget
      simp [Array.modify, Array.modifyM, hsize, Array.setIfInBounds]

theorem editElement_answer (xs : Array α) {index : Nat} (edit : α → Except Fault β × α)
    (h : index < xs.size) : (editElement xs index edit).1 = (edit xs[index]).1 := by
  simp only [editElement, Array.getElem?_eq_getElem h]

namespace SparseLines

variable {α : Type}

/-- Every line is well-formed and stores nothing at or past the minor
dimension. -/
def WellFormed (s : SparseLines α) : Prop := ∀ line ∈ s.lines, line.FitsIn s.minorDim

/-- The value stored at a position, if there is one. -/
def lookup (s : SparseLines α) (major minor : Nat) : Option α :=
  (s.lines[major]?).bind (·.lookup minor)

/-- The lines with a value stored at a position. -/
def store (s : SparseLines α) (major minor : Nat) (x : α) : SparseLines α :=
  {s with lines := s.lines.modify major fun v => (v.insert minor x).2}

/-- The lines with nothing stored at a position. -/
def discard (s : SparseLines α) (major minor : Nat) : SparseLines α :=
  {s with lines := s.lines.modify major fun v => (v.remove minor).2}

section Dimensions

variable (s : SparseLines α) (major minor : Nat) (x : α)

@[simp] theorem empty_majorDim (majorDim minorDim : Nat) :
    (empty majorDim minorDim : SparseLines α).majorDim = majorDim := by
  simp [empty, SparseLines.majorDim]

@[simp] theorem store_majorDim : (s.store major minor x).majorDim = s.majorDim := by
  simp [store, majorDim]

@[simp] theorem discard_majorDim : (s.discard major minor).majorDim = s.majorDim := by
  simp [discard, majorDim]

end Dimensions

section Access

variable {s : SparseLines α} {major : Nat} (minor : Nat) (x : α)

theorem line_eq (h : major < s.majorDim) : s.line major = .ok s.lines[major] :=
  readElement_of_lt h

theorem WellFormed.line_wellFormed (hs : s.WellFormed) (h : major < s.majorDim) :
    (s.lines[major]).WellFormed :=
  (hs _ (Array.getElem_mem h)).toWellFormed

theorem lookup_eq (h : major < s.majorDim) :
    s.lookup major minor = (s.lines[major]).lookup minor := by
  have hline : s.lines[major]? = some (s.lines[major]) := Array.getElem?_eq_getElem h
  rw [lookup, hline, Option.bind_some]

/-- Where there is a line, every access to it is made at an index it has. -/
theorem get?_eq (hs : s.WellFormed) (h : major < s.majorDim) :
    s.get? major minor = .ok (s.lookup major minor) := by
  rw [get?, line_eq h, lookup_eq minor h]
  exact SparseVector.get?_eq minor (hs.line_wellFormed h)

theorem insert_eq (hs : s.WellFormed) (h : major < s.majorDim) :
    s.insert major minor x = (.ok (s.lookup major minor), s.store major minor x) := by
  have hanswer := SparseVector.insert_answer minor x (hs.line_wellFormed h)
  rw [lookup_eq minor h, ← hanswer]
  refine Prod.ext (editElement_answer s.lines _ h) ?_
  rw [store, ← editElement_elements]
  rfl

theorem remove_eq (hs : s.WellFormed) (h : major < s.majorDim) :
    s.remove major minor = (.ok (s.lookup major minor), s.discard major minor) := by
  have hanswer := SparseVector.remove_answer minor (hs.line_wellFormed h)
  rw [lookup_eq minor h, ← hanswer]
  refine Prod.ext (editElement_answer s.lines _ h) ?_
  rw [discard, ← editElement_elements]
  rfl

end Access

private theorem forall_mem_modify (lines : Array (SparseVector α)) (major : Nat)
    (f : SparseVector α → SparseVector α) (P : SparseVector α → Prop)
    (h : ∀ line ∈ lines, P line) (hf : ∀ line, P line → P (f line)) :
    ∀ line ∈ lines.modify major f, P line := by
  intro line hline
  obtain ⟨k, hk, rfl⟩ := Array.mem_iff_getElem.mp hline
  have hsize : k < lines.size := by simpa using hk
  rw [Array.getElem_modify]
  split
  · exact hf _ (h _ (Array.getElem_mem hsize))
  · exact h _ (Array.getElem_mem hsize)

section Preservation

variable {s : SparseLines α} {major minor : Nat}

theorem empty_wellFormed (majorDim minorDim : Nat) :
    (empty majorDim minorDim : SparseLines α).WellFormed := by
  intro line hline
  obtain ⟨-, rfl⟩ := Array.mem_replicate.mp hline
  exact SparseVector.empty_fits minorDim

theorem store_wellFormed (h : s.WellFormed) (hminor : minor < s.minorDim) (x : α) :
    (s.store major minor x).WellFormed :=
  forall_mem_modify s.lines major _ (·.FitsIn s.minorDim) h fun _ hline =>
    SparseVector.insert_fits minor x hline hminor

theorem discard_wellFormed (h : s.WellFormed) : (s.discard major minor).WellFormed :=
  forall_mem_modify s.lines major _ (·.FitsIn s.minorDim) h fun _ hline =>
    SparseVector.remove_fits minor hline

/-- Lines that were replaced, in number and shape as they were before. -/
def SameShape (s : SparseLines α) (lines : Array (SparseVector α)) : Prop :=
  lines.size = s.majorDim ∧ ∀ line ∈ lines, line.FitsIn s.minorDim

theorem write_sameShape (s : SparseLines α) (lines : Array (SparseVector α))
    (cell : Nat × Nat) (x : α) (h : s.SameShape lines) :
    s.SameShape (Cells.write lines cell x) := by
  refine ⟨by simpa [Cells.write] using h.1, ?_⟩
  apply forall_mem_modify lines cell.1 _ (·.FitsIn s.minorDim) h.2
  intro line hline
  exact hline.with_values _ (List.length_set ..)

theorem runScript_sameShape (h : s.WellFormed) (label : Nat → Nat → ι)
    (script : List (Request α)) : s.SameShape (s.runScript label script).2.lines :=
  Script.run_store_invariant s.SameShape (write_sameShape s) script _ s.lines ⟨rfl, h⟩

/-- Editing one of the lines keeps their number and shape, since a line
refuses insertions past the minor dimension. -/
theorem editLine_sameShape (s : SparseLines α) (major : Nat) (script : LineScript α)
    (lines : Array (SparseVector α)) (h : s.SameShape lines) :
    s.SameShape (editElement lines major (LineScript.runSparse s.minorDim script)).2 := by
  rw [editElement_elements]
  refine ⟨by simpa using h.1, ?_⟩
  exact forall_mem_modify lines major _ (·.FitsIn s.minorDim) h.2 fun _ hline =>
    SparseVector.runSparse_fits hline script

theorem runLines_sameShape (h : s.WellFormed) (scripts : List (LineScript α)) :
    s.SameShape (s.runLines scripts).2.lines :=
  LineScript.runLines_store_invariant s.SameShape _ (editLine_sameShape s) scripts _ s.lines
    ⟨rfl, h⟩

end Preservation

section Lookup

variable {s : SparseLines α} {major minor : Nat} (i j : Nat)

theorem lookup_empty (majorDim minorDim : Nat) :
    (empty majorDim minorDim : SparseLines α).lookup i j = none := by
  unfold lookup
  cases hget : (empty majorDim minorDim : SparseLines α).lines[i]? with
  | none => rfl
  | some line =>
      have hmem := Array.mem_of_getElem? hget
      obtain ⟨-, rfl⟩ := Array.mem_replicate.mp hmem
      rfl

theorem lookup_store (h : s.WellFormed) (hmajor : major < s.majorDim) (x : α) :
    (s.store major minor x).lookup i j =
      if i = major ∧ j = minor then some x else s.lookup i j := by
  by_cases hi : i = major
  · subst hi
    have hline : s.lines[i]? = some s.lines[i] := Array.getElem?_eq_getElem hmajor
    have hfits : s.lines[i].FitsIn s.minorDim := h _ (Array.getElem_mem hmajor)
    simp [store, lookup, Array.getElem?_modify, hline,
      SparseVector.lookup_insert minor x hfits.toWellFormed]
  · have hne : major ≠ i := fun heq => hi heq.symm
    simp [store, lookup, Array.getElem?_modify, hi, hne]

theorem lookup_discard (h : s.WellFormed) :
    (s.discard major minor).lookup i j =
      if i = major ∧ j = minor then none else s.lookup i j := by
  by_cases hi : i = major
  · subst hi
    unfold lookup discard
    cases hget : s.lines[i]? with
    | none => simp [Array.getElem?_modify, hget]
    | some line =>
        have hfits : line.FitsIn s.minorDim := h _ (Array.mem_of_getElem? hget)
        simp [Array.getElem?_modify, hget, SparseVector.lookup_remove minor hfits.toWellFormed]
  · have hne : major ≠ i := fun heq => hi heq.symm
    simp [discard, lookup, Array.getElem?_modify, hi, hne]

theorem lookup_eq_some_iff (h : s.WellFormed) (x : α) :
    s.lookup i j = some x ↔ ∃ line, s.lines[i]? = some line ∧ (j, x) ∈ line.toList := by
  rw [lookup, Option.bind_eq_some_iff]
  refine exists_congr fun line => and_congr_right fun hget => ?_
  exact SparseVector.lookup_eq_some_iff j x (h line (Array.mem_of_getElem? hget)).toWellFormed

/-- Nothing is stored outside the dimensions. -/
theorem lookup_inside (h : s.WellFormed) (x : α) (hx : s.lookup i j = some x) :
    i < s.majorDim ∧ j < s.minorDim := by
  obtain ⟨line, hget, hmem⟩ := (lookup_eq_some_iff i j h x).mp hx
  obtain ⟨hi, -⟩ := Array.getElem?_eq_some_iff.mp hget
  have hfits := h line (Array.mem_of_getElem? hget)
  exact ⟨hi, hfits.bounded j (List.of_mem_zip hmem).1⟩

end Lookup

section Enumeration

variable (s : SparseLines α)

theorem toList_entries :
    Cursor.toList s.entries = Entries.numbered 0 (s.lines.toList.map SparseVector.toList) :=
  Entries.toList_ofLines _

/-- The flattened traversal delivers what lookups find and nothing else. -/
theorem mem_toList_entries (h : s.WellFormed) (i j : Nat) (x : α) :
    (i, j, x) ∈ Cursor.toList s.entries ↔ s.lookup i j = some x := by
  rw [toList_entries, Entries.mem_numbered, lookup_eq_some_iff i j h x]
  constructor
  · rintro ⟨line, -, hget, hmem⟩
    rw [Nat.sub_zero, List.getElem?_map, Option.map_eq_some_iff] at hget
    obtain ⟨v, hv, rfl⟩ := hget
    exact ⟨v, by simpa using hv, hmem⟩
  · rintro ⟨v, hget, hmem⟩
    refine ⟨v.toList, Nat.zero_le i, ?_, hmem⟩
    simp [hget]

theorem toList_entries_ascending (h : s.WellFormed) :
    (Cursor.toList s.entries).Pairwise
      (fun a b => a.1 < b.1 ∨ (a.1 = b.1 ∧ a.2.1 < b.2.1)) := by
  rw [toList_entries]
  apply Entries.numbered_ascending
  intro line hline
  obtain ⟨v, hv, rfl⟩ := List.mem_map.mp hline
  have hfits := h v (Array.mem_def.mpr hv)
  have hentries := SparseVector.ofEntries_toList v hfits.toWellFormed
  rw [← SparseVector.ofEntries_wellFormed_iff, hentries]
  exact hfits.toWellFormed

/-- The count kept by the lines is the length of the traversal. -/
theorem nnz_eq_length (h : s.WellFormed) : s.nnz = (Cursor.toList s.entries).length := by
  have hlengths : s.lines.toList.map (List.length ∘ SparseVector.toList) =
      s.lines.toList.map SparseVector.nnz := by
    refine List.map_congr_left fun v hv => ?_
    have hfits := h v (Array.mem_def.mpr hv)
    simp [SparseVector.toList, SparseVector.nnz, hfits.length_eq]
  rw [toList_entries, Entries.length_numbered, List.length_flatten, List.map_map, hlengths, nnz,
    ← Array.foldl_toList, List.sum_eq_foldl, List.foldl_map]

end Enumeration

end SparseLines

end TransposedViews
