import TransposedViews.Proofs.Decoding
import TransposedViews.Proofs.Frame
import TransposedViews.Proofs.Source

/-!
What documents of lines are accepted. Every line is checked by itself, and the
matrix looks at the last index of each line only; since accepted lines ascend,
nothing else can lie outside. A document that is refused is refused for the
first line that is no sparse vector, and if there is none, for the first line
that reaches past the others' length.
-/

namespace TransposedViews

section Ascending

variable {indices : List Nat}

theorem validateSortedIndices_of_ascending (h : indices.IsChain (· < ·)) :
    validateSortedIndices indices = .ok () := by
  induction h with
  | nil => rfl
  | singleton first => rfl
  | @cons_cons first second rest hlt h ih =>
      have hascends : ¬ second ≤ first := by omega
      rw [validateSortedIndices, if_neg hascends, ih]

/-- The index that is reported does not exceed its predecessor, and all before
it do. -/
theorem split_of_validateSortedIndices {e : MatrixError}
    (h : validateSortedIndices indices = .error e) : ∃ before a b after,
      indices = before ++ a :: b :: after ∧ (before ++ [a]).IsChain (· < ·) ∧ b ≤ a ∧
        e = .unsortedIndices b := by
  induction indices with
  | nil => cases h
  | cons first rest ih =>
      cases rest with
      | nil => cases h
      | cons second rest =>
          rw [validateSortedIndices] at h
          split at h
          · next hle =>
              cases h
              exact ⟨[], first, second, rest, rfl, List.IsChain.singleton first, hle, rfl⟩
          · next hlt =>
              obtain ⟨before, a, b, after, hsplit, hchain, hle, he⟩ := ih h
              refine ⟨first :: before, a, b, after, by rw [hsplit, List.cons_append], ?_, hle, he⟩
              cases before with
              | nil =>
                  cases hsplit
                  exact List.IsChain.cons_cons (by omega) hchain
              | cons c before =>
                  cases hsplit
                  exact List.IsChain.cons_cons (by omega) hchain

theorem validateSortedIndices_of_split {before after : List Nat} {a b : Nat}
    (hchain : (before ++ [a]).IsChain (· < ·)) (hle : b ≤ a) :
    validateSortedIndices (before ++ a :: b :: after) = .error (.unsortedIndices b) := by
  induction before with
  | nil => exact if_pos hle
  | cons first before ih =>
      cases before with
      | nil =>
          obtain ⟨hlt, hrest⟩ := List.isChain_cons_cons.mp hchain
          have hascends : ¬ a ≤ first := by omega
          exact (if_neg hascends).trans (ih hrest)
      | cons second before =>
          obtain ⟨hlt, hrest⟩ := List.isChain_cons_cons.mp hchain
          have hascends : ¬ second ≤ first := by omega
          exact (if_neg hascends).trans (ih hrest)

end Ascending

namespace SparseVector

variable {α : Type}

/-- The vector of two sequences that form one. -/
def Parts.vector (parts : Parts α) : SparseVector α := ⟨parts.indices, parts.values⟩

/-- What is wrong with two sequences that form no sparse vector. A difference
in length is found first, then the first index that does not exceed its
predecessor. -/
inductive Parts.Defect (parts : Parts α) : MatrixError → Prop where
  | length (h : parts.indices.length ≠ parts.values.length) :
      Defect parts (.dimensionMismatch parts.indices.length parts.values.length)
  | order {before after : List Nat} {a b : Nat}
      (hlength : parts.indices.length = parts.values.length)
      (hsplit : parts.indices = before ++ a :: b :: after)
      (hascending : (before ++ [a]).Pairwise (· < ·)) (hle : b ≤ a) :
      Defect parts (.unsortedIndices b)

variable {parts : Parts α}

theorem ofParts_of_wellFormed (h : parts.vector.WellFormed) : ofParts parts = .ok parts.vector := by
  have hlength : parts.indices.length = parts.values.length := h.length_eq
  have hsorted := validateSortedIndices_of_ascending (List.isChain_iff_pairwise.mpr h.ascending)
  rw [ofParts, if_pos hlength]
  change validateSortedIndices parts.indices = .ok () at hsorted
  rw [hsorted]
  rfl

theorem eq_vector_of_ofParts {v : SparseVector α} (h : ofParts parts = .ok v) :
    v = parts.vector := by
  unfold ofParts at h
  split at h
  · split at h
    · cases h
    · cases h
      rfl
  · cases h

theorem vector_wellFormed_of_ofParts {v : SparseVector α} (h : ofParts parts = .ok v) :
    parts.vector.WellFormed := by
  rw [← eq_vector_of_ofParts h]
  exact ofParts_wellFormed h

theorem ofParts_eq_error_iff {e : MatrixError} : ofParts parts = .error e ↔ parts.Defect e := by
  unfold ofParts
  constructor
  · intro h
    split at h
    · next hlength =>
        split at h
        · next hunsorted =>
            cases h
            obtain ⟨before, a, b, after, hsplit, hchain, hle, rfl⟩ :=
              split_of_validateSortedIndices hunsorted
            exact .order hlength hsplit (List.isChain_iff_pairwise.mp hchain) hle
        · cases h
    · next hlength =>
        cases h
        exact .length hlength
  · intro h
    cases h with
    | length hlength => rw [if_neg hlength]
    | order hlength hsplit hascending hle =>
        have hchain := List.isChain_iff_pairwise.mpr hascending
        rw [if_pos hlength, hsplit, validateSortedIndices_of_split hchain hle]

end SparseVector

namespace SparseLines

variable {α : Type}

/-- The reading of a document of lines before any line is checked: the minor
dimension, and the two sequences of every line. -/
def partsOfValue [DocumentElement α] : Json.Decoder (Nat × List (SparseVector.Parts α)) :=
  Json.record₂ "minor_dim" "lines" Json.index (Json.list SparseVector.Parts.ofValue)

/-- Checks the lines one by one. -/
def ofLineParts (minorDim : Nat) (parts : List (SparseVector.Parts α)) :
    Except MatrixError (SparseLines α) :=
  (parts.mapM SparseVector.ofParts).map fun lines => ⟨minorDim, lines.toArray⟩

theorem ofValue_refines [DocumentElement α] (v : Json.Value) :
    Json.Refines (fun fields => (ofLineParts fields.1 fields.2).mapError .invalid)
      (partsOfValue v) (SparseLines.ofValue v : Except Json.DocumentError (SparseLines α)) := by
  have hlists := Json.list_refines
    (Json.checked_refines (SparseVector.Parts.ofValue (α := α)) .invalid SparseVector.ofParts)
  refine (Json.record₂_refines hlists v).map_right fun fields => ?_
  rw [mapM_mapError, ofLineParts]
  cases fields.2.mapM SparseVector.ofParts <;> rfl

section Range

variable {s : SparseLines α}

/-- A line stays inside if its last index does. -/
theorem outOfRange_line_eq_none_iff (line : SparseVector α) (len : Nat) :
    line.lastIndex?.filter (len ≤ ·) = none ↔ ∀ k, line.lastIndex? = some k → k < len := by
  rw [Option.filter_eq_none_iff]
  simp only [decide_eq_true_eq, Nat.not_le]

/-- The line that is reported is the first one whose last index lies outside. -/
theorem outOfRange?_eq_some_iff {major minor : Nat} :
    s.outOfRange? = some (major, minor) ↔ ∃ earlier line later,
      s.lines.toList = earlier ++ line :: later ∧ earlier.length = major ∧
        (∀ other ∈ earlier, ∀ k, other.lastIndex? = some k → k < s.minorDim) ∧
        line.lastIndex? = some minor ∧ s.minorDim ≤ minor := by
  rw [outOfRange?, List.findSome?_eq_some_iff]
  constructor
  · rintro ⟨front, ⟨line, number⟩, back, hsplit, hfound, hfront⟩
    obtain ⟨earlier, rest, hlines, rfl, hback⟩ := List.zipIdx_eq_append_iff.mp hsplit
    obtain ⟨_, later, rfl, hpair, -⟩ := List.zipIdx_eq_cons_iff.mp hback.symm
    cases hpair
    obtain ⟨k, hreach, heq⟩ := Option.map_eq_some_iff.mp hfound
    cases heq
    obtain ⟨hlast, hle⟩ := Option.filter_eq_some_iff.mp hreach
    refine ⟨earlier, line, later, hlines, by omega, ?_, hlast, by simpa using hle⟩
    intro other hother
    obtain ⟨n, hn, rfl⟩ := List.mem_iff_getElem.mp hother
    have hmem : (earlier[n], n) ∈ earlier.zipIdx :=
      List.mk_mem_zipIdx_iff_getElem?.mpr (List.getElem?_eq_getElem hn)
    have hpassed := Option.map_eq_none_iff.mp (hfront _ hmem)
    exact (outOfRange_line_eq_none_iff _ _).mp hpassed
  · rintro ⟨earlier, line, later, hlines, rfl, hearlier, hlast, hle⟩
    refine ⟨earlier.zipIdx, (line, earlier.length), later.zipIdx (earlier.length + 1), ?_, ?_, ?_⟩
    · rw [hlines, List.zipIdx_append, List.zipIdx_cons, Nat.zero_add]
    · have hreach : line.lastIndex?.filter (s.minorDim ≤ ·) = some minor :=
        Option.filter_eq_some_iff.mpr ⟨hlast, by simpa using hle⟩
      exact Option.map_eq_some_iff.mpr ⟨minor, hreach, rfl⟩
    · rintro ⟨other, n⟩ hother
      have hpassed := hearlier other (List.fst_mem_of_mem_zipIdx hother)
      exact Option.map_eq_none_iff.mpr ((outOfRange_line_eq_none_iff _ _).mpr hpassed)

end Range

section Outcome

variable {M : Type} {minorDim : Nat} {parts : List (SparseVector.Parts α)}
  {outside : Nat → Nat → MatrixError}

/-- What is wrong with lines that form no matrix. A line that is no sparse
vector is found before any line that reaches too far; the latter is reported
as `outside` puts it, from its number and its last index. -/
inductive LinesDefect (minorDim : Nat) (parts : List (SparseVector.Parts α))
    (outside : Nat → Nat → MatrixError) : MatrixError → Prop where
  | line {earlier later : List (SparseVector.Parts α)} {p : SparseVector.Parts α}
      {cause : MatrixError} (hsplit : parts = earlier ++ p :: later)
      (hearlier : ∀ q ∈ earlier, q.vector.WellFormed) (hdefect : p.Defect cause) :
      LinesDefect minorDim parts outside cause
  | range {earlier later : List (SparseVector.Parts α)} {p : SparseVector.Parts α} {last : Nat}
      (hsplit : parts = earlier ++ p :: later) (hvectors : ∀ q ∈ parts, q.vector.WellFormed)
      (hearlier : ∀ q ∈ earlier, ∀ k, q.indices.getLast? = some k → k < minorDim)
      (hlast : p.indices.getLast? = some last) (hle : minorDim ≤ last) :
      LinesDefect minorDim parts outside (outside earlier.length last)

/-- The lines of parts that are all vectors. -/
def ofVectors (minorDim : Nat) (parts : List (SparseVector.Parts α)) : SparseLines α :=
  ⟨minorDim, (parts.map SparseVector.Parts.vector).toArray⟩

theorem ofLineParts_of_wellFormed (h : ∀ p ∈ parts, p.vector.WellFormed) :
    ofLineParts minorDim parts = .ok (ofVectors minorDim parts) := by
  have hlines := mapM_ok_of_forall (f := SparseVector.ofParts) (g := SparseVector.Parts.vector)
    fun p hp => SparseVector.ofParts_of_wellFormed (h p hp)
  rw [ofLineParts, hlines]
  rfl

theorem ofLineParts_of_defect {earlier later : List (SparseVector.Parts α)}
    {p : SparseVector.Parts α} {cause : MatrixError} (hsplit : parts = earlier ++ p :: later)
    (hearlier : ∀ q ∈ earlier, q.vector.WellFormed) (hdefect : p.Defect cause) :
    ofLineParts minorDim parts = .error cause := by
  have hrefused : parts.mapM SparseVector.ofParts = .error cause :=
    mapM_eq_error_iff.mpr ⟨earlier, p, later, hsplit,
      fun q hq => ⟨q.vector, SparseVector.ofParts_of_wellFormed (hearlier q hq)⟩,
      SparseVector.ofParts_eq_error_iff.mpr hdefect⟩
  rw [ofLineParts, hrefused]
  rfl

theorem outOfRange?_ofVectors {earlier later : List (SparseVector.Parts α)}
    {p : SparseVector.Parts α} {last : Nat} (hsplit : parts = earlier ++ p :: later)
    (hearlier : ∀ q ∈ earlier, ∀ k, q.indices.getLast? = some k → k < minorDim)
    (hlast : p.indices.getLast? = some last) (hle : minorDim ≤ last) :
    (ofVectors minorDim parts).outOfRange? = some (earlier.length, last) := by
  refine outOfRange?_eq_some_iff.mpr ⟨earlier.map SparseVector.Parts.vector, p.vector,
    later.map SparseVector.Parts.vector, ?_, List.length_map _, ?_, hlast, hle⟩
  · rw [hsplit, ofVectors, List.map_append, List.map_cons]
  · intro line hline
    obtain ⟨q, hq, rfl⟩ := List.mem_map.mp hline
    exact hearlier q hq

theorem outOfRange?_of_wellFormed {s : SparseLines α} (h : s.WellFormed) :
    s.outOfRange? = none := by
  rw [Option.eq_none_iff_forall_ne_some]
  rintro ⟨major, minor⟩ hfound
  obtain ⟨earlier, line, later, hlines, -, -, hlast, hle⟩ := outOfRange?_eq_some_iff.mp hfound
  have hline : line ∈ s.lines := by
    rw [Array.mem_def, hlines]
    exact List.mem_append_right earlier List.mem_cons_self
  have hlt := (h line hline).bounded minor (List.mem_of_getLast? hlast)
  omega

theorem ofVectors_wellFormed_iff :
    (ofVectors minorDim parts).WellFormed ↔ ∀ p ∈ parts, p.vector.FitsIn minorDim := by
  constructor
  · intro h p hp
    exact h p.vector (by simpa [ofVectors] using ⟨p, hp, rfl⟩)
  · intro h line hline
    obtain ⟨p, hp, rfl⟩ : ∃ p ∈ parts, p.vector = line := by simpa [ofVectors] using hline
    exact h p hp

theorem ofVectors_wellFormed_of_outOfRange? (hvectors : ∀ p ∈ parts, p.vector.WellFormed)
    (hrange : (ofVectors minorDim parts).outOfRange? = none) :
    (ofVectors minorDim parts).WellFormed := by
  apply wellFormed_of_outOfRange? _ hrange
  intro line hline
  obtain ⟨p, hp, rfl⟩ : ∃ p ∈ parts, p.vector = line := by simpa [ofVectors] using hline
  exact ⟨p, SparseVector.ofParts_of_wellFormed (hvectors p hp)⟩

/-- Lines are sound, or there is a defect to report. -/
theorem sound_or_defect (minorDim : Nat) (parts : List (SparseVector.Parts α))
    (outside : Nat → Nat → MatrixError) :
    (∀ p ∈ parts, p.vector.FitsIn minorDim) ∨
      ∃ cause, LinesDefect minorDim parts outside cause := by
  cases hread : parts.mapM SparseVector.ofParts with
  | error cause =>
      obtain ⟨earlier, p, later, hsplit, hearlier, hp⟩ := mapM_eq_error_iff.mp hread
      refine Or.inr ⟨cause, .line hsplit ?_ (SparseVector.ofParts_eq_error_iff.mp hp)⟩
      intro q hq
      obtain ⟨v, hv⟩ := hearlier q hq
      exact SparseVector.vector_wellFormed_of_ofParts hv
  | ok lines =>
      have hvectors : ∀ p ∈ parts, p.vector.WellFormed := by
        intro p hp
        obtain ⟨v, hv⟩ := forall_ok_of_mapM_ok hread p hp
        exact SparseVector.vector_wellFormed_of_ofParts hv
      cases hrange : (ofVectors minorDim parts).outOfRange? with
      | none =>
          have hwf := ofVectors_wellFormed_of_outOfRange? hvectors hrange
          exact Or.inl (ofVectors_wellFormed_iff.mp hwf)
      | some position =>
          obtain ⟨major, minor⟩ := position
          obtain ⟨front, line, back, hlines, -, hfront, hlast, hle⟩ :=
            outOfRange?_eq_some_iff.mp hrange
          obtain ⟨earlier, rest, hsplit, rfl, hrest⟩ := List.map_eq_append_iff.mp hlines
          obtain ⟨p, later, rfl, rfl, -⟩ := List.map_eq_cons_iff.mp hrest
          refine Or.inr ⟨_, .range hsplit hvectors ?_ hlast hle⟩
          intro q hq
          exact hfront q.vector (List.mem_map_of_mem hq)

/-- What reading line parts as a matrix comes to: a matrix exactly if all
lines are sound, and otherwise the first defect and nothing else. -/
structure LineOutcome (minorDim : Nat) (parts : List (SparseVector.Parts α))
    (outside : Nat → Nat → MatrixError) (Holds : M → Prop)
    (result : Except Json.DocumentError M) : Prop where
  ok_iff : (∃ m, result = .ok m) ↔ ∀ p ∈ parts, p.indices.length = p.values.length ∧
    p.indices.Pairwise (· < ·) ∧ ∀ k ∈ p.indices, k < minorDim
  holds : ∀ m, result = .ok m → Holds m
  error_iff : ∀ e, result = .error e ↔
    ∃ cause, e = .invalid cause ∧ LinesDefect minorDim parts outside cause

theorem vectors_fit_iff : (∀ p ∈ parts, p.vector.FitsIn minorDim) ↔
    ∀ p ∈ parts, p.indices.length = p.values.length ∧ p.indices.Pairwise (· < ·) ∧
      ∀ k ∈ p.indices, k < minorDim := by
  refine forall₂_congr fun p _ => ⟨?_, ?_⟩
  · intro h
    exact ⟨h.length_eq, h.ascending, h.bounded⟩
  · rintro ⟨hlength, hascending, hbounded⟩
    exact ⟨⟨hlength, hascending⟩, hbounded⟩

theorem lineOutcome_of {Holds : M → Prop} {result : Except Json.DocumentError M}
    (hsound : (∀ p ∈ parts, p.vector.FitsIn minorDim) → ∃ m, result = .ok m ∧ Holds m)
    (hdefect : ∀ cause, LinesDefect minorDim parts outside cause →
      result = .error (.invalid cause)) :
    LineOutcome minorDim parts outside Holds result := by
  rcases sound_or_defect minorDim parts outside with h | ⟨cause, h⟩
  · obtain ⟨m, hm, hholds⟩ := hsound h
    refine ⟨⟨fun _ => vectors_fit_iff.mp h, fun _ => ⟨m, hm⟩⟩, ?_, ?_⟩
    · intro m' hm'
      rw [hm] at hm'
      cases hm'
      exact hholds
    · intro e
      constructor
      · intro he
        rw [hm] at he
        cases he
      · rintro ⟨cause, -, hcause⟩
        have herror := hdefect cause hcause
        rw [hm] at herror
        cases herror
  · have herror := hdefect cause h
    refine ⟨⟨?_, ?_⟩, ?_, ?_⟩
    · rintro ⟨m, hm⟩
      rw [herror] at hm
      cases hm
    · intro hall
      obtain ⟨m, hm, -⟩ := hsound (vectors_fit_iff.mpr hall)
      exact ⟨m, hm⟩
    · intro m hm
      rw [herror] at hm
      cases hm
    · intro e
      constructor
      · intro he
        rw [herror] at he
        cases he
        exact ⟨cause, rfl, h⟩
      · rintro ⟨other, rfl, hother⟩
        exact hdefect other hother

/-- Checks line parts one by one and then as a matrix. -/
def acceptParts (accept : SparseLines α → Except MatrixError M) (minorDim : Nat)
    (parts : List (SparseVector.Parts α)) : Except Json.DocumentError M :=
  (ofLineParts minorDim parts).mapError .invalid >>= fun s => (accept s).mapError .invalid

theorem checked_lines_refines [DocumentElement α] (accept : SparseLines α → Except MatrixError M)
    (v : Json.Value) :
    Json.Refines (fun fields => acceptParts accept fields.1 fields.2) (partsOfValue v)
      (Json.checked SparseLines.ofValue .invalid accept v) := by
  rw [Json.checked_eq_bind]
  exact (ofValue_refines v).andThen _

theorem acceptParts_of_sound {accept : SparseLines α → Except MatrixError M} {m : M}
    (h : ∀ p ∈ parts, p.vector.FitsIn minorDim)
    (haccept : accept (ofVectors minorDim parts) = .ok m) :
    acceptParts accept minorDim parts = .ok m := by
  rw [acceptParts, ofLineParts_of_wellFormed fun p hp => (h p hp).toWellFormed]
  change (accept (ofVectors minorDim parts)).mapError Json.DocumentError.invalid = .ok m
  rw [haccept]
  rfl

theorem acceptParts_of_defect {accept : SparseLines α → Except MatrixError M} {cause : MatrixError}
    (h : LinesDefect minorDim parts outside cause)
    (haccept : ∀ major minor, (ofVectors minorDim parts).outOfRange? = some (major, minor) →
      accept (ofVectors minorDim parts) = .error (outside major minor)) :
    acceptParts accept minorDim parts = .error (.invalid cause) := by
  cases h with
  | line hsplit hearlier hdefect =>
      rw [acceptParts, ofLineParts_of_defect hsplit hearlier hdefect]
      rfl
  | range hsplit hvectors hearlier hlast hle =>
      have hrange := outOfRange?_ofVectors hsplit hearlier hlast hle
      rw [acceptParts, ofLineParts_of_wellFormed hvectors]
      change (accept (ofVectors minorDim parts)).mapError Json.DocumentError.invalid = _
      rw [haccept _ _ hrange]
      rfl

/-- A matrix that accepts lines without one out of range, and reports the one
that is, decodes line parts as it should. -/
theorem lineOutcome_acceptParts {accept : SparseLines α → Except MatrixError M}
    {Holds : M → Prop}
    (hinside : (ofVectors minorDim parts).outOfRange? = none →
      (∀ p ∈ parts, p.vector.FitsIn minorDim) →
        ∃ m, accept (ofVectors minorDim parts) = .ok m ∧ Holds m)
    (houtside : ∀ major minor, (ofVectors minorDim parts).outOfRange? = some (major, minor) →
      accept (ofVectors minorDim parts) = .error (outside major minor)) :
    LineOutcome minorDim parts outside Holds (acceptParts accept minorDim parts) := by
  apply lineOutcome_of
  · intro hsound
    have hwf := ofVectors_wellFormed_iff.mpr hsound
    obtain ⟨m, haccept, hholds⟩ := hinside (outOfRange?_of_wellFormed hwf) hsound
    exact ⟨m, acceptParts_of_sound hsound haccept, hholds⟩
  · intro cause hdefect
    exact acceptParts_of_defect hdefect houtside

theorem lookup_ofVectors (h : ∀ p ∈ parts, p.vector.FitsIn minorDim) (major minor : Nat) (x : α) :
    (ofVectors minorDim parts).lookup major minor = some x ↔
      ∃ p, parts[major]? = some p ∧ (minor, x) ∈ p.indices.zip p.values := by
  rw [lookup_eq_some_iff major minor (ofVectors_wellFormed_iff.mpr h) x]
  constructor
  · rintro ⟨line, hline, hmem⟩
    obtain ⟨p, hp, rfl⟩ : ∃ p, parts[major]? = some p ∧ p.vector = line := by
      simpa [ofVectors] using hline
    exact ⟨p, hp, hmem⟩
  · rintro ⟨p, hp, hmem⟩
    exact ⟨p.vector, by simp [ofVectors, hp], hmem⟩

end Outcome

end SparseLines

section Matrices

variable {α : Type} {minorDim : Nat} {parts : List (SparseVector.Parts α)}

/-- Lines that make up the rows of a matrix. -/
def RowMatrix.Lists (minorDim : Nat) (parts : List (SparseVector.Parts α)) (m : RowMatrix α) :
    Prop :=
  m.nrows = parts.length ∧ m.ncols = minorDim ∧ ∀ i j x, m.entry i j = .ok (some x) ↔
    ∃ p, parts[i]? = some p ∧ (j, x) ∈ p.indices.zip p.values

/-- Lines that make up the columns of a matrix. -/
def ColMatrix.Lists (minorDim : Nat) (parts : List (SparseVector.Parts α)) (m : ColMatrix α) :
    Prop :=
  m.nrows = minorDim ∧ m.ncols = parts.length ∧ ∀ i j x, m.entry i j = .ok (some x) ↔
    ∃ p, parts[j]? = some p ∧ (i, x) ∈ p.indices.zip p.values

theorem majorDim_ofVectors : (SparseLines.ofVectors minorDim parts).majorDim = parts.length := by
  simp [SparseLines.majorDim, SparseLines.ofVectors]

/-- What reading line parts as a matrix of rows comes to. -/
def RowMatrix.Outcome (minorDim : Nat) (parts : List (SparseVector.Parts α)) :
    Except Json.DocumentError (RowMatrix α) → Prop :=
  SparseLines.LineOutcome minorDim parts
    (fun line last => .indexOutOfBounds line last parts.length minorDim) (Lists minorDim parts)

/-- What reading line parts as a matrix of columns comes to. -/
def ColMatrix.Outcome (minorDim : Nat) (parts : List (SparseVector.Parts α)) :
    Except Json.DocumentError (ColMatrix α) → Prop :=
  SparseLines.LineOutcome minorDim parts
    (fun line last => .indexOutOfBounds last line minorDim parts.length) (Lists minorDim parts)

theorem RowMatrix.outcome_acceptParts :
    Outcome minorDim parts (SparseLines.acceptParts ofLines minorDim parts) := by
  apply SparseLines.lineOutcome_acceptParts
  · intro hrange hsound
    refine ⟨_, ofLines_of_inside hrange, majorDim_ofVectors, rfl, ?_⟩
    intro i j x
    have hwf := SparseLines.ofVectors_wellFormed_iff.mpr hsound
    exact (Matrix.entry_eq_some_iff (m := .row _) hwf i j x).trans
      (SparseLines.lookup_ofVectors hsound i j x)
  · intro major minor hrange
    rw [ofLines_of_outside hrange, majorDim_ofVectors]
    rfl

theorem ColMatrix.outcome_acceptParts :
    Outcome minorDim parts (SparseLines.acceptParts ofLines minorDim parts) := by
  apply SparseLines.lineOutcome_acceptParts
  · intro hrange hsound
    refine ⟨_, ofLines_of_inside hrange, rfl, majorDim_ofVectors, ?_⟩
    intro i j x
    have hwf := SparseLines.ofVectors_wellFormed_iff.mpr hsound
    exact (Matrix.entry_eq_some_iff (m := .col _) hwf i j x).trans
      (SparseLines.lookup_ofVectors hsound j i x)
  · intro major minor hrange
    rw [ofLines_of_outside hrange, majorDim_ofVectors]
    rfl

/-- How documents of one form are read as lines: the parts before any check,
the lines, and the matrices of rows and of columns that they make up. -/
structure LineReader (D α : Type) where
  parts : D → Except Json.DocumentError (Nat × List (SparseVector.Parts α))
  lines : D → Except Json.DocumentError (SparseLines α)
  rows : D → Except Json.DocumentError (RowMatrix α)
  cols : D → Except Json.DocumentError (ColMatrix α)

/-- What is assumed of a reader. On a document that has all its parts the lines
are converted in their order, each one checked before the next is looked at,
and a matrix is checked as soon as its lines are there. -/
structure LineReader.ChecksInOrder {D : Type} (reader : LineReader D α) : Prop where
  lines_in_order : ∀ d minorDim parts, reader.parts d = .ok (minorDim, parts) →
    reader.lines d = ((parts.mapM SparseVector.ofParts).map fun lines =>
      (⟨minorDim, lines.toArray⟩ : SparseLines α)).mapError .invalid
  rows_at_once : ∀ d parts, reader.parts d = .ok parts →
    reader.rows d = reader.lines d >>= fun s => (RowMatrix.ofLines s).mapError .invalid
  cols_at_once : ∀ d parts, reader.parts d = .ok parts →
    reader.cols d = reader.lines d >>= fun s => (ColMatrix.ofLines s).mapError .invalid

namespace LineReader

theorem ChecksInOrder.outcome {D : Type} {reader : LineReader D α} (h : reader.ChecksInOrder)
    {d : D} (hparts : reader.parts d = .ok (minorDim, parts)) :
    RowMatrix.Outcome minorDim parts (reader.rows d) ∧
      ColMatrix.Outcome minorDim parts (reader.cols d) := by
  rw [h.rows_at_once d _ hparts, h.cols_at_once d _ hparts, h.lines_in_order d _ _ hparts]
  exact ⟨RowMatrix.outcome_acceptParts, ColMatrix.outcome_acceptParts⟩

variable [DocumentElement α]

/-- Trees, read by decoders. -/
def tree : LineReader Json.Value α :=
  ⟨SparseLines.partsOfValue, SparseLines.ofValue, RowMatrix.ofValue, ColMatrix.ofValue⟩

/-- Texts, which are read as trees. -/
def text : LineReader String α :=
  ⟨Json.decode SparseLines.partsOfValue, Json.decode SparseLines.ofValue,
    Json.decode RowMatrix.ofValue, Json.decode ColMatrix.ofValue⟩

theorem tree_checksInOrder : (tree : LineReader Json.Value α).ChecksInOrder where
  lines_in_order v _ _ hparts := (SparseLines.ofValue_refines v).eq_of_ok hparts
  rows_at_once v _ _ := Json.checked_eq_bind SparseLines.ofValue .invalid RowMatrix.ofLines v
  cols_at_once v _ _ := Json.checked_eq_bind SparseLines.ofValue .invalid ColMatrix.ofLines v

theorem text_checksInOrder : (text : LineReader String α).ChecksInOrder := by
  have hlines (d : String) (parts : Nat × List (SparseVector.Parts α))
      (hparts : text.parts d = .ok parts) :
      text.lines d = (SparseLines.ofLineParts parts.1 parts.2).mapError .invalid :=
    (Json.decode_refines (SparseLines.ofValue_refines (α := α)) d).eq_of_ok hparts
  have hrows := Json.decode_refines (SparseLines.checked_lines_refines (α := α) RowMatrix.ofLines)
  have hcols := Json.decode_refines (SparseLines.checked_lines_refines (α := α) ColMatrix.ofLines)
  constructor
  · intro d minorDim parts hparts
    exact hlines d _ hparts
  · intro d parts hparts
    rw [hlines d parts hparts]
    exact (hrows d).eq_of_ok hparts
  · intro d parts hparts
    rw [hlines d parts hparts]
    exact (hcols d).eq_of_ok hparts

end LineReader

/-- A document of lines that reads as the given parts is a matrix of rows, or
of columns, exactly if every line has as many values as indices, in strictly
ascending order and below the minor dimension. The matrix then has what the
lines list, and otherwise the document is refused for the first defect. This
holds of every reader that converts and checks in the order of the document;
such are the readers of trees and of texts. -/
theorem line_documents_decoded [DocumentElement α] (minorDim : Nat)
    (parts : List (SparseVector.Parts α)) :
    (∀ (D : Type) (reader : LineReader D α), reader.ChecksInOrder → ∀ d,
      reader.parts d = .ok (minorDim, parts) →
        RowMatrix.Outcome minorDim parts (reader.rows d) ∧
          ColMatrix.Outcome minorDim parts (reader.cols d)) ∧
    (∀ v, SparseLines.partsOfValue v = .ok (minorDim, parts) →
      RowMatrix.Outcome minorDim parts (RowMatrix.ofValue v) ∧
        ColMatrix.Outcome minorDim parts (ColMatrix.ofValue v)) ∧
    (∀ text, Json.decode SparseLines.partsOfValue text = .ok (minorDim, parts) →
      RowMatrix.Outcome minorDim parts (Json.decode RowMatrix.ofValue text) ∧
        ColMatrix.Outcome minorDim parts (Json.decode ColMatrix.ofValue text)) := by
  refine ⟨?_, ?_, ?_⟩
  · intro D reader horder d hparts
    exact horder.outcome hparts
  · intro v hparts
    exact LineReader.tree_checksInOrder.outcome hparts
  · intro text hparts
    exact LineReader.text_checksInOrder.outcome hparts

/-- Two lines of length two, of which the first reaches too far and the second
repeats an index. -/
def crossedLines : String :=
  "\x7b\"minor_dim\":2,\"lines\":[[[0,2],[5,6]],[[1,1],[7,8]]]\x7d"

/-- The second line is at fault, since it is no vector to begin with. -/
theorem crossed_lines_refused :
    Json.decode (RowMatrix.ofValue (α := Int64)) crossedLines =
      .error (.invalid (.unsortedIndices 1)) := by
  have hread : Json.decode (SparseLines.partsOfValue (α := Int64)) crossedLines =
      .ok (2, [⟨[0, 2], [5, 6]⟩, ⟨[1, 1], [7, 8]⟩]) := by decide +kernel
  obtain ⟨hrow, -⟩ := (line_documents_decoded 2 _).1 String .text LineReader.text_checksInOrder
    crossedLines hread
  refine (hrow.error_iff _).mpr ⟨_, rfl, .line (List.singleton_append.symm) ?_ ?_⟩
  · intro q hq
    obtain rfl := List.mem_singleton.mp hq
    exact ⟨rfl, by decide⟩
  · exact .order rfl (List.nil_append _).symm (List.pairwise_singleton _ _) (Nat.le_refl 1)

end Matrices

end TransposedViews
