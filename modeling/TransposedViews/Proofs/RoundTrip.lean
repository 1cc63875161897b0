import TransposedViews.Proofs.LineDocument
import TransposedViews.Proofs.Occurrence
import TransposedViews.Proofs.Reachable

namespace TransposedViews

/-- How values of one kind are kept in documents of one form: how their parts
are written and read, and how a value is read. -/
structure Documents (D π β : Type) where
  write : π → D
  parts : D → Except Json.DocumentError π
  value : D → Except Json.DocumentError β

namespace Documents

variable {D π β : Type} {docs : Documents D π β} {Fits : π → Prop}
  {check : π → Except Json.DocumentError β} {p : π} {x : β}

/-- What is assumed of documents. Parts that fit are read as they were written,
whatever is read fits, and a value is read through its parts, with the check
made on them at once. -/
structure Faithful (docs : Documents D π β) (Fits : π → Prop)
    (check : π → Except Json.DocumentError β) : Prop where
  parts_write : ∀ p, Fits p → docs.parts (docs.write p) = .ok p
  fits_of_parts : ∀ d p, docs.parts d = .ok p → Fits p
  value_through : Json.ReadsThrough check docs.parts docs.value

theorem Faithful.value_write (h : docs.Faithful Fits check) (hfits : Fits p)
    (hcheck : check p = .ok x) : docs.value (docs.write p) = .ok x := by
  rw [(h.value_through _).eq_of_ok (h.parts_write p hfits), hcheck]

/-- A value that was read has been accepted from parts that fit. -/
theorem Faithful.exists_parts (h : docs.Faithful Fits check) {d : D} (hx : docs.value d = .ok x) :
    ∃ p, docs.parts d = .ok p ∧ Fits p ∧ check p = .ok x := by
  obtain ⟨p, hparts, hcheck⟩ := (h.value_through d).exists_of_ok hx
  exact ⟨p, hparts, h.fits_of_parts d p hparts, hcheck⟩

end Documents

/-- Elements that documents keep exactly. -/
class ExactElement (α : Type) [DocumentElement α] : Prop where
  element_toValue : ∀ x : α, Json.element (DocumentElement.toValue x) = .ok x

section Elements

/-- An integer between the bounds its type is read within. -/
theorem element_of_inside {α : Type} [DocumentElement α] {low high n : Int} {ofInt : Int → α}
    {x : α} (hread : DocumentElement.ofNumber? (.integer n) =
      ((Json.Number.integer n).integer? low high).map ofInt)
    (hlow : low ≤ n) (hhigh : n ≤ high) (hx : ofInt n = x) :
    Json.element (.number (.integer n)) = .ok x := by
  have hinteger : (Json.Number.integer n).integer? low high = some n := if_pos ⟨hlow, hhigh⟩
  rw [hinteger, Option.map_some, hx] at hread
  simp only [Json.element, hread]

instance : ExactElement Int32 where
  element_toValue x := by
    have hlow := x.le_toInt
    have hhigh := x.toInt_lt
    apply element_of_inside rfl
    · omega
    · omega
    · exact Int32.ofInt_toInt x

instance : ExactElement Int64 where
  element_toValue x := by
    have hlow := x.le_toInt
    have hhigh := x.toInt_lt
    apply element_of_inside rfl
    · omega
    · omega
    · exact Int64.ofInt_toInt x

instance : ExactElement UInt32 where
  element_toValue x := by
    have hhigh := x.toNat_lt
    apply element_of_inside rfl
    · omega
    · omega
    · exact UInt32.ofNat_toNat

instance : ExactElement UInt64 where
  element_toValue x := by
    have hhigh := x.toNat_lt
    apply element_of_inside rfl
    · omega
    · omega
    · exact UInt64.ofNat_toNat

theorem list_element_toValue {α : Type} [DocumentElement α] [ExactElement α] (xs : List α) :
    Json.list Json.element (.list (xs.map DocumentElement.toValue)) = .ok xs :=
  Json.list_of_map fun x _ => ExactElement.element_toValue x

end Elements

namespace Dense

variable {α : Type} {m : Dense α}

def toParts (m : Dense α) : Parts α := ⟨m.nrows, m.ncols, m.data⟩

/-- Sizes and indices are machine words. -/
def Parts.Words (parts : Parts α) : Prop := parts.nrows < wordLimit ∧ parts.ncols < wordLimit

theorem ofParts_toParts (h : m.WellFormed) : ofParts m.toParts = .ok m := by
  have hlen : checkedLen m.nrows m.ncols = .ok (m.nrows * m.ncols) := if_pos h.fits
  simp only [ofParts, toParts, ofArray, validateDenseLen, hlen, h.size_eq, if_true]
  rfl

/-- A matrix is accepted from its own parts only. -/
theorem toParts_of_ofParts {parts : Parts α} (h : ofParts parts = .ok m) : m.toParts = parts := by
  obtain ⟨passed, -, rfl⟩ := exists_of_map_ok h
  rfl

variable [DocumentElement α]

/-- Dense matrices as trees. -/
def documents : Documents Json.Value (Parts α) (Dense α) where
  write parts := toValue ⟨parts.nrows, parts.ncols, parts.data⟩
  parts := Parts.ofValue
  value := ofValue

theorem documents_faithful [ExactElement α] :
    (documents (α := α)).Faithful Parts.Words fun parts => (ofParts parts).mapError .invalid where
  parts_write := by
    rintro ⟨nrows, ncols, data⟩ ⟨hrows, hcols⟩
    have hrecord := Json.record₃_of_fields (by decide : "ncols" ≠ "nrows")
      (by decide : "data" ≠ "nrows") (by decide : "data" ≠ "ncols") (Json.index_ofNat hrows)
      (Json.index_ofNat hcols) (list_element_toValue data.toList)
    simp only [documents, Parts.ofValue, toValue, hrecord]
    rfl
  fits_of_parts v parts hread := by
    obtain ⟨⟨nrows, ncols, data⟩, hrecord, rfl⟩ := exists_of_map_ok hread
    obtain ⟨⟨_, hrows⟩, ⟨_, hcols⟩, -⟩ := Json.record₃_fields hrecord
    exact ⟨Json.lt_of_index hrows, Json.lt_of_index hcols⟩
  value_through := Json.checked_refines Parts.ofValue .invalid ofParts

end Dense

namespace SparseVector

variable {α : Type}

/-- The vectors that constructors and any run of mutating operations lead to. -/
inductive Reachable : SparseVector α → Prop where
  | empty : Reachable .empty
  | collected {pairs : List (Nat × α)} {v : SparseVector α} (h : ofPairs pairs = .ok v) :
      Reachable v
  | accepted {parts : Parts α} {v : SparseVector α} (h : ofParts parts = .ok v) : Reachable v
  | inserted {v : SparseVector α} (h : Reachable v) (k : Nat) (x : α) : Reachable (v.insert k x).2
  | removed {v : SparseVector α} (h : Reachable v) (k : Nat) : Reachable (v.remove k).2
  | overwritten {v : SparseVector α} (h : Reachable v) (k : Nat) (x : α) :
      Reachable (v.overwrite k x).2
  | replaced {v : SparseVector α} (h : Reachable v) (replacements : List α) :
      Reachable (v.overwriteValues replacements)
  | walked {v : SparseVector α} (h : Reachable v) (script : List (Request α)) :
      Reachable (v.runScript script).2

theorem Reachable.wellFormed {v : SparseVector α} (h : v.Reachable) : v.WellFormed := by
  induction h with
  | empty => exact (empty_fits 0).toWellFormed
  | @collected pairs v h =>
      obtain rfl : collect pairs = v := Except.ok.inj ((ofPairs_eq pairs).symm.trans h)
      exact collect_wellFormed pairs
  | accepted h => exact ofParts_wellFormed h
  | inserted h k x ih => exact insert_wellFormed k x ih
  | removed h k ih => exact remove_wellFormed k ih
  | overwritten h k x ih => exact overwrite_wellFormed k x ih
  | @replaced v h replacements ih =>
      refine ih.with_values _ ?_
      simp only [List.length_append, List.length_take, List.length_drop]
      omega
  | @walked v h script ih => exact ih.with_values _ (length_values_runScript v script)

/-- The two sequences of a vector. -/
def toParts (v : SparseVector α) : Parts α := ⟨v.indices, v.values⟩

def Parts.Words (parts : Parts α) : Prop := ∀ k ∈ parts.indices, k < wordLimit

variable [DocumentElement α]

/-- Sparse vectors as trees. -/
def documents : Documents Json.Value (Parts α) (SparseVector α) where
  write parts := parts.vector.toValue
  parts := Parts.ofValue
  value := ofValue

theorem parts_write [ExactElement α] {parts : Parts α} (h : parts.Words) :
    Parts.ofValue parts.vector.toValue = .ok parts := by
  have hindices : Json.list Json.index (.list (parts.indices.map .ofNat)) = .ok parts.indices :=
    Json.list_of_map fun k hk => Json.index_ofNat (h k hk)
  have hrecord := Json.record₂_of_fields (by decide : "values" ≠ "indices") hindices
    (list_element_toValue parts.values)
  simp only [Parts.ofValue, toValue, Parts.vector, hrecord]
  rfl

theorem words_of_parts {u : Json.Value} {parts : Parts α} (h : Parts.ofValue u = .ok parts) :
    parts.Words := by
  obtain ⟨⟨indices, values⟩, hrecord, rfl⟩ := exists_of_map_ok h
  obtain ⟨⟨_, hindices⟩, -⟩ := Json.record₂_fields hrecord
  intro k hk
  obtain ⟨_, hindex⟩ := Json.exists_of_mem_list hindices k hk
  exact Json.lt_of_index hindex

theorem documents_faithful [ExactElement α] :
    (documents (α := α)).Faithful Parts.Words fun parts => (ofParts parts).mapError .invalid where
  parts_write _ hwords := parts_write hwords
  fits_of_parts _ _ hread := words_of_parts hread
  value_through := Json.checked_refines Parts.ofValue .invalid ofParts

end SparseVector

namespace SparseLines

variable {α : Type}

/-- The minor dimension and the two sequences of every line. -/
def toParts (s : SparseLines α) : Nat × List (SparseVector.Parts α) :=
  (s.minorDim, s.lines.toList.map SparseVector.toParts)

def Words (parts : Nat × List (SparseVector.Parts α)) : Prop :=
  parts.1 < wordLimit ∧ ∀ p ∈ parts.2, p.Words

theorem ofVectors_toParts (s : SparseLines α) :
    ofVectors s.minorDim (s.lines.toList.map SparseVector.toParts) = s := by
  have hsame : SparseVector.Parts.vector ∘ SparseVector.toParts =
      (id : SparseVector α → SparseVector α) := rfl
  rw [ofVectors, List.map_map, hsame, List.map_id, Array.toArray_toList]

theorem toParts_ofVectors (minorDim : Nat) (parts : List (SparseVector.Parts α)) :
    (ofVectors minorDim parts).toParts = (minorDim, parts) := by
  have hsame : SparseVector.toParts ∘ SparseVector.Parts.vector =
      (id : SparseVector.Parts α → SparseVector.Parts α) := rfl
  rw [toParts, ofVectors, List.map_map, hsame, List.map_id]

theorem toParts_words {s : SparseLines α} (h : s.WellFormed) (hminor : s.minorDim < wordLimit) :
    Words s.toParts := by
  refine ⟨hminor, fun p hp k hk => ?_⟩
  obtain ⟨line, hline, rfl⟩ := List.mem_map.mp hp
  exact Nat.lt_trans ((h line (Array.mem_def.mpr hline)).bounded k hk) hminor

section Checks

variable {M : Type} {accept : SparseLines α → Except MatrixError M} {m : M} {s : SparseLines α}

/-- Sound lines are accepted as they are. -/
theorem acceptParts_toParts (h : s.WellFormed) (haccept : accept s = .ok m) :
    acceptParts accept s.toParts.1 s.toParts.2 = .ok m := by
  rw [← ofVectors_toParts s] at h haccept
  exact acceptParts_of_sound (ofVectors_wellFormed_iff.mp h) haccept

/-- What was accepted are lines with the given parts. -/
theorem exists_of_acceptParts {parts : Nat × List (SparseVector.Parts α)}
    (h : acceptParts accept parts.1 parts.2 = .ok m) :
    ∃ s : SparseLines α, accept s = .ok m ∧ s.toParts = parts := by
  obtain ⟨s, hlines, haccept⟩ := exists_of_bind_ok h
  have hparts := ok_of_mapError_ok hlines
  obtain ⟨lines, hread, -⟩ := exists_of_map_ok hparts
  have hvectors : ∀ p ∈ parts.2, p.vector.WellFormed := by
    intro p hp
    obtain ⟨v, hv⟩ := forall_ok_of_mapM_ok hread p hp
    exact SparseVector.vector_wellFormed_of_ofParts hv
  obtain rfl := Except.ok.inj (hparts.symm.trans (ofLineParts_of_wellFormed hvectors))
  exact ⟨_, ok_of_mapError_ok haccept, toParts_ofVectors parts.1 parts.2⟩

end Checks

variable [DocumentElement α] {M : Type}

/-- Matrices of lines as trees. -/
def documents (accept : SparseLines α → Except MatrixError M) :
    Documents Json.Value (Nat × List (SparseVector.Parts α)) M where
  write parts := (ofVectors parts.1 parts.2).toValue
  parts := partsOfValue
  value := Json.checked ofValue .invalid accept

theorem parts_write [ExactElement α] {parts : Nat × List (SparseVector.Parts α)}
    (h : Words parts) : partsOfValue (ofVectors parts.1 parts.2).toValue = .ok parts := by
  obtain ⟨hminor, hindices⟩ := h
  have hlines : Json.list SparseVector.Parts.ofValue
      (.list (parts.2.map fun p => p.vector.toValue)) = .ok parts.2 :=
    Json.list_of_map fun p hp => SparseVector.parts_write (hindices p hp)
  have hrecord := Json.record₂_of_fields (by decide : "lines" ≠ "minor_dim")
    (Json.index_ofNat hminor) hlines
  simp only [partsOfValue, toValue, ofVectors, List.map_map, Function.comp_def]
  exact hrecord

theorem documents_faithful [ExactElement α] (accept : SparseLines α → Except MatrixError M) :
    (documents accept).Faithful Words fun parts => acceptParts accept parts.1 parts.2 where
  parts_write _ hwords := parts_write hwords
  fits_of_parts v parts hread := by
    obtain ⟨⟨_, hminor⟩, ⟨_, hlines⟩⟩ := Json.record₂_fields hread
    refine ⟨Json.lt_of_index hminor, fun p hp => ?_⟩
    obtain ⟨_, hp⟩ := Json.exists_of_mem_list hlines p hp
    exact SparseVector.words_of_parts hp
  value_through := checked_lines_refines accept

end SparseLines

namespace Coordinate

variable {α : Type} {m : Coordinate α}

def Parts.Words (parts : Parts α) : Prop :=
  parts.nrows < wordLimit ∧ parts.ncols < wordLimit ∧
    ∀ t ∈ parts.entries, t.1 < wordLimit ∧ t.2.1 < wordLimit

theorem toParts_words (h : m.WellFormed) (hrows : m.nrows < wordLimit)
    (hcols : m.ncols < wordLimit) : m.toParts.Words := by
  refine ⟨hrows, hcols, ?_⟩
  rintro ⟨i, j, x⟩ ht
  obtain ⟨hi, hj⟩ := lookup_inside h x ((mem_toList h i j x).mp ht)
  exact ⟨Nat.lt_trans hi hrows, Nat.lt_trans hj hcols⟩

variable [DocumentElement α]

/-- Matrices in coordinate form as trees. -/
def documents : Documents Json.Value (Parts α) (Coordinate α) where
  write := Parts.toValue
  parts := Parts.ofValue
  value := ofValue

theorem documents_faithful [ExactElement α] :
    (documents (α := α)).Faithful Parts.Words fun parts =>
      (ofParts parts).mapError .ofBuildFailure where
  parts_write parts := by
    rintro ⟨hrows, hcols, hinside⟩
    have hentry : ∀ t ∈ parts.entries, Json.triple Json.index Json.index Json.element
        (.list [.ofNat t.1, .ofNat t.2.1, DocumentElement.toValue t.2.2]) = .ok t := by
      intro t ht
      obtain ⟨hi, hj⟩ := hinside t ht
      exact Json.triple_of_items (Json.index_ofNat hi) (Json.index_ofNat hj)
        (ExactElement.element_toValue t.2.2)
    have hrecord : Json.record₃ "nrows" "ncols" "entries" Json.index Json.index
        (Json.list (Json.triple Json.index Json.index Json.element)) parts.toValue =
          .ok (parts.nrows, parts.ncols, parts.entries) :=
      Json.record₃_of_fields (by decide) (by decide) (by decide) (Json.index_ofNat hrows)
        (Json.index_ofNat hcols) (Json.list_of_map hentry)
    simp only [documents, Parts.ofValue, hrecord]
    rfl
  fits_of_parts v parts hread := by
    obtain ⟨⟨nrows, ncols, entries⟩, hrecord, rfl⟩ := exists_of_map_ok hread
    obtain ⟨⟨_, hrows⟩, ⟨_, hcols⟩, ⟨_, hentries⟩⟩ := Json.record₃_fields hrecord
    refine ⟨Json.lt_of_index hrows, Json.lt_of_index hcols, fun t ht => ?_⟩
    obtain ⟨_, htriple⟩ := Json.exists_of_mem_list hentries t ht
    obtain ⟨⟨_, hi⟩, ⟨_, hj⟩, -⟩ := Json.triple_fields htriple
    exact ⟨Json.lt_of_index hi, Json.lt_of_index hj⟩
  value_through := Json.checked_refines Parts.ofValue .ofBuildFailure ofParts

end Coordinate

/-- How matrices of every kind and sparse vectors are kept in documents of one
form. -/
structure MatrixDocuments (D α : Type) where
  dense : Documents D (Dense.Parts α) (Dense α)
  row : Documents D (Nat × List (SparseVector.Parts α)) (RowMatrix α)
  col : Documents D (Nat × List (SparseVector.Parts α)) (ColMatrix α)
  coordinate : Documents D (Coordinate.Parts α) (Coordinate α)
  vector : Documents D (SparseVector.Parts α) (SparseVector α)

namespace MatrixDocuments

variable {D α : Type} {docs : MatrixDocuments D α}

/-- What is assumed of the form of documents: numbers that are machine words,
elements, lists and records come back as they were written, lines are read in
their order, and each check is made as soon as its data are there. -/
structure Faithful (docs : MatrixDocuments D α) : Prop where
  dense : docs.dense.Faithful Dense.Parts.Words fun parts =>
    (Dense.ofParts parts).mapError .invalid
  row : docs.row.Faithful SparseLines.Words fun parts =>
    SparseLines.acceptParts RowMatrix.ofLines parts.1 parts.2
  col : docs.col.Faithful SparseLines.Words fun parts =>
    SparseLines.acceptParts ColMatrix.ofLines parts.1 parts.2
  coordinate : docs.coordinate.Faithful Coordinate.Parts.Words fun parts =>
    (Coordinate.ofParts parts).mapError .ofBuildFailure
  vector : docs.vector.Faithful SparseVector.Parts.Words fun parts =>
    (SparseVector.ofParts parts).mapError .invalid

/-- The laws of reading what was written and of writing what was read. Sizes
and indices are machine words. -/
structure RoundTrips (docs : MatrixDocuments D α) : Prop where
  dense_restored : ∀ m : Dense α, (Matrix.dense m).Reachable → m.nrows < wordLimit →
    m.ncols < wordLimit → docs.dense.value (docs.dense.write m.toParts) = .ok m
  row_restored : ∀ m : RowMatrix α, (Matrix.row m).Reachable → m.ncols < wordLimit →
    docs.row.value (docs.row.write m.storage.toParts) = .ok m
  col_restored : ∀ m : ColMatrix α, (Matrix.col m).Reachable → m.nrows < wordLimit →
    docs.col.value (docs.col.write m.storage.toParts) = .ok m
  coordinate_restored : ∀ m : Coordinate α, (Matrix.coordinate m).Reachable →
    m.nrows < wordLimit → m.ncols < wordLimit →
      docs.coordinate.value (docs.coordinate.write m.toParts) = .ok m
  vector_restored : ∀ v : SparseVector α, v.Reachable → (∀ k ∈ v.indices, k < wordLimit) →
    docs.vector.value (docs.vector.write v.toParts) = .ok v
  dense_preserved : ∀ d m, docs.dense.value d = .ok m → docs.dense.parts d = .ok m.toParts ∧
    docs.dense.parts (docs.dense.write m.toParts) = .ok m.toParts
  row_preserved : ∀ d m, docs.row.value d = .ok m → docs.row.parts d = .ok m.storage.toParts ∧
    docs.row.parts (docs.row.write m.storage.toParts) = .ok m.storage.toParts
  col_preserved : ∀ d m, docs.col.value d = .ok m → docs.col.parts d = .ok m.storage.toParts ∧
    docs.col.parts (docs.col.write m.storage.toParts) = .ok m.storage.toParts
  vector_preserved : ∀ d v, docs.vector.value d = .ok v → docs.vector.parts d = .ok v.toParts ∧
    docs.vector.parts (docs.vector.write v.toParts) = .ok v.toParts
  coordinate_collapsed : ∀ d m, docs.coordinate.value d = .ok m →
    ∃ entries, docs.coordinate.parts d = .ok {m.toParts with entries} ∧
      Collapses entries m.toParts.entries ∧
        docs.coordinate.parts (docs.coordinate.write m.toParts) = .ok m.toParts

/-- Lines that a matrix was accepted from are its own. -/
theorem line_preserved {M : Type} {lines : Documents D (Nat × List (SparseVector.Parts α)) M}
    {accept : SparseLines α → Except MatrixError M} (storage : M → SparseLines α)
    (h : lines.Faithful SparseLines.Words fun parts =>
      SparseLines.acceptParts accept parts.1 parts.2)
    (haccept : ∀ s m, accept s = .ok m → storage m = s) {d : D}
    {m : M} (hm : lines.value d = .ok m) : lines.parts d = .ok (storage m).toParts ∧
      lines.parts (lines.write (storage m).toParts) = .ok (storage m).toParts := by
  obtain ⟨parts, hread, hwords, hcheck⟩ := h.exists_parts hm
  obtain ⟨s, hs, rfl⟩ := SparseLines.exists_of_acceptParts hcheck
  obtain rfl := haccept s m hs
  exact ⟨hread, h.parts_write _ hwords⟩

theorem Faithful.roundTrips (h : docs.Faithful) : docs.RoundTrips where
  dense_restored m hm hrows hcols := by
    refine h.dense.value_write ⟨hrows, hcols⟩ ?_
    rw [Dense.ofParts_toParts hm.wellFormed]
    rfl
  row_restored m hm hcols :=
    h.row.value_write (SparseLines.toParts_words hm.wellFormed hcols)
      (SparseLines.acceptParts_toParts hm.wellFormed
        (RowMatrix.ofLines_of_inside (SparseLines.outOfRange?_of_wellFormed hm.wellFormed)))
  col_restored m hm hrows :=
    h.col.value_write (SparseLines.toParts_words hm.wellFormed hrows)
      (SparseLines.acceptParts_toParts hm.wellFormed
        (ColMatrix.ofLines_of_inside (SparseLines.outOfRange?_of_wellFormed hm.wellFormed)))
  coordinate_restored m hm hrows hcols := by
    refine h.coordinate.value_write (Coordinate.toParts_words hm.wellFormed hrows hcols) ?_
    rw [Coordinate.ofParts_toParts hm.wellFormed]
    rfl
  vector_restored v hv hwords := by
    refine h.vector.value_write hwords ?_
    have hparts : v.toParts.vector.WellFormed := hv.wellFormed
    rw [SparseVector.ofParts_of_wellFormed hparts]
    rfl
  dense_preserved d m hm := by
    obtain ⟨parts, hread, hwords, hcheck⟩ := h.dense.exists_parts hm
    obtain rfl := Dense.toParts_of_ofParts (ok_of_mapError_ok hcheck)
    exact ⟨hread, h.dense.parts_write _ hwords⟩
  row_preserved d m hm := by
    refine line_preserved RowMatrix.storage h.row (fun s m hs => ?_) hm
    obtain ⟨-, rfl⟩ := RowMatrix.ofLines_eq_ok_iff.mp hs
    rfl
  col_preserved d m hm := by
    refine line_preserved ColMatrix.storage h.col (fun s m hs => ?_) hm
    obtain ⟨-, rfl⟩ := ColMatrix.ofLines_eq_ok_iff.mp hs
    rfl
  vector_preserved d v hv := by
    obtain ⟨parts, hread, hwords, hcheck⟩ := h.vector.exists_parts hv
    obtain rfl := SparseVector.eq_vector_of_ofParts (ok_of_mapError_ok hcheck)
    exact ⟨hread, h.vector.parts_write _ hwords⟩
  coordinate_collapsed d m hm := by
    obtain ⟨⟨nrows, ncols, entries⟩, hread, ⟨hrows, hcols, -⟩, hcheck⟩ :=
      h.coordinate.exists_parts hm
    obtain ⟨hwf, rfl, rfl, hcollapses⟩ :=
      Coordinate.ofTriplets_collapses (ok_of_mapError_ok hcheck)
    exact ⟨entries, hread, hcollapses,
      h.coordinate.parts_write _ (Coordinate.toParts_words hwf hrows hcols)⟩

variable [DocumentElement α]

/-- Trees. -/
def tree : MatrixDocuments Json.Value α where
  dense := Dense.documents
  row := SparseLines.documents RowMatrix.ofLines
  col := SparseLines.documents ColMatrix.ofLines
  coordinate := Coordinate.documents
  vector := SparseVector.documents

theorem tree_faithful [ExactElement α] : (tree : MatrixDocuments Json.Value α).Faithful where
  dense := Dense.documents_faithful
  row := SparseLines.documents_faithful RowMatrix.ofLines
  col := SparseLines.documents_faithful ColMatrix.ofLines
  coordinate := Coordinate.documents_faithful
  vector := SparseVector.documents_faithful

end MatrixDocuments

/-- The laws of reading what was written and of writing what was read, for
matrices and vectors as trees. -/
structure RoundTrips (α : Type) [DocumentElement α] : Prop where
  dense_restored : ∀ m : Dense α, (Matrix.dense m).Reachable → m.nrows < wordLimit →
    m.ncols < wordLimit → Dense.ofValue m.toValue = .ok m
  row_restored : ∀ m : RowMatrix α, (Matrix.row m).Reachable → m.ncols < wordLimit →
    RowMatrix.ofValue m.toValue = .ok m
  col_restored : ∀ m : ColMatrix α, (Matrix.col m).Reachable → m.nrows < wordLimit →
    ColMatrix.ofValue m.toValue = .ok m
  coordinate_restored : ∀ m : Coordinate α, (Matrix.coordinate m).Reachable →
    m.nrows < wordLimit → m.ncols < wordLimit → Coordinate.ofValue m.toValue = .ok m
  vector_restored : ∀ v : SparseVector α, v.Reachable → (∀ k ∈ v.indices, k < wordLimit) →
    SparseVector.ofValue v.toValue = .ok v
  dense_preserved : ∀ (v : Json.Value) (m : Dense α), Dense.ofValue v = .ok m →
    ∃ parts : Dense.Parts α, Dense.Parts.ofValue v = .ok parts ∧
      Dense.Parts.ofValue m.toValue = .ok parts
  row_preserved : ∀ (v : Json.Value) (m : RowMatrix α), RowMatrix.ofValue v = .ok m →
    ∃ fields : Nat × List (SparseVector.Parts α), SparseLines.partsOfValue v = .ok fields ∧
      SparseLines.partsOfValue m.toValue = .ok fields
  col_preserved : ∀ (v : Json.Value) (m : ColMatrix α), ColMatrix.ofValue v = .ok m →
    ∃ fields : Nat × List (SparseVector.Parts α), SparseLines.partsOfValue v = .ok fields ∧
      SparseLines.partsOfValue m.toValue = .ok fields
  vector_preserved : ∀ (v : Json.Value) (u : SparseVector α), SparseVector.ofValue v = .ok u →
    ∃ parts : SparseVector.Parts α, SparseVector.Parts.ofValue v = .ok parts ∧
      SparseVector.Parts.ofValue u.toValue = .ok parts
  coordinate_collapsed : ∀ (v : Json.Value) (m : Coordinate α), Coordinate.ofValue v = .ok m →
    ∃ (parts : Coordinate.Parts α) (entries : List (Triplet α)),
      Coordinate.Parts.ofValue v = .ok parts ∧ Collapses parts.entries entries ∧
        Coordinate.Parts.ofValue m.toValue = .ok {parts with entries}

theorem SparseLines.write_toParts {α M : Type} [DocumentElement α]
    (accept : SparseLines α → Except MatrixError M) (s : SparseLines α) :
    (documents accept).write s.toParts = s.toValue :=
  congrArg toValue (ofVectors_toParts s)

theorem roundTrips_of_exact (α : Type) [DocumentElement α] [ExactElement α] : RoundTrips α := by
  have laws := (MatrixDocuments.tree_faithful (α := α)).roundTrips
  refine ⟨laws.dense_restored, ?_, ?_, laws.coordinate_restored, laws.vector_restored, ?_, ?_, ?_,
    ?_, ?_⟩
  · intro m hm hcols
    exact (congrArg _ (SparseLines.write_toParts RowMatrix.ofLines m.storage).symm).trans
      (laws.row_restored m hm hcols)
  · intro m hm hrows
    exact (congrArg _ (SparseLines.write_toParts ColMatrix.ofLines m.storage).symm).trans
      (laws.col_restored m hm hrows)
  · intro v m hm
    exact ⟨_, laws.dense_preserved v m hm⟩
  · intro v m hm
    obtain ⟨hread, hwritten⟩ := laws.row_preserved v m hm
    exact ⟨_, hread, (congrArg _ (SparseLines.write_toParts RowMatrix.ofLines m.storage).symm).trans
      hwritten⟩
  · intro v m hm
    obtain ⟨hread, hwritten⟩ := laws.col_preserved v m hm
    exact ⟨_, hread, (congrArg _ (SparseLines.write_toParts ColMatrix.ofLines m.storage).symm).trans
      hwritten⟩
  · intro v u hu
    exact ⟨_, laws.vector_preserved v u hu⟩
  · intro v m hm
    obtain ⟨entries, hread, hcollapses, hwritten⟩ := laws.coordinate_collapsed v m hm
    exact ⟨_, _, hread, hcollapses, hwritten⟩

/-- Documents of matrices and vectors go there and back in every form that
keeps the parts, and so they do as trees with integer elements. -/
theorem integer_documents_round_trip :
    (∀ (D α : Type) (docs : MatrixDocuments D α), docs.Faithful → docs.RoundTrips) ∧
      RoundTrips Int32 ∧ RoundTrips Int64 ∧ RoundTrips UInt32 ∧ RoundTrips UInt64 :=
  ⟨fun _ _ _ h => h.roundTrips, roundTrips_of_exact Int32, roundTrips_of_exact Int64,
    roundTrips_of_exact UInt32, roundTrips_of_exact UInt64⟩

/-- Three triplets, the last one at the position of the first. -/
def overwrittenTriplets : Coordinate Int64 :=
  (((Coordinate.empty 2 3).store 0 1 5).store 1 2 7).store 0 1 9

/-- With an entry erased through a view, they come back from their document. -/
theorem overwritten_triplets_restored :
    Coordinate.ofTriplets 2 3 [(0, 1, 5), (1, 2, 7), (0, 1, 9)] = .ok overwrittenTriplets ∧
      ((View.chain (.coordinate overwrittenTriplets) [.exclusive]).write (.erase 1 0)).2.base =
        .coordinate (overwrittenTriplets.discard 0 1) ∧
      Coordinate.ofValue (overwrittenTriplets.discard 0 1).toValue =
        .ok (overwrittenTriplets.discard 0 1) := by
  have hlaws := integer_documents_round_trip.1 _ Int64 .tree MatrixDocuments.tree_faithful
  have hbuilt : Coordinate.ofTriplets 2 3 [(0, 1, 5), (1, 2, 7), (0, 1, 9)] =
      .ok overwrittenTriplets := Matrix.coordinate_accepts_inside (by decide)
  have hdims : overwrittenTriplets.nrows = 2 ∧ overwrittenTriplets.ncols = 3 := by
    simp [overwrittenTriplets, Coordinate.empty]
  have herase := Coordinate.erase_eq (i := 0) (j := 1) (Matrix.triplets_wellFormed hbuilt)
    (by omega) (by omega)
  have hbase : ((View.chain (.coordinate overwrittenTriplets) [.exclusive]).write
      (.erase 1 0)).2.base = .coordinate (overwrittenTriplets.discard 0 1) := by
    simp [View.chain, View.write, View.writable, View.erase, Matrix.erase, herase, View.modified,
      Except.map, View.base]
  have hreached := (Matrix.Reachable.built (.triplets hbuilt)).written [.exclusive] (.erase 1 0)
  rw [hbase] at hreached
  refine ⟨hbuilt, hbase, hlaws.coordinate_restored _ hreached ?_ ?_⟩
  · simp [hdims.1, wordLimit]
  · simp [hdims.2, wordLimit]

end TransposedViews
