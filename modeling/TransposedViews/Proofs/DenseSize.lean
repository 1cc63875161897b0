import TransposedViews.Document
import TransposedViews.Proofs.Decoding
import TransposedViews.Proofs.Dense

namespace TransposedViews

namespace Dense

variable {α : Type} {m : Dense α} {nrows ncols : Nat} {data : Array α}

/-- Row-major offsets in machine arithmetic: multiplying and adding words cuts
nothing off, the offset is the one that access uses and lies in the buffer, and
offsets number the positions without a gap and without repetition. -/
structure OffsetsExact (m : Dense α) : Prop where
  product_fits : ∀ i j, i < m.nrows → j < m.ncols → i * m.ncols < wordLimit
  sum_fits : ∀ i j, i < m.nrows → j < m.ncols → i * m.ncols + j < wordLimit
  word_eq : ∀ i j, i < m.nrows → j < m.ncols →
    (UInt64.ofNat i * UInt64.ofNat m.ncols + UInt64.ofNat j).toNat = i * m.ncols + j
  offset_eq : ∀ i j, i < m.nrows → j < m.ncols → m.offset i j = i * m.ncols + j
  inside : ∀ i j, i < m.nrows → j < m.ncols → i * m.ncols + j < m.data.size
  distinct : ∀ i j a b, i < m.nrows → j < m.ncols → a < m.nrows → b < m.ncols →
    i * m.ncols + j = a * m.ncols + b → i = a ∧ j = b
  covering : ∀ k < m.data.size, ∃ i j, i < m.nrows ∧ j < m.ncols ∧ i * m.ncols + j = k

/-- Word arithmetic is exact as long as the numbers are words. -/
theorem toNat_offset {i j : Nat} (hfits : i * ncols + j < wordLimit) (hi : i < wordLimit)
    (hcols : ncols < wordLimit) :
    (UInt64.ofNat i * UInt64.ofNat ncols + UInt64.ofNat j).toNat = i * ncols + j := by
  have hword : wordLimit = 2 ^ 64 := rfl
  rw [hword] at hfits hi hcols
  have hj : j < 2 ^ 64 := by omega
  have hproduct : i * ncols < 2 ^ 64 := by omega
  rw [UInt64.toNat_add, UInt64.toNat_mul, UInt64.toNat_ofNat_of_lt' hi,
    UInt64.toNat_ofNat_of_lt' hcols, UInt64.toNat_ofNat_of_lt' hj, Nat.mod_eq_of_lt hproduct,
    Nat.mod_eq_of_lt hfits]

theorem WellFormed.offsetsExact (h : m.WellFormed) : m.OffsetsExact := by
  have hsum : ∀ i j, i < m.nrows → j < m.ncols → i * m.ncols + j < wordLimit := by
    intro i j hi hj
    exact Nat.lt_trans (offset_lt hi hj) h.fits
  refine ⟨?_, hsum, ?_, ?_, ?_, ?_, ?_⟩
  · intro i j hi hj
    exact Nat.lt_of_le_of_lt (Nat.le_add_right _ j) (hsum i j hi hj)
  · intro i j hi hj
    -- a matrix that has a position is no larger in either direction than in all
    have hrows : m.nrows ≤ m.nrows * m.ncols := Nat.le_mul_of_pos_right _ (by omega)
    have hcols : m.ncols ≤ m.nrows * m.ncols := Nat.le_mul_of_pos_left _ (by omega)
    have hfits := h.fits
    exact toNat_offset (hsum i j hi hj) (by omega) (by omega)
  · intro i j hi hj
    exact Nat.mod_eq_of_lt (hsum i j hi hj)
  · intro i j hi hj
    rw [h.size_eq]
    exact offset_lt hi hj
  · intro i j a b _ hj _ hb heq
    constructor
    · rw [← offset_div (i := i) hj, heq, offset_div hb]
    · rw [← offset_mod (i := i) hj, heq, offset_mod hb]
  · intro k hk
    rw [h.size_eq] at hk
    exact ⟨k / m.ncols, k % m.ncols, position_of_cell hk⟩

/-- How the mathematical product of two dimensions decides what becomes of
data: they are accepted as they are, too large in size, or wrong in number. -/
structure SizeDecides {ε : Type} (report : MatrixError → ε) (nrows ncols : Nat) (data : Array α)
    (result : Except ε (Dense α)) : Prop where
  accepted_iff : (∃ m, result = .ok m) ↔ nrows * ncols < wordLimit ∧ nrows * ncols = data.size
  accepted_eq : ∀ m, result = .ok m → m = ⟨nrows, ncols, data⟩
  overflow : wordLimit ≤ nrows * ncols → result = .error (report (.sizeOverflow nrows ncols))
  mismatch : nrows * ncols < wordLimit → nrows * ncols ≠ data.size →
    result = .error (report (.dimensionMismatch (nrows * ncols) data.size))
  offsets_exact : ∀ m, result = .ok m → m.OffsetsExact

theorem ofArray_of_overflow (h : wordLimit ≤ nrows * ncols) :
    ofArray nrows ncols data = .error (.sizeOverflow nrows ncols) := by
  have hlarge : ¬ nrows * ncols < wordLimit := by omega
  simp [ofArray, validateDenseLen, checkedLen, hlarge, Except.map]

theorem ofArray_of_mismatch (hfits : nrows * ncols < wordLimit) (h : nrows * ncols ≠ data.size) :
    ofArray nrows ncols data = .error (.dimensionMismatch (nrows * ncols) data.size) := by
  simp [ofArray, validateDenseLen, checkedLen, hfits, h, Except.map]

theorem ofArray_of_size_eq (hfits : nrows * ncols < wordLimit) (h : nrows * ncols = data.size) :
    ofArray nrows ncols data = .ok ⟨nrows, ncols, data⟩ := by
  rw [h] at hfits
  simp [ofArray, validateDenseLen, checkedLen, h, hfits, Except.map]

/-- The check of dimensions and data, whatever its errors are reported as. -/
theorem sizeDecides {ε : Type} (report : MatrixError → ε) :
    SizeDecides report nrows ncols data ((ofArray nrows ncols data).mapError report) := by
  rcases Nat.lt_or_ge (nrows * ncols) wordLimit with hfits | hlarge
  · rcases eq_or_ne (nrows * ncols) data.size with hsize | hsize
    · have hofArray := ofArray_of_size_eq hfits hsize
      rw [hofArray]
      constructor
      · exact ⟨fun _ => ⟨hfits, hsize⟩, fun _ => ⟨_, rfl⟩⟩
      · intro m hm
        cases hm
        rfl
      · intro hlarge
        omega
      · intro _ hne
        exact absurd hsize hne
      · intro m hm
        cases hm
        exact (ofArray_wellFormed hofArray).offsetsExact
    · rw [ofArray_of_mismatch hfits hsize]
      refine ⟨⟨nofun, fun h => absurd h.2 hsize⟩, nofun, ?_, fun _ _ => rfl, nofun⟩
      intro hlarge
      omega
  · rw [ofArray_of_overflow hlarge]
    refine ⟨⟨nofun, ?_⟩, nofun, fun _ => rfl, ?_, nofun⟩
    · rintro ⟨hfits, -⟩
      omega
    · intro hfits
      omega

section Documents

variable {D : Type} {parts : D → Except Json.DocumentError (Parts α)}
  {value : D → Except Json.DocumentError (Dense α)} {d : D}

theorem sizeDecides_of_readsThrough
    (h : Json.ReadsThrough (fun p => (ofParts p).mapError .invalid) parts value)
    (hparts : parts d = .ok ⟨nrows, ncols, data⟩) :
    SizeDecides .invalid nrows ncols data (value d) := by
  rw [(h d).eq_of_ok hparts]
  exact sizeDecides Json.DocumentError.invalid

/-- A matrix that was read has the parts of its document. -/
theorem parts_of_value
    (h : Json.ReadsThrough (fun p => (ofParts p).mapError .invalid) parts value)
    (hvalue : value d = .ok ⟨nrows, ncols, data⟩) : parts d = .ok ⟨nrows, ncols, data⟩ := by
  obtain ⟨p, hparts, haccept⟩ := (h d).exists_of_ok hvalue
  have hsame := (sizeDecides Json.DocumentError.invalid).accepted_eq _ haccept
  cases hsame
  exact hparts

end Documents

/-- Dimensions and data, handed over or read from a document, give a dense
matrix if the product of the dimensions is a machine word and the number of the
elements. A product that is no word is reported as such even if it wraps to the
number of elements, and in every matrix that was accepted offsets are exact. A
document gives nothing but what it holds. Of documents it matters only that the
check is made on the parts that were read, as it is for trees and for texts. -/
theorem size_arithmetic_exact (nrows ncols : Nat) (data : Array α) :
    SizeDecides id nrows ncols data (ofArray nrows ncols data) ∧
      (∀ (D : Type) (parts : D → Except Json.DocumentError (Parts α))
          (value : D → Except Json.DocumentError (Dense α)),
        Json.ReadsThrough (fun p => (ofParts p).mapError .invalid) parts value → ∀ d,
          (parts d = .ok ⟨nrows, ncols, data⟩ →
            SizeDecides .invalid nrows ncols data (value d)) ∧
          (value d = .ok ⟨nrows, ncols, data⟩ → parts d = .ok ⟨nrows, ncols, data⟩)) ∧
      ∀ [DocumentElement α],
        (∀ v, Parts.ofValue v = .ok ⟨nrows, ncols, data⟩ →
          SizeDecides .invalid nrows ncols data (ofValue v)) ∧
        (∀ text, Json.decode Parts.ofValue text = .ok ⟨nrows, ncols, data⟩ →
          SizeDecides .invalid nrows ncols data (Json.decode ofValue text)) ∧
        (∀ text, Json.decode ofValue text = .ok ⟨nrows, ncols, data⟩ →
          Json.decode Parts.ofValue text = .ok ⟨nrows, ncols, data⟩) := by
  refine ⟨?_, ?_, ?_⟩
  · have hsame : (ofArray nrows ncols data).mapError id = ofArray nrows ncols data := by
      cases ofArray nrows ncols data <;> rfl
    rw [← hsame]
    exact sizeDecides id
  · intro D parts value hthrough d
    exact ⟨sizeDecides_of_readsThrough hthrough, parts_of_value hthrough⟩
  · intro _
    have htree := Json.checked_refines (Parts.ofValue (α := α)) .invalid ofParts
    have htext := Json.decode_refines htree
    refine ⟨?_, ?_, ?_⟩
    · intro v hv
      exact sizeDecides_of_readsThrough htree hv
    · intro text hparts
      exact sizeDecides_of_readsThrough htext hparts
    · intro text hvalue
      exact parts_of_value htext hvalue

/-- A document of four thousand million rows and columns without data. The
number of its positions is two to the power of 64, which wraps to nothing. -/
def wrappingDocument : String :=
  "\x7b\"nrows\":4294967296,\"ncols\":4294967296,\"data\":[]\x7d"

theorem wrapping_size_refused :
    ofArray (α := Int64) 4294967296 4294967296 #[] =
        .error (.sizeOverflow 4294967296 4294967296) ∧
      Json.decode (ofValue (α := Int64)) wrappingDocument =
        .error (.invalid (.sizeOverflow 4294967296 4294967296)) := by
  have hread : Json.decode (Parts.ofValue (α := Int64)) wrappingDocument =
      .ok ⟨4294967296, 4294967296, #[]⟩ := by decide +kernel
  have hlarge : wordLimit ≤ 4294967296 * 4294967296 := by decide
  obtain ⟨hdata, -, hdocument⟩ := size_arithmetic_exact (α := Int64) 4294967296 4294967296 #[]
  exact ⟨hdata.overflow hlarge, (hdocument.2.1 _ hread).overflow hlarge⟩

end Dense

end TransposedViews
