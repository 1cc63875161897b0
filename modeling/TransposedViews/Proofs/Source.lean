import TransposedViews.Proofs.Construction
import TransposedViews.Proofs.Decoding
import TransposedViews.Workspace.Source

namespace TransposedViews

section Documents

variable {α : Type} [DocumentElement α]

/-- The lines of a document were accepted one by one. -/
theorem SparseLines.accepted_of_ofValue {v : Json.Value} {s : SparseLines α}
    (h : SparseLines.ofValue v = .ok s) :
    ∀ line ∈ s.lines, ∃ parts, SparseVector.ofParts parts = .ok line := by
  obtain ⟨⟨minorDim, lines⟩, hrecord, rfl⟩ := exists_of_map_ok h
  obtain ⟨-, u, hlines⟩ := Json.record₂_fields hrecord
  intro line hline
  obtain ⟨w, hw⟩ := Json.exists_of_mem_list hlines line (by simpa using hline)
  obtain ⟨parts, -, hparts⟩ := Json.exists_of_checked hw
  exact ⟨parts, hparts⟩

end Documents

namespace Source

variable {α : Type} [DocumentElement α] {m : Matrix α} {calls : Option (List (Nat × Nat))}

/-- Whether a buffer can be allocated for a matrix that is filled position by
position. -/
def Allocates : Source α → Prop
  | .zeros nrows ncols | .cycle nrows ncols _ => nrows * ncols < wordLimit
  | _ => True

theorem accepted_of_ofResult {kind : Kind} {nrows ncols : Nat}
    {result : Except BuildFailure (Matrix α)}
    (h : (ofResult kind nrows ncols result).result = .ok (m, calls)) : result = .ok m := by
  obtain ⟨n, hresult, heq⟩ := exists_of_map_ok (ok_of_mapError_ok h)
  cases heq
  exact hresult

theorem accepted_of_ofDocument {π : Type} {kind : Kind} {parts : Json.Decoder π}
    {dims : π → Nat × Nat} {accept : π → Except BuildFailure (Matrix α)} {text : String}
    (h : (ofDocument kind parts dims accept text).result = .ok (m, calls)) :
    ∃ data, accept data = .ok m := by
  obtain ⟨n, hdecode, heq⟩ := exists_of_map_ok (ok_of_mapError_ok h)
  cases heq
  obtain ⟨v, hv⟩ := Json.exists_of_decode hdecode
  obtain ⟨data, -, haccept⟩ := Json.exists_of_checked hv
  exact ⟨data, haccept⟩

omit [DocumentElement α] in
theorem decoded_of_ofLines {μ : Type} {decoder : Json.Decoder μ} {matrix : μ → Matrix α}
    {text : String} (h : (ofLines decoder matrix text).result = .ok (m, calls)) :
    ∃ v x, decoder v = .ok x ∧ matrix x = m := by
  obtain ⟨x, hdecode, heq⟩ := exists_of_map_ok (ok_of_mapError_ok h)
  cases heq
  obtain ⟨v, hv⟩ := Json.exists_of_decode hdecode
  exact ⟨v, x, hv, rfl⟩

theorem buildDense_built {source : Source α} (hfits : source.Allocates)
    (h : (buildDense source).result = .ok (m, calls)) : m.Built := by
  cases source with
  | zeros nrows ncols =>
      cases accepted_of_ofResult h
      exact .generated hfits _ _
  | rowMajor nrows ncols values =>
      obtain ⟨d, hd, rfl⟩ := exists_of_map_ok (ok_of_mapError_ok (accepted_of_ofResult h))
      exact .rowMajor hd
  | cycle nrows ncols values =>
      cases h
      exact .generated hfits _ _
  | document text =>
      obtain ⟨parts, hparts⟩ := accepted_of_ofDocument h
      obtain ⟨d, hd, rfl⟩ := exists_of_map_ok (ok_of_mapError_ok hparts)
      exact .rowMajor hd
  | _ => cases h

theorem buildRow_built {source : Source α} (h : (buildRow source).result = .ok (m, calls)) :
    m.Built := by
  cases source with
  | empty nrows ncols =>
      cases h
      exact .emptyRows nrows ncols
  | triplets nrows ncols entries =>
      obtain ⟨r, hr, rfl⟩ := exists_of_map_ok (accepted_of_ofResult h)
      exact .rowTriplets hr
  | document text =>
      obtain ⟨v, r, hv, rfl⟩ := decoded_of_ofLines h
      obtain ⟨storage, hstorage, hr⟩ := Json.exists_of_checked hv
      exact .rowLines (SparseLines.accepted_of_ofValue hstorage) hr
  | _ => cases h

theorem buildCol_built {source : Source α} (h : (buildCol source).result = .ok (m, calls)) :
    m.Built := by
  cases source with
  | empty nrows ncols =>
      cases h
      exact .emptyCols nrows ncols
  | triplets nrows ncols entries =>
      obtain ⟨c, hc, rfl⟩ := exists_of_map_ok (accepted_of_ofResult h)
      exact .colTriplets hc
  | document text =>
      obtain ⟨v, c, hv, rfl⟩ := decoded_of_ofLines h
      obtain ⟨storage, hstorage, hc⟩ := Json.exists_of_checked hv
      exact .colLines (SparseLines.accepted_of_ofValue hstorage) hc
  | _ => cases h

theorem buildCoordinate_built {source : Source α}
    (h : (buildCoordinate source).result = .ok (m, calls)) : m.Built := by
  cases source with
  | empty nrows ncols =>
      cases h
      exact .emptyCoordinate nrows ncols
  | triplets nrows ncols entries =>
      obtain ⟨c, hc, rfl⟩ := exists_of_map_ok (accepted_of_ofResult h)
      exact .triplets hc
  | parts nrows ncols entries =>
      obtain ⟨c, hc, rfl⟩ := exists_of_map_ok (accepted_of_ofResult h)
      exact .parts hc
  | document text =>
      obtain ⟨parts, hparts⟩ := accepted_of_ofDocument h
      obtain ⟨c, hc, rfl⟩ := exists_of_map_ok hparts
      exact .parts hc
  | _ => cases h

/-- Whatever a source builds could have been built by a constructor. -/
theorem build_built {kind : Kind} {source : Source α} (hfits : source.Allocates)
    (h : (build kind source).result = .ok (m, calls)) : m.Built := by
  cases kind with
  | dense => exact buildDense_built hfits h
  | row => exact buildRow_built h
  | col => exact buildCol_built h
  | coordinate => exact buildCoordinate_built h

end Source

end TransposedViews
