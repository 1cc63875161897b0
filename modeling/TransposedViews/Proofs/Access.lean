import TransposedViews.Proofs.Parity

/-!
Access by position through chains of views. Bounds are checked by the matrix
at the base alone, after every view on the way has exchanged row and column,
so the refusal names the position in the frame of the base. It comes exactly
for positions outside the view, it is the only one there is, and neither the
matrix nor the place that a fetched entry goes to is touched.
-/

namespace TransposedViews

namespace View

variable {α : Type} {v : View α} {i j : Nat}

/-- The refusal of a position, in the frame of the base. -/
def refusal : View α → Nat → Nat → Fault
  | .whole m, i, j => .position i j m.nrows m.ncols
  | .transposed _ v, i, j => v.refusal j i

theorem refusal_eq (v : View α) (i j : Nat) :
    (v.Aligned → v.refusal i j = .position i j v.base.nrows v.base.ncols) ∧
      (¬ v.Aligned → v.refusal i j = .position j i v.base.nrows v.base.ncols) := by
  induction v generalizing i j with
  | whole m =>
      constructor
      · intro _
        rfl
      · intro hodd
        exact absurd rfl hodd
  | transposed access v ih =>
      rw [aligned_transposed, not_not]
      exact ⟨(ih j i).2, (ih j i).1⟩

/-- The outcome of an access by position that is refused outside the view, for
no other reason and in no other frame. -/
def RefusedOutside (v : View α) (i j : Nat) (result : Except Fault β) : Prop :=
  ∀ fault, result = .error fault ↔ (v.nrows ≤ i ∨ v.ncols ≤ j) ∧ fault = v.refusal i j

section Refused

variable {β : Type} {result : Except Fault β}

theorem RefusedOutside.transposed (h : v.RefusedOutside j i result) (access : Access) :
    (transposed access v).RefusedOutside i j result := by
  intro fault
  rw [nrows, ncols, refusal, or_comm]
  exact h fault

/-- What the matrix at the base answers decides it. -/
theorem refusedOutside_whole {m : Matrix α}
    (hinside : i < m.nrows → j < m.ncols → ∃ x, result = .ok x)
    (houtside : ¬ (i < m.nrows ∧ j < m.ncols) →
      result = .error (.position i j m.nrows m.ncols)) :
    (whole m).RefusedOutside i j result := by
  intro fault
  rw [nrows, ncols, refusal]
  by_cases h : i < m.nrows ∧ j < m.ncols
  · obtain ⟨x, rfl⟩ := hinside h.1 h.2
    constructor
    · intro heq
      cases heq
    · intro hout
      omega
  · rw [houtside h, Except.error.injEq, eq_comm]
    constructor
    · intro heq
      exact ⟨by omega, heq⟩
    · exact fun hout => hout.2

end Refused

section Access

theorem entry_refusedOutside (h : v.base.WellFormed) (i j : Nat) :
    v.RefusedOutside i j (v.entry i j) := by
  induction v generalizing i j with
  | whole m =>
      refine refusedOutside_whole ?_ (Matrix.entry_outside m)
      intro hi hj
      exact ⟨_, Matrix.entry_inside h hi hj⟩
  | transposed access v ih => exact (ih h j i).transposed access

theorem set_refusedOutside (h : v.base.WellFormed) (i j : Nat) (x : α) :
    v.RefusedOutside i j (v.set i j x).1 := by
  induction v generalizing i j with
  | whole m =>
      refine refusedOutside_whole ?_ fun hout => congrArg Prod.fst (Matrix.set_outside m hout x)
      intro hi hj
      obtain ⟨m', hset, -⟩ := Matrix.set_inside h hi hj x
      exact ⟨(), congrArg Prod.fst hset⟩
  | transposed access v ih => exact (ih h j i).transposed access

theorem erase_refusedOutside (h : v.base.WellFormed) (i j : Nat) :
    v.RefusedOutside i j (v.erase i j).1 := by
  induction v generalizing i j with
  | whole m =>
      refine refusedOutside_whole ?_ fun hout => congrArg Prod.fst (Matrix.erase_outside m hout)
      intro hi hj
      obtain ⟨m', herase, -⟩ := Matrix.erase_inside h hi hj
      exact ⟨(), congrArg Prod.fst herase⟩
  | transposed access v ih => exact (ih h j i).transposed access

/-- A fetch is refused where the entry is. -/
theorem fetch_refusedOutside (h : v.base.WellFormed) (x : α) (i j : Nat) :
    v.RefusedOutside i j (v.fetch x i j).1 := by
  intro fault
  rw [← entry_refusedOutside h i j fault]
  have hagrees := v.fetchAgrees
  cases hentry : v.entry i j with
  | error refusal =>
      rw [hagrees.refused i j refusal hentry x, Except.error.injEq, Except.error.injEq]
  | ok found =>
      cases found with
      | none => simp [hagrees.absent i j hentry x]
      | some y => simp [hagrees.found i j y hentry x]

/-- Outside the view nothing is set, in whichever frame the check is made. -/
theorem set_outside (v : View α) (houtside : v.nrows ≤ i ∨ v.ncols ≤ j) (x : α) :
    v.set i j x = (.error (v.refusal i j), v) := by
  induction v generalizing i j with
  | whole m =>
      simp only [nrows, ncols] at houtside
      rw [set, Matrix.set_outside m (by omega) x]
      rfl
  | transposed access v ih =>
      rw [set, ih houtside.symm]
      rfl

theorem erase_outside (v : View α) (houtside : v.nrows ≤ i ∨ v.ncols ≤ j) :
    v.erase i j = (.error (v.refusal i j), v) := by
  induction v generalizing i j with
  | whole m =>
      simp only [nrows, ncols] at houtside
      rw [erase, Matrix.erase_outside m (by omega)]
      rfl
  | transposed access v ih =>
      rw [erase, ih houtside.symm]
      rfl

/-- Inside the view a modification is accepted. -/
theorem RefusedOutside.accepted {result : Except Fault Unit} (h : v.RefusedOutside i j result)
    (hi : i < v.nrows) (hj : j < v.ncols) : result = .ok () := by
  cases hresult : result with
  | error fault =>
      have houtside := ((h fault).mp hresult).1
      omega
  | ok _ => rfl

end Access

/-- Access at `(i, j)` through a view, where `(a, b)` is the same position in
the frame of the matrix at the base: each of the four operations is refused
exactly outside the view, for this position and with this text only. A refused
modification leaves the view and everything below it as it was, and a refused
fetch leaves the place that the entry would have gone to. -/
structure RefusesOutside (m : Matrix α) (v : View α) (i j a b : Nat) : Prop where
  entry_refused_iff : ∀ fault, v.entry i j = .error fault ↔
    (v.nrows ≤ i ∨ v.ncols ≤ j) ∧ fault = .position a b m.nrows m.ncols
  fetch_refused_iff : ∀ x fault, (v.fetch x i j).1 = .error fault ↔
    (v.nrows ≤ i ∨ v.ncols ≤ j) ∧ fault = .position a b m.nrows m.ncols
  set_refused_iff : ∀ x fault, (v.set i j x).1 = .error fault ↔
    (v.nrows ≤ i ∨ v.ncols ≤ j) ∧ fault = .position a b m.nrows m.ncols
  erase_refused_iff : ∀ fault, (v.erase i j).1 = .error fault ↔
    (v.nrows ≤ i ∨ v.ncols ≤ j) ∧ fault = .position a b m.nrows m.ncols
  text_eq : (Fault.position a b m.nrows m.ncols).message =
    s!"Index ({a}, {b}) out of bounds for {m.nrows}x{m.ncols} matrix"
  place_kept : v.nrows ≤ i ∨ v.ncols ≤ j → ∀ x, (v.fetch x i j).2 = x
  set_kept : v.nrows ≤ i ∨ v.ncols ≤ j → ∀ x, (v.set i j x).2 = v
  erase_kept : v.nrows ≤ i ∨ v.ncols ≤ j → (v.erase i j).2 = v
  write_refused : v.writable = true → v.nrows ≤ i ∨ v.ncols ≤ j →
    (∀ x, v.write (.set i j x) = (.error (.fault (.position a b m.nrows m.ncols)), v)) ∧
      v.write (.erase i j) = (.error (.fault (.position a b m.nrows m.ncols)), v)
  write_accepted : v.writable = true → i < v.nrows → j < v.ncols →
    (∀ x, (v.write (.set i j x)).1 = .ok .done) ∧ (v.write (.erase i j)).1 = .ok .done

theorem refusesOutside_of_refusal {m : Matrix α} {a b : Nat} (h : v.base.WellFormed)
    (hrefusal : v.refusal i j = .position a b m.nrows m.ncols) :
    RefusesOutside m v i j a b where
  entry_refused_iff := by
    rw [← hrefusal]
    exact entry_refusedOutside h i j
  fetch_refused_iff := by
    rw [← hrefusal]
    intro x
    exact fetch_refusedOutside h x i j
  set_refused_iff := by
    rw [← hrefusal]
    intro x
    exact set_refusedOutside h i j x
  erase_refused_iff := by
    rw [← hrefusal]
    exact erase_refusedOutside h i j
  text_eq := rfl
  place_kept houtside x := by
    have hentry := (entry_refusedOutside h i j _).mpr ⟨houtside, rfl⟩
    rw [v.fetchAgrees.refused i j _ hentry x]
  set_kept houtside x := by rw [set_outside v houtside x]
  erase_kept houtside := by rw [erase_outside v houtside]
  write_refused hwritable houtside := by
    simp only [write, hwritable, if_true, ← hrefusal, set_outside v houtside,
      erase_outside v houtside]
    exact ⟨fun _ => rfl, rfl⟩
  write_accepted hwritable hi hj := by
    simp only [write, hwritable, if_true, modified, Prod.map_fst]
    constructor
    · intro x
      rw [(set_refusedOutside h i j x).accepted hi hj]
      rfl
    · rw [(erase_refusedOutside h i j).accepted hi hj]
      rfl

/-- Through any chain of views over a reachable matrix, reading, fetching,
setting and erasing are refused exactly outside the outermost view. The
refusal names the position as the matrix at the base sees it, with exchanged
indices for a chain of odd length, and changes nothing. The cell of an accepted
position of a dense matrix is computed without overflow. -/
theorem refuses_outside_chain {m : Matrix α} (h : m.Reachable) (accesses : List Access)
    (i j : Nat) :
    (accesses.length % 2 = 0 → RefusesOutside m (chain m accesses) i j i j) ∧
      (accesses.length % 2 = 1 → RefusesOutside m (chain m accesses) i j j i) ∧
      ∀ d : Dense α, m = .dense d → i < d.nrows → j < d.ncols →
        i * d.ncols + j < wordLimit ∧ d.cell i j = .ok (i * d.ncols + j) ∧
          i * d.ncols + j < d.data.size := by
  have hbase : (chain m accesses).base.WellFormed := by
    rw [base_chain]
    exact h.wellFormed
  obtain ⟨heven, hodd⟩ := refusal_eq (chain m accesses) i j
  rw [chain_aligned_iff, base_chain] at heven hodd
  refine ⟨?_, ?_, ?_⟩
  · intro hlength
    exact refusesOutside_of_refusal hbase (heven hlength)
  · intro hlength
    exact refusesOutside_of_refusal hbase (hodd (by omega))
  · rintro d rfl hi hj
    have hwf : d.WellFormed := h.wellFormed
    obtain ⟨hcell, hlt⟩ := Dense.cell_eq hwf hi hj
    have hfits := hwf.fits
    have hsize := hwf.size_eq
    exact ⟨by omega, hcell, hlt⟩

/-- The corner of a matrix of two rows and three columns seen through three
views: setting at row two, column three is refused as row three, column two of
the matrix, and a value to be fetched there stays. -/
theorem corner_refused_through_three_views :
    cornerOnly.Reachable ∧
      (chain cornerOnly [.exclusive, .exclusive, .exclusive]).write (.set 2 3 9) =
        (.error (.fault (.position 3 2 2 3)),
          chain cornerOnly [.exclusive, .exclusive, .exclusive]) ∧
      (chain cornerOnly [.exclusive, .exclusive, .exclusive]).fetch 7 2 3 =
        (.error (.position 3 2 2 3), 7) ∧
      (Fault.position 3 2 2 3).message = "Index (3, 2) out of bounds for 2x3 matrix" := by
  obtain ⟨-, hodd, -⟩ := refuses_outside_chain cornerOnly_reachable
    [.exclusive, .exclusive, .exclusive] 2 3
  have hlaws := hodd rfl
  have houtside : (chain cornerOnly [.exclusive, .exclusive, .exclusive]).nrows ≤ 2 ∨
      (chain cornerOnly [.exclusive, .exclusive, .exclusive]).ncols ≤ 3 := Or.inr (by decide)
  refine ⟨cornerOnly_reachable, (hlaws.write_refused rfl houtside).1 9,
    Prod.ext ((hlaws.fetch_refused_iff 7 _).mpr ⟨houtside, rfl⟩) (hlaws.place_kept houtside 7), ?_⟩
  rfl

end View

end TransposedViews
