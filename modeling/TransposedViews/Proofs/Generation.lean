import TransposedViews.Proofs.DenseSize
import TransposedViews.Proofs.Enumeration

namespace TransposedViews

section Calls

variable {σ ι κ β : Type} {g : ι → StateM σ β} {s s' : σ} {log : List (ι × β)}

/-- Calls made one after the other, each in the state that the one before has
left, with the arguments and the values they returned. -/
inductive Calls (g : ι → StateM σ β) : σ → List (ι × β) → σ → Prop where
  | done (s : σ) : Calls g s [] s
  | call (item : ι) {s s' : σ} {log : List (ι × β)} (h : Calls g (g item s).2 log s') :
      Calls g s ((item, (g item s).1) :: log) s'

theorem exists_calls (g : ι → StateM σ β) (items : List ι) (s : σ) :
    ∃ log, log.map Prod.fst = items ∧ log.map Prod.snd = (items.mapM g s).1 ∧
      Calls g s log (items.mapM g s).2 := by
  induction items generalizing s with
  | nil => exact ⟨[], rfl, rfl, .done s⟩
  | cons item items ih =>
      obtain ⟨log, hitems, hvalues, hcalls⟩ := ih (g item s).2
      rw [List.mapM_cons]
      exact ⟨(item, (g item s).1) :: log, congrArg (item :: ·) hitems,
        congrArg ((g item s).1 :: ·) hvalues, .call item hcalls⟩

/-- A function that also notes each of its calls. -/
def noting (g : ι → StateM σ β) (item : ι) : StateM (σ × List (ι × β)) β :=
  fun (s, log) => ((g item s).1, ((g item s).2, log ++ [(item, (g item s).1)]))

/-- What is noted are the calls that are made. -/
theorem Calls.noted (h : Calls g s log s') (before : List (ι × β)) :
    (log.map Prod.fst).mapM (noting g) (s, before) = (log.map Prod.snd, (s', before ++ log)) := by
  induction h generalizing before with
  | done s => rw [List.append_nil]; rfl
  | @call item s s' log h ih =>
      have hrest := ih (before ++ [(item, (g item s).1)])
      rw [List.append_assoc, List.singleton_append] at hrest
      rw [List.map_cons, List.mapM_cons]
      exact congrArg (fun rest => ((g item s).1 :: rest.1, rest.2)) hrest

/-- Two nested loops make the calls of one loop over the pairs. -/
theorem mapM_nested (outer : List ι) (inner : List κ) (g : ι → κ → StateM σ β) :
    (do
      let rows ← outer.mapM fun i => inner.mapM fun j => g i j
      return rows.flatten) =
      (outer.flatMap fun i => inner.map fun j => (i, j)).mapM fun p => g p.1 p.2 := by
  induction outer with
  | nil => rfl
  | cons i outer ih =>
      rw [List.flatMap_cons, List.mapM_append, ← ih, List.mapM_map]
      simp only [List.mapM_cons, bind_assoc, pure_bind, List.flatten_cons, Function.comp_def]

end Calls

namespace Dense

variable {α σ : Type} {nrows ncols : Nat}

/-- All positions of a shape, row by row. -/
def rowMajor (nrows ncols : Nat) : List (Nat × Nat) :=
  (List.range nrows).flatMap fun i => (List.range ncols).map fun j => (i, j)

/-- Generating is calling for every position, row by row, and keeping the
values in the order they come in. -/
theorem generate_eq (nrows ncols : Nat) (f : Nat → Nat → StateM σ α) :
    generate nrows ncols f = do
      let values ← (rowMajor nrows ncols).mapM fun p => f p.1 p.2
      return ⟨nrows, ncols, values.toArray⟩ := by
  unfold generate
  by_cases hncols : ncols = 0
  · subst hncols
    have hempty : rowMajor nrows 0 = [] := List.flatMap_eq_nil_iff.mpr fun _ _ => rfl
    rw [if_pos rfl, hempty]
    rfl
  · rw [if_neg hncols, rowMajor, ← mapM_nested, bind_assoc]
    simp only [pure_bind]

theorem run_generate (f : Nat → Nat → StateM σ α) (s : σ) :
    (generate nrows ncols f).run s =
      (⟨nrows, ncols, ((rowMajor nrows ncols).mapM (fun p => f p.1 p.2) s).1.toArray⟩,
        ((rowMajor nrows ncols).mapM (fun p => f p.1 p.2) s).2) := by
  rw [generate_eq]
  rfl

theorem rowMajor_nodup (nrows ncols : Nat) : (rowMajor nrows ncols).Nodup :=
  List.nodup_range.product List.nodup_range

theorem mem_rowMajor {i j : Nat} : (i, j) ∈ rowMajor nrows ncols ↔ i < nrows ∧ j < ncols := by
  rw [← List.mem_range, ← List.mem_range (n := ncols)]
  exact List.pair_mem_product

/-- A position has the value that was kept as many places down the list as the
position is. -/
theorem lookup_of_rowMajor {m : Dense α} (h : m.WellFormed) {log : List ((Nat × Nat) × α)}
    (hpositions : log.map Prod.fst = rowMajor m.nrows m.ncols)
    (hvalues : m.data.toList = log.map Prod.snd) {i j : Nat} {x : α} (hmem : ((i, j), x) ∈ log) :
    m.lookup i j = some x := by
  obtain ⟨k, hget⟩ := List.mem_iff_getElem?.mp hmem
  have hposition : (rowMajor m.nrows m.ncols)[k]? = some (i, j) := by
    rw [← hpositions, List.getElem?_map, hget]
    rfl
  have hvalue : m.data[k]? = some x := by
    rw [← Array.getElem?_toList, hvalues, List.getElem?_map, hget]
    rfl
  have hk : k < m.nrows * m.ncols := by
    rw [← h.size_eq]
    exact (Array.getElem?_eq_some_iff.mp hvalue).1
  obtain ⟨hi, hj, hcell⟩ := position_of_cell hk
  rw [rowMajor, ← positions_row_major, List.getElem?_map, List.getElem?_range hk,
    Option.map_some, Option.some.injEq, Prod.mk.injEq] at hposition
  obtain ⟨rfl, rfl⟩ := hposition
  rw [lookup, if_pos ⟨hi, hj⟩, hcell, hvalue]

/-- How a matrix comes from calls: they are made in row-major order, once for
each position, each in the state the one before has left. A function that notes
its calls notes these and no other ones. What a call returned is the entry at
its position, and the values in their order are accepted as the same matrix. -/
structure GeneratedBy (nrows ncols : Nat) (f : Nat → Nat → StateM σ α) (s : σ)
    (generated : Dense α × σ) (log : List ((Nat × Nat) × α)) : Prop where
  positions_eq : log.map Prod.fst = rowMajor nrows ncols
  once : (log.map Prod.fst).Nodup
  called_iff : ∀ i j, (i, j) ∈ log.map Prod.fst ↔ i < nrows ∧ j < ncols
  calls : Calls (fun p => f p.1 p.2) s log generated.2
  noted : (generate nrows ncols fun i j => noting (fun p => f p.1 p.2) (i, j)).run (s, []) =
    (generated.1, (generated.2, log))
  entry_eq : ∀ i j x, ((i, j), x) ∈ log → generated.1.entry i j = .ok (some x)
  accepted : ofArray nrows ncols (log.map Prod.snd).toArray = .ok generated.1

theorem generate_in_row_major_order (f : Nat → Nat → StateM σ α) (s : σ)
    (hfits : nrows * ncols < wordLimit) :
    ∃ log, GeneratedBy nrows ncols f s ((generate nrows ncols f).run s) log := by
  obtain ⟨log, hpositions, hvalues, hcalls⟩ :=
    exists_calls (fun p : Nat × Nat => f p.1 p.2) (rowMajor nrows ncols) s
  have hwf := generate_wellFormed hfits f s
  rw [run_generate, ← hvalues] at hwf ⊢
  refine ⟨log, hpositions, hpositions ▸ rowMajor_nodup nrows ncols, ?_, hcalls, ?_, ?_, ?_⟩
  · intro i j
    rw [hpositions, mem_rowMajor]
  · have hnoted := hcalls.noted []
    rw [hpositions] at hnoted
    rw [run_generate]
    exact congrArg (fun out : List α × σ × List ((Nat × Nat) × α) =>
      ((⟨nrows, ncols, out.1.toArray⟩ : Dense α), out.2)) hnoted
  · intro i j x hmem
    have hlookup := lookup_of_rowMajor hwf hpositions rfl hmem
    obtain ⟨hi, hj⟩ := lookup_inside hlookup
    rw [entry_eq hwf hi hj, hlookup]
  · exact ofArray_of_size_eq hfits hwf.size_eq.symm

/-- Counts the calls and ignores where they are made for. -/
def counting (_ _ : Nat) : StateM Nat Nat := fun count => (count, count + 1)

theorem counting_in_row_major_order :
    ∃ log, GeneratedBy 2 3 counting 7 ((generate 2 3 counting).run 7) log :=
  generate_in_row_major_order counting 7 (by decide)

example : (generate 2 3 counting).run 7 = (⟨2, 3, #[7, 8, 9, 10, 11, 12]⟩, 13) := rfl

end Dense

end TransposedViews
