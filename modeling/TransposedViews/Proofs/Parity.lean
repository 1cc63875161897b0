import Mathlib.Logic.Function.Iterate
import TransposedViews.Proofs.Operation
import TransposedViews.Proofs.Run

/-!
Chains of views and the parity of their length. Two transpositions on top of
each other exchange rows and columns and exchange them back, so a chain works
like the matrix below it or like one single view. What is said of raw storage
is passed on by every view and does not depend on the chain at all.
-/

namespace TransposedViews

/-- The same request seen from the other side of a transposition. -/
def Writing.exchanged {α : Type} : Writing α → Writing α
  | .set i j x => .set j i x
  | .erase i j => .erase j i
  | .rows scripts => .cols scripts
  | .cols scripts => .rows scripts
  | .raw script => .raw script
  | .rawIndexed script => .rawIndexed script

namespace View

variable {α : Type} {v w : View α}

section Reading

/-- A view that is read like a matrix. -/
structure ReadsLike (v : View α) (m : Matrix α) : Prop where
  nrows_eq : v.nrows = m.nrows
  ncols_eq : v.ncols = m.ncols
  category_eq : v.category = m.category
  entry_eq : ∀ i j, v.entry i j = m.entry i j
  fetch_eq : ∀ x i j, v.fetch x i j = m.fetch x i j
  rows?_eq : v.rows? = m.rows?
  cols?_eq : v.cols? = m.cols?

/-- A view that is read like a matrix with rows and columns exchanged. -/
structure ReadsAcross (v : View α) (m : Matrix α) : Prop where
  nrows_eq : v.nrows = m.ncols
  ncols_eq : v.ncols = m.nrows
  category_eq : v.category = m.category.transposed
  entry_eq : ∀ i j, v.entry i j = m.entry j i
  fetch_eq : ∀ x i j, v.fetch x i j = m.fetch x j i
  rows?_eq : v.rows? = m.cols?
  cols?_eq : v.cols? = m.rows?

theorem ReadsLike.transposed {m : Matrix α} (h : v.ReadsLike m) (access : Access) :
    (transposed access v).ReadsAcross m where
  nrows_eq := h.ncols_eq
  ncols_eq := h.nrows_eq
  category_eq := congrArg Category.transposed h.category_eq
  entry_eq i j := h.entry_eq j i
  fetch_eq x i j := h.fetch_eq x j i
  rows?_eq := h.cols?_eq
  cols?_eq := h.rows?_eq

theorem ReadsAcross.transposed {m : Matrix α} (h : v.ReadsAcross m) (access : Access) :
    (transposed access v).ReadsLike m where
  nrows_eq := h.ncols_eq
  ncols_eq := h.nrows_eq
  category_eq :=
    (congrArg Category.transposed h.category_eq).trans m.category.transposed_transposed
  entry_eq i j := h.entry_eq j i
  fetch_eq x i j := h.fetch_eq x j i
  rows?_eq := h.cols?_eq
  cols?_eq := h.rows?_eq

/-- The parity of its depth decides how a view is read. -/
theorem reads_base (v : View α) :
    (v.Aligned → v.ReadsLike v.base) ∧ (¬ v.Aligned → v.ReadsAcross v.base) := by
  induction v with
  | whole m =>
      refine ⟨fun _ => ?_, fun hodd => absurd rfl hodd⟩
      exact ⟨rfl, rfl, rfl, fun _ _ => rfl, fun _ _ _ => rfl, rfl, rfl⟩
  | transposed access v ih =>
      rw [aligned_transposed, not_not]
      exact ⟨fun hodd => (ih.2 hodd).transposed access, fun heven => (ih.1 heven).transposed access⟩

theorem raw_base (v : View α) : v.raw = v.base.raw := by
  induction v with
  | whole m => rfl
  | transposed access v ih => exact ih

/-- The category of a view is the one of its base, transposed once for every
transposition in the chain. -/
theorem category_eq_iterate (v : View α) :
    v.category = Category.transposed^[v.depth] v.base.category := by
  induction v with
  | whole m => rfl
  | transposed access v ih =>
      rw [depth, Function.iterate_succ_apply', base, ← ih]
      rfl

/-- Fetching says whether there is an entry, and the place that the entry goes
to is changed exactly where there is one. -/
structure FetchAgrees (v : View α) : Prop where
  found : ∀ i j y, v.entry i j = .ok (some y) → ∀ x, v.fetch x i j = (.ok true, y)
  absent : ∀ i j, v.entry i j = .ok none → ∀ x, v.fetch x i j = (.ok false, x)
  refused : ∀ i j fault, v.entry i j = .error fault → ∀ x, v.fetch x i j = (.error fault, x)

theorem fetchAgrees (v : View α) : v.FetchAgrees := by
  induction v with
  | whole m =>
      constructor
      · intro i j y h x
        simp only [entry] at h
        simp only [fetch, Matrix.fetch, h]
        rfl
      · intro i j h x
        simp only [entry] at h
        simp only [fetch, Matrix.fetch, h]
        rfl
      · intro i j fault h x
        simp only [entry] at h
        simp only [fetch, Matrix.fetch, h]
        rfl
  | transposed access v ih =>
      exact ⟨fun i j => ih.found j i, fun i j => ih.absent j i, fun i j => ih.refused j i⟩

/-- A view offers the traversals that its category promises. -/
theorem isSome_lines (v : View α) :
    v.rows?.isSome = v.category.hasRows ∧ v.cols?.isSome = v.category.hasCols := by
  induction v with
  | whole m => cases m <;> exact ⟨rfl, rfl⟩
  | transposed access v ih =>
      constructor
      · rw [category, Category.hasRows_transposed]
        exact ih.2
      · rw [category, Category.hasCols_transposed]
        exact ih.1

/-- So it does for traversals that edit the lines. -/
theorem isSome_runLines (v : View α) (scripts : List (LineScript α)) :
    (v.runRows? scripts).isSome = v.category.hasRows ∧
      (v.runCols? scripts).isSome = v.category.hasCols := by
  induction v with
  | whole m => cases m <;> exact ⟨rfl, rfl⟩
  | transposed access v ih =>
      constructor
      · rw [category, Category.hasRows_transposed, runRows?, Option.isSome_map]
        exact ih.2
      · rw [category, Category.hasCols_transposed, runCols?, Option.isSome_map]
        exact ih.1

/-- A view that cannot be told from another one by reading: the dimensions,
the category, the entries and the traversals are the same. -/
structure ReadsAs (v w : View α) : Prop where
  nrows_eq : v.nrows = w.nrows
  ncols_eq : v.ncols = w.ncols
  category_eq : v.category = w.category
  entry_eq : ∀ i j, v.entry i j = w.entry i j
  fetch_eq : ∀ x i j, v.fetch x i j = w.fetch x i j
  rows?_eq : v.rows? = w.rows?
  cols?_eq : v.cols? = w.cols?
  raw_eq : v.raw = w.raw
  rawIndexed_eq : v.rawIndexed = w.rawIndexed

theorem ReadsLike.readsAs {m : Matrix α} (h : v.ReadsLike m) (hbase : v.base = m) :
    v.ReadsAs (whole m) where
  nrows_eq := h.nrows_eq
  ncols_eq := h.ncols_eq
  category_eq := h.category_eq
  entry_eq := h.entry_eq
  fetch_eq := h.fetch_eq
  rows?_eq := h.rows?_eq
  cols?_eq := h.cols?_eq
  raw_eq := v.raw_base.trans (congrArg Matrix.raw hbase)
  rawIndexed_eq := v.rawIndexed_base.trans (congrArg Matrix.rawIndexed hbase)

theorem ReadsAcross.readsAs {m : Matrix α} (h : v.ReadsAcross m) (h' : w.ReadsAcross m)
    (hbase : v.base = w.base) : v.ReadsAs w where
  nrows_eq := h.nrows_eq.trans h'.nrows_eq.symm
  ncols_eq := h.ncols_eq.trans h'.ncols_eq.symm
  category_eq := h.category_eq.trans h'.category_eq.symm
  entry_eq i j := (h.entry_eq i j).trans (h'.entry_eq i j).symm
  fetch_eq x i j := (h.fetch_eq x i j).trans (h'.fetch_eq x i j).symm
  rows?_eq := h.rows?_eq.trans h'.rows?_eq.symm
  cols?_eq := h.cols?_eq.trans h'.cols?_eq.symm
  raw_eq := by rw [raw_base, raw_base w, hbase]
  rawIndexed_eq := by rw [rawIndexed_base, rawIndexed_base w, hbase]

/-- The answers of two such views agree, except that one that is no
transposition wraps nothing and lists no entries. -/
theorem ReadsAs.read_eq (h : v.ReadsAs w) {request : Reading α}
    (hentries : ∀ limit, request ≠ .entries limit) (hinner : request ≠ .inner) :
    v.read request = w.read request := by
  cases request with
  | dimensions => simp only [read, h.nrows_eq, h.ncols_eq]
  | category => simp only [read, h.category_eq]
  | entry i j => simp only [read, h.entry_eq]
  | fetch i j x => simp only [read, h.fetch_eq]
  | grid => simp only [read, grid, h.nrows_eq, h.ncols_eq, h.entry_eq]
  | raw limit => simp only [read, h.raw_eq]
  | rawIndexed limit => simp only [read, h.rawIndexed_eq]
  | rows limit => simp only [read, h.rows?_eq]
  | cols limit => simp only [read, h.cols?_eq]
  | row k limit => simp only [read, h.rows?_eq]
  | col k limit => simp only [read, h.cols?_eq]
  | entries limit => exact absurd rfl (hentries limit)
  | inner => exact absurd rfl hinner

theorem ReadsAs.read_eq_of_transposed {access access' : Access}
    (h : (transposed access v).ReadsAs (transposed access' w)) (request : Reading α) :
    (transposed access v).read request = (transposed access' w).read request := by
  cases request with
  | entries limit =>
      have hraw : v.rawIndexed = w.rawIndexed := h.rawIndexed_eq
      simp only [read, entries?, hraw]
  | inner =>
      have hrows : v.nrows = w.nrows := h.ncols_eq
      have hcols : v.ncols = w.ncols := h.nrows_eq
      have hcategory : v.category = w.category := by
        have htwice := congrArg Category.transposed h.category_eq
        rwa [category, category, Category.transposed_transposed,
          Category.transposed_transposed] at htwice
      simp only [read, inner?, hrows, hcols, hcategory]
  | _ => exact h.read_eq (by simp) (by simp)

end Reading

section Access

theorem writable_transposed_iff (access : Access) (v : View α) :
    (transposed access v).writable = true ↔ access = .exclusive ∧ v.writable = true := by
  cases access with
  | shared => simp [writable]
  | exclusive => simp [writable]

theorem writable_foldl (v : View α) (accesses : List Access) :
    (accesses.foldl (fun v access => .transposed access v) v).writable = true ↔
      v.writable = true ∧ ∀ access ∈ accesses, access = .exclusive := by
  induction accesses generalizing v with
  | nil => simp
  | cons access rest ih =>
      rw [List.foldl_cons, ih, writable_transposed_iff, List.forall_mem_cons]
      tauto

/-- A chain may write if no view of it is shared. -/
theorem writable_chain_iff (m : Matrix α) (accesses : List Access) :
    (chain m accesses).writable = true ↔ ∀ access ∈ accesses, access = .exclusive := by
  rw [chain, writable_foldl]
  exact and_iff_right rfl

end Access

section Writing

/-- The same transpositions over another matrix. -/
def rebased : View α → Matrix α → View α
  | .whole _, m => .whole m
  | .transposed access v, m => .transposed access (v.rebased m)

theorem rebased_foldl (v : View α) (accesses : List Access) (m : Matrix α) :
    (accesses.foldl (fun v access => .transposed access v) v).rebased m =
      accesses.foldl (fun v access => .transposed access v) (v.rebased m) := by
  induction accesses generalizing v with
  | nil => rfl
  | cons access rest ih => exact ih (.transposed access v)

@[simp] theorem rebased_chain (m m' : Matrix α) (accesses : List Access) :
    (chain m accesses).rebased m' = chain m' accesses := rebased_foldl (.whole m) accesses m'

@[simp] theorem rebased_base (v : View α) : v.rebased v.base = v := by
  induction v with
  | whole m => rfl
  | transposed access v ih => exact congrArg (transposed access) ih

/-- A view modifies its base where the parity of its depth says, and stays the
same view over what is left. -/
theorem set_rebased (v : View α) (i j : Nat) (x : α) :
    (v.Aligned → v.set i j x = (v.base.set i j x).map id v.rebased) ∧
      (¬ v.Aligned → v.set i j x = (v.base.set j i x).map id v.rebased) := by
  induction v generalizing i j with
  | whole m => exact ⟨fun _ => rfl, fun hodd => absurd rfl hodd⟩
  | transposed access v ih =>
      rw [aligned_transposed, not_not]
      constructor
      · intro hodd
        rw [set, (ih j i).2 hodd]
        rfl
      · intro heven
        rw [set, (ih j i).1 heven]
        rfl

theorem erase_rebased (v : View α) (i j : Nat) :
    (v.Aligned → v.erase i j = (v.base.erase i j).map id v.rebased) ∧
      (¬ v.Aligned → v.erase i j = (v.base.erase j i).map id v.rebased) := by
  induction v generalizing i j with
  | whole m => exact ⟨fun _ => rfl, fun hodd => absurd rfl hodd⟩
  | transposed access v ih =>
      rw [aligned_transposed, not_not]
      constructor
      · intro hodd
        rw [erase, (ih j i).2 hodd]
        rfl
      · intro heven
        rw [erase, (ih j i).1 heven]
        rfl

theorem runRaw_rebased (v : View α) (script : List (Request α)) :
    v.runRaw script = (v.base.runRaw script).map id v.rebased := by
  induction v with
  | whole m => rfl
  | transposed access v ih =>
      rw [runRaw, ih]
      rfl

theorem runIndexed_rebased (v : View α) (script : List (Request α)) :
    v.runIndexed script = (v.base.runIndexed script).map id v.rebased := by
  induction v with
  | whole m => rfl
  | transposed access v ih =>
      rw [runIndexed, ih]
      rfl

theorem runLines_rebased (v : View α) (scripts : List (LineScript α)) :
    (v.Aligned → v.runRows? scripts = (v.base.runRows? scripts).map (Prod.map id v.rebased) ∧
      v.runCols? scripts = (v.base.runCols? scripts).map (Prod.map id v.rebased)) ∧
    (¬ v.Aligned → v.runRows? scripts = (v.base.runCols? scripts).map (Prod.map id v.rebased) ∧
      v.runCols? scripts = (v.base.runRows? scripts).map (Prod.map id v.rebased)) := by
  induction v with
  | whole m => exact ⟨fun _ => ⟨rfl, rfl⟩, fun hodd => absurd rfl hodd⟩
  | transposed access v ih =>
      rw [aligned_transposed, not_not]
      constructor
      · intro hodd
        rw [runRows?, runCols?, (ih.2 hodd).1, (ih.2 hodd).2, Option.map_map, Option.map_map]
        exact ⟨rfl, rfl⟩
      · intro heven
        rw [runRows?, runCols?, (ih.1 heven).1, (ih.1 heven).2, Option.map_map, Option.map_map]
        exact ⟨rfl, rfl⟩

/-- What came of a modification of the base, told of the view. -/
theorem modified_rebased (v : View α) (outcome : Except Fault Unit × Matrix α) :
    modified (outcome.map id v.rebased) =
      (modified (outcome.map id whole)).map id fun w => v.rebased w.base := rfl

theorem linesRun_rebased (v : View α) (run : Option (Matrix.LineReplies α × Matrix α)) :
    v.linesRun (run.map (Prod.map id v.rebased)) =
      ((whole v.base).linesRun (run.map (Prod.map id whole))).map id fun w => v.rebased w.base := by
  cases run with
  | none => exact congrArg _ v.rebased_base.symm
  | some run => rfl

/-- A view that may write gives the answer of its base, to the request or to
the exchanged one, and stays the same view over what is left. -/
theorem write_rebased (v : View α) (hwritable : v.writable = true) (request : Writing α) :
    (v.Aligned → v.write request = (v.base.write request).map id v.rebased) ∧
      (¬ v.Aligned → v.write request = (v.base.write request.exchanged).map id v.rebased) := by
  have hwhole (request : Writing α) : (v.base.write request).map id v.rebased =
      ((whole v.base).write request).map id fun w => v.rebased w.base := by
    rw [write_whole]
    rfl
  rw [hwhole, hwhole]
  cases request with
  | set i j x =>
      simp only [write, hwritable, if_true, Writing.exchanged]
      constructor
      · intro heven
        rw [(set_rebased v i j x).1 heven, modified_rebased]
        rfl
      · intro hodd
        rw [(set_rebased v i j x).2 hodd, modified_rebased]
        rfl
  | erase i j =>
      simp only [write, hwritable, if_true, Writing.exchanged]
      constructor
      · intro heven
        rw [(erase_rebased v i j).1 heven, modified_rebased]
        rfl
      · intro hodd
        rw [(erase_rebased v i j).2 hodd, modified_rebased]
        rfl
  | raw script =>
      simp only [write, hwritable, if_true, Writing.exchanged, runRaw_rebased v script]
      exact ⟨fun _ => rfl, fun _ => rfl⟩
  | rawIndexed script =>
      simp only [write, hwritable, if_true, Writing.exchanged, runIndexed_rebased v script]
      exact ⟨fun _ => rfl, fun _ => rfl⟩
  | rows scripts =>
      simp only [write, hwritable, if_true, Writing.exchanged]
      constructor
      · intro heven
        rw [((runLines_rebased v scripts).1 heven).1, linesRun_rebased]
        rfl
      · intro hodd
        rw [((runLines_rebased v scripts).2 hodd).1, linesRun_rebased]
        rfl
  | cols scripts =>
      simp only [write, hwritable, if_true, Writing.exchanged]
      constructor
      · intro heven
        rw [((runLines_rebased v scripts).1 heven).2, linesRun_rebased]
        rfl
      · intro hodd
        rw [((runLines_rebased v scripts).2 hodd).2, linesRun_rebased]
        rfl

end Writing

section Chains

variable (m : Matrix α) (accesses : List Access)

theorem chain_aligned_iff : (chain m accesses).Aligned ↔ accesses.length % 2 = 0 := by
  rw [Aligned, depth_chain]

theorem chain_readsLike (heven : accesses.length % 2 = 0) : (chain m accesses).ReadsLike m := by
  have hreads := (reads_base (chain m accesses)).1
  rw [chain_aligned_iff, base_chain] at hreads
  exact hreads heven

theorem chain_readsAcross (hodd : accesses.length % 2 = 1) : (chain m accesses).ReadsAcross m := by
  have hreads := (reads_base (chain m accesses)).2
  rw [chain_aligned_iff, base_chain] at hreads
  exact hreads (by omega)

/-- An odd chain is read like any single view. -/
theorem chain_readsAs_single (hodd : accesses.length % 2 = 1) (access : Access) :
    (chain m accesses).ReadsAs (transposed access (whole m)) :=
  (chain_readsAcross m accesses hodd).readsAs (chain_readsAcross m [access] rfl)
    (base_chain m accesses)

theorem chain_read_single (hodd : accesses.length % 2 = 1) (access : Access)
    (request : Reading α) :
    (chain m accesses).read request = (transposed access (whole m)).read request := by
  have hreads := chain_readsAs_single m accesses hodd access
  have hdepth := depth_chain m accesses
  cases hchain : chain m accesses with
  | whole _ =>
      rw [hchain, depth] at hdepth
      omega
  | transposed outer inner =>
      rw [hchain] at hreads
      exact hreads.read_eq_of_transposed request

variable (hexclusive : ∀ access ∈ accesses, access = .exclusive) (request : Writing α)

include hexclusive

/-- What a chain that may write writes is written to the matrix below it, and
it is the same chain over what is left. -/
theorem chain_write_even (heven : accesses.length % 2 = 0) :
    (chain m accesses).write request = (m.write request).map id fun m => chain m accesses := by
  have hwritable := (writable_chain_iff m accesses).mpr hexclusive
  have hwrite := (write_rebased (chain m accesses) hwritable request).1
  rw [chain_aligned_iff, base_chain] at hwrite
  rw [hwrite heven, funext fun m' => rebased_chain m m' accesses]

theorem chain_write_odd (hodd : accesses.length % 2 = 1) :
    (chain m accesses).write request =
      (m.write request.exchanged).map id fun m => chain m accesses := by
  have hwritable := (writable_chain_iff m accesses).mpr hexclusive
  have hwrite := (write_rebased (chain m accesses) hwritable request).2
  rw [chain_aligned_iff, base_chain] at hwrite
  rw [hwrite (by omega), funext fun m' => rebased_chain m m' accesses]

omit hexclusive

end Chains

/-- Two outcomes of a write with the same answer and the same matrix. -/
def SameOutcome (outcome outcome' : Except Refusal (WriteAnswer α) × View α) : Prop :=
  outcome.1 = outcome'.1 ∧ outcome.2.base = outcome'.2.base

/-- A chain of views that works like the matrix below it. It is read like the
matrix, and what it writes is written to the matrix, over which it stays the
same chain. -/
structure WorksLike (m : Matrix α) (accesses : List Access) : Prop where
  reads : (chain m accesses).ReadsLike m
  read_eq : ∀ request, (∀ limit, request ≠ .entries limit) → request ≠ .inner →
    (chain m accesses).read request = m.read request
  write_eq : (∀ access ∈ accesses, access = .exclusive) → ∀ request,
    (chain m accesses).write request = (m.write request).map id fun m => chain m accesses

/-- A chain of views that works like one single view: like the matrix below it
with rows and columns exchanged. -/
structure WorksAcross (m : Matrix α) (accesses : List Access) : Prop where
  reads : (chain m accesses).ReadsAcross m
  reads_single : ∀ access, (chain m accesses).ReadsAs (transposed access (whole m))
  read_eq : ∀ access request,
    (chain m accesses).read request = (transposed access (whole m)).read request
  write_eq : (∀ access ∈ accesses, access = .exclusive) → ∀ request,
    (chain m accesses).write request =
      (m.write request.exchanged).map id fun m => chain m accesses
  write_single : (∀ access ∈ accesses, access = .exclusive) → ∀ request,
    SameOutcome ((chain m accesses).write request)
      ((transposed .exclusive (whole m)).write request)

theorem worksLike_of_even (m : Matrix α) (accesses : List Access)
    (heven : accesses.length % 2 = 0) : WorksLike m accesses where
  reads := chain_readsLike m accesses heven
  read_eq request hentries hinner := by
    have hreads := (chain_readsLike m accesses heven).readsAs (base_chain m accesses)
    rw [hreads.read_eq hentries hinner, read_whole]
  write_eq hexclusive request := chain_write_even m accesses hexclusive request heven

theorem worksAcross_of_odd (m : Matrix α) (accesses : List Access)
    (hodd : accesses.length % 2 = 1) : WorksAcross m accesses where
  reads := chain_readsAcross m accesses hodd
  reads_single := chain_readsAs_single m accesses hodd
  read_eq := chain_read_single m accesses hodd
  write_eq hexclusive request := chain_write_odd m accesses hexclusive request hodd
  write_single hexclusive request := by
    have hsingle : (transposed .exclusive (whole m)).write request =
        (m.write request.exchanged).map id fun m => chain m [.exclusive] :=
      chain_write_odd m [.exclusive] (by simp) request rfl
    rw [chain_write_odd m accesses hexclusive request hodd, hsingle]
    exact ⟨rfl, (base_chain _ accesses).trans (base_chain _ [.exclusive]).symm⟩

/-- A chain of views collapses by the parity of its length. It works like the
matrix below it if there is an even number of views and like one single view
if there is an odd number. Raw storage is read and written as the matrix has
it, whatever the number. Lines are offered in the directions of the category
transposed as often, and fetching agrees with the entries. -/
theorem chain_collapses_by_parity (m : Matrix α) (accesses : List Access) :
    (accesses.length % 2 = 0 → WorksLike m accesses) ∧
    (accesses.length % 2 = 1 → WorksAcross m accesses) ∧
    (chain m accesses).raw = m.raw ∧ (chain m accesses).rawIndexed = m.rawIndexed ∧
    ((∀ access ∈ accesses, access = .exclusive) → ∀ script,
      (chain m accesses).write (.raw script) =
        (.ok (.values (m.runRaw script).1), chain (m.runRaw script).2 accesses) ∧
      (chain m accesses).write (.rawIndexed script) =
        (.ok (.entries (m.runIndexed script).1), chain (m.runIndexed script).2 accesses)) ∧
    (chain m accesses).category = Category.transposed^[accesses.length] m.category ∧
    (chain m accesses).rows?.isSome = (chain m accesses).category.hasRows ∧
    (chain m accesses).cols?.isSome = (chain m accesses).category.hasCols ∧
    (∀ scripts, ((chain m accesses).runRows? scripts).isSome =
        (chain m accesses).category.hasRows ∧
      ((chain m accesses).runCols? scripts).isSome = (chain m accesses).category.hasCols) ∧
    (chain m accesses).FetchAgrees := by
  refine ⟨worksLike_of_even m accesses, worksAcross_of_odd m accesses, ?_, ?_, ?_, ?_, ?_, ?_, ?_,
    fetchAgrees _⟩
  · rw [raw_base, base_chain]
  · rw [rawIndexed_base, base_chain]
  · intro hexclusive script
    rcases Nat.mod_two_eq_zero_or_one accesses.length with heven | hodd
    · rw [chain_write_even m accesses hexclusive _ heven,
        chain_write_even m accesses hexclusive _ heven]
      exact ⟨rfl, rfl⟩
    · rw [chain_write_odd m accesses hexclusive _ hodd,
        chain_write_odd m accesses hexclusive _ hodd]
      exact ⟨rfl, rfl⟩
  · rw [category_eq_iterate, depth_chain, base_chain]
  · exact (isSome_lines (chain m accesses)).1
  · exact (isSome_lines (chain m accesses)).2
  · exact isSome_runLines (chain m accesses)

/-- Three views over a matrix of two rows and three columns that is stored by
rows. They offer columns, what they set as row two, column one is read there
again and is row one, column two of the matrix, and the traversal of their
columns edits the rows of the matrix. -/
theorem three_views_collapse :
    (chain cornerOnly [.exclusive, .exclusive, .exclusive]).nrows = 3 ∧
    (chain cornerOnly [.exclusive, .exclusive, .exclusive]).category = .col ∧
    ((chain cornerOnly [.exclusive, .exclusive, .exclusive]).write (.set 2 1 9)).1 = .ok .done ∧
    ((chain cornerOnly [.exclusive, .exclusive, .exclusive]).write (.set 2 1 9)).2.entry 2 1 =
      .ok (some 9) ∧
    ((chain cornerOnly [.exclusive, .exclusive, .exclusive]).write (.set 2 1 9)).2.base.entry 1 2 =
      .ok (some 9) ∧
    ((chain cornerOnly [.exclusive, .exclusive, .exclusive]).write
        (.cols [[.overwrite 2 6], [.insert 0 4]])).2 =
      chain (cornerOnly.write (.rows [[.overwrite 2 6], [.insert 0 4]])).2
        [.exclusive, .exclusive, .exclusive] ∧
    (cornerOnly.write (.rows [[.overwrite 2 6], [.insert 0 4]])).2.entry 1 0 = .ok (some 4) := by
  obtain ⟨-, hodd, -, -, -, hcategory, -⟩ :=
    chain_collapses_by_parity cornerOnly [.exclusive, .exclusive, .exclusive]
  have hworks := hodd rfl
  have hset := hworks.write_eq (by simp) (.set 2 1 9)
  have hcols := hworks.write_eq (by simp) (.cols [[.overwrite 2 6], [.insert 0 4]])
  rw [hset, hcols]
  exact ⟨hworks.reads.nrows_eq, hcategory, rfl, rfl, rfl, rfl, rfl⟩

end View

namespace Matrix

variable {α : Type} {m : Matrix α}

/-- The answers to a run of requests, each one written through a chain of
views of its own. -/
def answers (m : Matrix α) :
    List (List Access × Writing α) → List (Except Refusal (WriteAnswer α))
  | [] => []
  | (accesses, request) :: run =>
      let outcome := (View.chain m accesses).write request
      outcome.1 :: answers outcome.2.base run

/-- The shortest chain of the same parity that may write. -/
def shortened (accesses : List Access) : List Access :=
  if accesses.length % 2 = 0 then [] else [.exclusive]

theorem write_shortened (m : Matrix α) {accesses : List Access}
    (hexclusive : ∀ access ∈ accesses, access = .exclusive) (request : Writing α) :
    View.SameOutcome ((View.chain m accesses).write request)
      ((View.chain m (shortened accesses)).write request) := by
  unfold shortened
  split
  · next heven =>
      rw [View.chain_write_even m accesses hexclusive request heven,
        View.chain_write_even m [] (by simp) request rfl]
      exact ⟨rfl, (View.base_chain _ accesses).trans (View.base_chain _ []).symm⟩
  · next hodd =>
      exact (View.worksAcross_of_odd m accesses (by omega)).write_single hexclusive request

/-- In a run each chain may be replaced by no view or by one: the answers are
the same, and so is the matrix at the end. -/
theorem run_shortened (run : List (List Access × Writing α))
    (hexclusive : ∀ step ∈ run, ∀ access ∈ step.1, access = .exclusive) (m : Matrix α) :
    m.answers run = m.answers (run.map fun step => (shortened step.1, step.2)) ∧
      m.writtenAll run = m.writtenAll (run.map fun step => (shortened step.1, step.2)) := by
  induction run generalizing m with
  | nil => exact ⟨rfl, rfl⟩
  | cons step rest ih =>
      obtain ⟨accesses, request⟩ := step
      have hstep := write_shortened m (hexclusive (accesses, request) (by simp)) request
      obtain ⟨hanswers, hafter⟩ := ih (fun step hmem => hexclusive step (by simp [hmem]))
        ((View.chain m accesses).write request).2.base
      simp only [List.map_cons, answers, writtenAll, List.foldl_cons, ← hstep.1, ← hstep.2]
      exact ⟨congrArg _ hanswers, hafter⟩

end Matrix

end TransposedViews
