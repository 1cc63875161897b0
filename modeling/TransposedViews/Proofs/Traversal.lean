import TransposedViews.LineScript

/-!
What running a traversal comes to. A reading cursor is described by the list
of items it still has to deliver; one step takes the head of that list, and
draining the cursor gives all of it. A writing traversal changes its store by
single writes to cells only, so whatever every such write keeps is kept by a
whole script, by a script on one line and by a script for every line.
-/

namespace TransposedViews

section Outcomes

variable {ε : Type u} {ε' : Type w} {β γ : Type v}

theorem exists_of_map_ok {f : β → γ} {result : Except ε β} {y : γ}
    (h : result.map f = .ok y) : ∃ x, result = .ok x ∧ f x = y := by
  cases result with
  | error e => cases h
  | ok x => exact ⟨x, rfl, Except.ok.inj h⟩

theorem map_eq_error_iff {f : β → γ} {result : Except ε β} {e : ε} :
    result.map f = .error e ↔ result = .error e := by
  cases result with
  | error e' => exact ⟨fun h => congrArg _ (Except.error.inj h), congrArg _⟩
  | ok x => exact ⟨nofun, nofun⟩

theorem exists_of_bind_ok {f : β → Except ε γ} {result : Except ε β} {y : γ}
    (h : result >>= f = .ok y) : ∃ x, result = .ok x ∧ f x = .ok y := by
  cases result with
  | error e => cases h
  | ok x => exact ⟨x, rfl, h⟩

theorem ok_of_mapError_ok {f : ε → ε'} {result : Except ε β} {x : β}
    (h : result.mapError f = .ok x) : result = .ok x := by
  cases result with
  | error e => cases h
  | ok y =>
      cases h
      rfl

end Outcomes

section Lists

variable {ι : Type u} {ε ε' β : Type v} {items : List ι}

theorem mapM_mapError (items : List ι) (f : ι → Except ε β) (g : ε → ε') :
    items.mapM (fun item => (f item).mapError g) = (items.mapM f).mapError g := by
  induction items with
  | nil => rfl
  | cons item items ih =>
      rw [List.mapM_cons, List.mapM_cons, ih]
      cases f item with
      | error e => rfl
      | ok x => cases items.mapM f <;> rfl

theorem mapM_ok_of_forall {f : ι → Except ε β} {g : ι → β}
    (h : ∀ item ∈ items, f item = .ok (g item)) : items.mapM f = .ok (items.map g) := by
  induction items with
  | nil => rfl
  | cons item items ih =>
      have hitem := h item List.mem_cons_self
      have hitems := ih fun later hmem => h later (List.mem_cons_of_mem item hmem)
      rw [List.mapM_cons, hitem, hitems]
      rfl

theorem forall_ok_of_mapM_ok {f : ι → Except ε β} {results : List β}
    (h : items.mapM f = .ok results) : ∀ item ∈ items, ∃ y, f item = .ok y := by
  induction items generalizing results with
  | nil => simp
  | cons item items ih =>
      rw [List.mapM_cons] at h
      obtain ⟨y, hitem, hrest⟩ := exists_of_bind_ok h
      obtain ⟨ys, hitems, -⟩ := exists_of_bind_ok hrest
      exact List.forall_mem_cons.mpr ⟨⟨y, hitem⟩, ih hitems⟩

/-- A list is refused for the first of its items that is. -/
theorem mapM_eq_error_iff {f : ι → Except ε β} {e : ε} :
    items.mapM f = .error e ↔ ∃ earlier item later, items = earlier ++ item :: later ∧
      (∀ other ∈ earlier, ∃ y, f other = .ok y) ∧ f item = .error e := by
  induction items with
  | nil =>
      constructor
      · intro h
        cases h
      · rintro ⟨earlier, item, later, hsplit, -⟩
        simp at hsplit
  | cons first items ih =>
      rw [List.mapM_cons]
      cases hfirst : f first with
      | error e' =>
          constructor
          · intro h
            cases h
            exact ⟨[], first, items, rfl, by simp, hfirst⟩
          · rintro ⟨_ | ⟨other, earlier⟩, item, later, hsplit, hearlier, hitem⟩
            · cases hsplit
              rw [hfirst] at hitem
              cases hitem
              rfl
            · cases hsplit
              obtain ⟨y, hy⟩ := hearlier first List.mem_cons_self
              rw [hfirst] at hy
              cases hy
      | ok y =>
          have hrest : (Except.ok y >>= fun y => items.mapM f >>= fun ys => pure (y :: ys)) =
              (.error e : Except ε (List β)) ↔ items.mapM f = .error e := by
            cases items.mapM f with
            | error e' => exact ⟨fun h => h, fun h => h⟩
            | ok ys => exact ⟨nofun, nofun⟩
          rw [hrest, ih]
          constructor
          · rintro ⟨earlier, item, later, rfl, hearlier, hitem⟩
            exact ⟨first :: earlier, item, later, rfl,
              List.forall_mem_cons.mpr ⟨⟨y, hfirst⟩, hearlier⟩, hitem⟩
          · rintro ⟨_ | ⟨other, earlier⟩, item, later, hsplit, hearlier, hitem⟩
            · cases hsplit
              rw [hfirst] at hitem
              cases hitem
            · cases hsplit
              exact ⟨earlier, item, later, rfl, (List.forall_mem_cons.mp hearlier).2, hitem⟩

theorem foldlM_invariant {f : S → ι → Except ε S} (P : S → Prop)
    (hstep : ∀ s item s', P s → f s item = .ok s' → P s') (items : List ι) {s s' : S} (hs : P s)
    (h : items.foldlM f s = .ok s') : P s' := by
  induction items generalizing s with
  | nil =>
      cases h
      exact hs
  | cons item items ih =>
      rw [List.foldlM_cons] at h
      obtain ⟨after, hitem, hrest⟩ := exists_of_bind_ok h
      exact ih (hstep s item after hs hitem) hrest

theorem exists_of_mem_mapM {f : ι → Except ε β} {items : List ι} {results : List β}
    (h : items.mapM f = .ok results) (x : β) (hx : x ∈ results) : ∃ item, f item = .ok x := by
  induction items generalizing results with
  | nil =>
      cases h
      cases hx
  | cons item items ih =>
      rw [List.mapM_cons] at h
      obtain ⟨y, hitem, hrest⟩ := exists_of_bind_ok h
      obtain ⟨ys, hitems, heq⟩ := exists_of_bind_ok hrest
      cases heq
      rcases List.mem_cons.mp hx with rfl | hmem
      · exact ⟨item, hitem⟩
      · exact ih hitems hmem

end Lists

namespace Cursor

variable {σ : Type u} {ι : Type v} [Cursor σ ι]

theorem drain_of_next_none {s s' : σ} (h : next s = (none, s')) : drain s = ([], s') := by
  rw [drain]
  split
  · next heq =>
      rw [h] at heq
      cases heq
      rfl
  · next heq =>
      rw [h] at heq
      cases heq

theorem drain_of_next_some {s s' : σ} {a : ι} (h : next s = (some a, s')) :
    drain s = (a :: (drain s').1, (drain s').2) := by
  rw [drain]
  split
  · next heq =>
      rw [h] at heq
      cases heq
  · next heq =>
      rw [h] at heq
      cases heq
      rfl

theorem toList_of_next_none (s : σ) (h : (next s).1 = none) : toList s = [] := by
  rw [toList, drain_of_next_none (Prod.ext h rfl : next s = (none, (next s).2))]

theorem toList_of_next_some (s : σ) (a : ι) (h : (next s).1 = some a) :
    toList s = a :: toList (next s).2 := by
  rw [toList, drain_of_next_some (Prod.ext h rfl : next s = (some a, (next s).2))]
  rfl

/-- A cursor whose steps take the items of a list one after the other
delivers that list. -/
theorem toList_eq_of_listing (items : σ → List ι)
    (hitem : ∀ s, (next s).1 = (items s).head?)
    (hafter : ∀ s, items (next s).2 = (items s).tail) (s : σ) : toList s = items s := by
  generalize hlist : items s = list
  induction list generalizing s with
  | nil => exact toList_of_next_none s (by rw [hitem, hlist, List.head?_nil])
  | cons a rest ih =>
      have hnext : (next s).1 = some a := by rw [hitem, hlist, List.head?_cons]
      have hrest : items (next s).2 = rest := by rw [hafter, hlist, List.tail_cons]
      rw [toList_of_next_some s a hnext, ih _ hrest]

/-- A cursor that counts up to a bound delivers what it makes of each number. -/
theorem toList_of_counting (state : Nat → σ) (item : Nat → ι) (bound : Nat)
    (hnext : ∀ k, next (state k) =
      if bound ≤ k then (none, state k) else (some (item k), state (k + 1))) :
    toList (state 0) = (List.range bound).map item := by
  have hfrom : ∀ left k, bound - k = left →
      toList (state k) = (List.range' k left).map item := by
    intro left
    induction left with
    | zero =>
        intro k hk
        have hend : bound ≤ k := by omega
        exact toList_of_next_none (state k) (by rw [hnext, if_pos hend])
    | succ left ih =>
        intro k hk
        have hinside : ¬ bound ≤ k := by omega
        have hstep : next (state k) = (some (item k), state (k + 1)) := by
          rw [hnext, if_neg hinside]
        rw [toList_of_next_some (state k) (item k) (by rw [hstep]), hstep, List.range'_succ,
          List.map_cons, ih (k + 1) (by omega)]
  rw [hfrom bound 0 rfl, List.range_eq_range']

section Embedding

variable {τ : Type w} {κ : Type x} [Cursor τ κ] {f : σ → τ} {g : ι → κ}

/-- A cursor that is driven like another one, with every item changed on the
way, takes what the other one takes and is left where the other one is. -/
theorem take_of_embedding (hnext : ∀ s, next (f s) = ((next s).1.map g, f (next s).2)) (n : Nat)
    (s : σ) : take n (f s) = ((take n s).1.map g, f (take n s).2) := by
  induction n generalizing s with
  | zero => rfl
  | succ n ih =>
      rcases hstep : next s with ⟨_ | a, s'⟩
      · simp only [take, hnext, hstep, Option.map_none, List.map_nil]
      · simp only [take, hnext, hstep, Option.map_some, ih, List.map_cons]

theorem drain_of_embedding (hnext : ∀ s, next (f s) = ((next s).1.map g, f (next s).2)) (s : σ) :
    drain (f s) = ((drain s).1.map g, f (drain s).2) := by
  induction s using drain.induct with
  | case1 s s' hstep =>
      have hembedded : next (f s) = (none, f s') := by rw [hnext, hstep, Option.map_none]
      rw [drain_of_next_none hembedded, drain_of_next_none hstep, List.map_nil]
  | case2 s a s' hstep _ _ _ _ ih =>
      have hembedded : next (f s) = (some (g a), f s') := by rw [hnext, hstep, Option.map_some]
      rw [drain_of_next_some hembedded, drain_of_next_some hstep, ih, List.map_cons]

theorem toList_of_embedding (hnext : ∀ s, next (f s) = ((next s).1.map g, f (next s).2)) (s : σ) :
    toList (f s) = (toList s).map g := by
  rw [toList, drain_of_embedding hnext]
  rfl

theorem collect_of_embedding (hnext : ∀ s, next (f s) = ((next s).1.map g, f (next s).2))
    (hhint : ∀ s, hint (f s) = hint s) (limit : Option Nat) (s : σ) :
    collect limit (f s) = ((collect limit s).1.map g, (collect limit s).2) := by
  cases limit with
  | none => simp only [collect, drain_of_embedding hnext, hhint]
  | some n => simp only [collect, take_of_embedding hnext, hhint]

end Embedding

theorem toList_mapped {κ : Type w} (s : σ) (f : ι → κ) :
    toList (⟨s, f⟩ : Mapped σ ι κ) = (toList s).map f :=
  toList_of_embedding (f := fun s => (⟨s, f⟩ : Mapped σ ι κ)) (fun _ => rfl) s

theorem collect_mapped {κ : Type w} (limit : Option Nat) (s : σ) (f : ι → κ) :
    collect limit (⟨s, f⟩ : Mapped σ ι κ) = ((collect limit s).1.map f, (collect limit s).2) :=
  collect_of_embedding (f := fun s => (⟨s, f⟩ : Mapped σ ι κ)) (fun _ => rfl) (fun _ => rfl) limit s

end Cursor

namespace Script

variable {σ : Type u} {ι : Type v} {κ : Type w} {S : Type x} {α : Type y}
  [Cursor σ (ι × κ)] [Cells S κ α]

/-- One request writes at most one cell. -/
theorem step_store (request : Request α) (cursor : σ) (store : S) :
    (step request cursor store).2.2 = store ∨
      ∃ cell x, (step request cursor store).2.2 = Cells.write store cell x := by
  cases request with
  | hint => exact Or.inl rfl
  | next replacement =>
      simp only [step]
      split
      · exact Or.inl rfl
      · next label cell after _ =>
          cases hread : Cells.read store cell with
          | none => exact Or.inl rfl
          | some value =>
              cases replacement with
              | none => exact Or.inl rfl
              | some x => exact Or.inr ⟨cell, x, rfl⟩

theorem step_store_invariant (P : S → Prop)
    (hwrite : ∀ store cell x, P store → P (Cells.write store cell x))
    (request : Request α) (cursor : σ) (store : S) (h : P store) :
    P (step request cursor store).2.2 := by
  rcases step_store request cursor store with hsame | ⟨cell, x, hwritten⟩
  · rwa [hsame]
  · rw [hwritten]
    exact hwrite store cell x h

/-- What every write to a cell keeps, a whole script keeps. -/
theorem run_store_invariant (P : S → Prop)
    (hwrite : ∀ store cell x, P store → P (Cells.write store cell x))
    (script : List (Request α)) (cursor : σ) (store : S) (h : P store) :
    P (run script cursor store).2.2 := by
  induction script generalizing cursor store with
  | nil => exact h
  | cons request script ih =>
      exact ih _ _ (step_store_invariant P hwrite request cursor store h)

theorem run_size {σ : Type u} {ι : Type v} {α : Type w} [Cursor σ (ι × Nat)]
    (script : List (Request α)) (cursor : σ) (values : Array α) :
    (run script cursor values).2.2.size = values.size :=
  run_store_invariant (fun written : Array α => written.size = values.size)
    (fun written cell x hsize => by simpa [Cells.write] using hsize) script cursor values rfl

end Script

namespace LineScript

variable {σ : Type u} {ι : Type v} {κ : Type w} {S : Type x} {α : Type y}

/-- A line that is walked is modified by writes to its cells only. -/
theorem runWalk_store_invariant [Cursor σ (ι × κ)] [Cells S κ α] (P : S → Prop)
    (hwrite : ∀ store cell x, P store → P (Cells.write store cell x))
    (item : ι → α → Item α) (script : LineScript α) (cursor : σ) (store : S) (h : P store) :
    P (runWalk item script cursor store).2 := by
  induction script generalizing cursor store with
  | nil => exact h
  | cons request script ih =>
      cases request with
      | next replacement =>
          have hstep := Script.step_store_invariant P hwrite (.next replacement) cursor store h
          rcases hrun : Script.step (.next replacement) cursor store with ⟨reply, after, written⟩
          rw [hrun] at hstep
          simp only [runWalk, hrun]
          cases reply <;> exact ih after written hstep
      | hint => exact ih cursor store h
      | _ => exact ih cursor store h

/-- A request to a contiguous line overwrites one element of the value array
at most. -/
theorem answerContiguous_store_invariant (P : Array α → Prop)
    (hwrite : ∀ values cell x, P values → P (values.setIfInBounds cell x))
    (cells : List Nat) (request : LineRequest α) {values after : Array α} {reply : LineReply α}
    (h : P values) (hanswer : answerContiguous cells request values = .ok (reply, after)) :
    P after := by
  cases request with
  | set k x =>
      simp only [answerContiguous] at hanswer
      split at hanswer
      · cases hanswer
      · next cell _ =>
          obtain ⟨old, -, heq⟩ := exists_of_map_ok hanswer
          cases heq
          exact hwrite values cell x h
  | get k =>
      simp only [answerContiguous] at hanswer
      split at hanswer
      · cases hanswer
      · obtain ⟨old, -, heq⟩ := exists_of_map_ok hanswer
        cases heq
        exact h
  | _ =>
      cases hanswer
      exact h

/-- Contiguous lines overwrite elements of the value array and do nothing
else, also where a request is refused halfway. -/
theorem runContiguous_store_invariant (P : Array α → Prop)
    (hwrite : ∀ values cell x, P values → P (values.setIfInBounds cell x))
    (cells : List Nat) (script : LineScript α) (values : Array α) (h : P values) :
    P (runContiguous cells script values).2 := by
  induction script generalizing values with
  | nil => exact h
  | cons request script ih =>
      simp only [runContiguous]
      split
      · exact h
      · next reply after hanswer =>
          have hafter := answerContiguous_store_invariant P hwrite cells request h hanswer
          exact ih after hafter

/-- What the script of every single line keeps, running one script per line
keeps, even if one of them is refused halfway. -/
theorem runLines_store_invariant [Cursor σ ι] (P : S → Prop)
    (edit : ι → LineScript α → S → Except Fault (List (LineReply α)) × S)
    (hedit : ∀ line script store, P store → P (edit line script store).2)
    (scripts : List (LineScript α)) (cursor : σ) (store : S) (h : P store) :
    P (runLines edit scripts cursor store).2 := by
  induction scripts generalizing cursor store with
  | nil => exact h
  | cons script scripts ih =>
      simp only [runLines]
      split
      · exact h
      · next line after _ =>
          have hline := hedit line script store h
          split
          · next heq => rwa [heq] at hline
          · next heq =>
              rw [heq] at hline
              exact ih after _ hline

section Size

variable {σ : Type u} {ι : Type v} {α : Type w}

theorem runWalk_size [Cursor σ (ι × Nat)] (item : ι → α → Item α) (script : LineScript α)
    (cursor : σ) (values : Array α) : (runWalk item script cursor values).2.size = values.size :=
  runWalk_store_invariant (fun written : Array α => written.size = values.size)
    (fun written cell x hsize => by simpa [Cells.write] using hsize) item script cursor values rfl

theorem runContiguous_size (cells : List Nat) (script : LineScript α) (values : Array α) :
    (runContiguous cells script values).2.size = values.size :=
  runContiguous_store_invariant (fun written : Array α => written.size = values.size)
    (fun written cell x hsize => by simpa using hsize) cells script values rfl

theorem runLines_size [Cursor σ ι]
    (edit : ι → LineScript α → Array α → Except Fault (List (LineReply α)) × Array α)
    (hedit : ∀ line script values, (edit line script values).2.size = values.size)
    (scripts : List (LineScript α)) (cursor : σ) (values : Array α) :
    (runLines edit scripts cursor values).2.size = values.size :=
  runLines_store_invariant (fun written : Array α => written.size = values.size) edit
    (fun line script written hsize => (hedit line script written).trans hsize)
    scripts cursor values rfl

end Size

end LineScript

end TransposedViews
