import TransposedViews.Proofs.Enumeration

namespace TransposedViews

section Distribution

variable {β : Type u}

theorem foldlM_pushInto {buckets : Array (List β)} {items : List (Nat × β)}
    (h : ∀ p ∈ items, p.1 < buckets.size) :
    items.foldlM (fun buckets (bucket, x) => pushInto buckets bucket x) buckets =
      (.ok (buckets.mapIdx fun b held => held ++ (items.filter (·.1 = b)).map Prod.snd) :
        Except Fault _) := by
  induction items generalizing buckets with
  | nil =>
      have hsame : (buckets.mapIdx fun _ held => held ++ []) = buckets := by
        refine Array.ext_getElem? fun b => ?_
        simp
      simp only [List.foldlM_nil, List.filter_nil, List.map_nil, hsame]
      rfl
  | cons p items ih =>
      obtain ⟨bucket, x⟩ := p
      have hbucket : bucket < buckets.size := h (bucket, x) List.mem_cons_self
      have hpush : pushInto buckets bucket x =
          .ok (buckets.setIfInBounds bucket (buckets[bucket] ++ [x])) := by
        rw [pushInto, Array.getElem?_eq_getElem hbucket]
      have hrest : ∀ p ∈ items,
          p.1 < (buckets.setIfInBounds bucket (buckets[bucket] ++ [x])).size := by
        intro p hp
        rw [Array.size_setIfInBounds]
        exact h p (List.mem_cons_of_mem _ hp)
      rw [List.foldlM_cons]
      simp only [hpush]
      refine (ih hrest).trans (congrArg Except.ok (Array.ext_getElem? fun b => ?_))
      simp only [Array.getElem?_mapIdx, Array.getElem?_setIfInBounds]
      by_cases heq : bucket = b
      · subst heq
        simp [hbucket]
      · simp [heq]

/-- Every bucket gets its items in order. -/
theorem distribute_eq {count : Nat} {items : List (Nat × β)} (h : ∀ p ∈ items, p.1 < count) :
    ∃ buckets, distribute count items = .ok buckets ∧
      buckets.toList = (List.range count).map fun b => (items.filter (·.1 = b)).map Prod.snd := by
  have hinside : ∀ p ∈ items, p.1 < (Array.replicate count ([] : List β)).size := by
    simpa using h
  refine ⟨_, foldlM_pushInto hinside, ?_⟩
  refine List.ext_getElem? fun b => ?_
  simp only [Array.getElem?_toList, Array.getElem?_mapIdx, List.getElem?_map]
  by_cases hb : b < count
  · simp [hb]
  · simp [hb]

end Distribution

section Owners

variable {τ : Type u} {δ : Type v} {κ : Type w} [DecidableEq κ]

/-- A filter for one owner leaves what that owner contributes. -/
theorem filter_flatMap_of_owner {items : List τ} {f : τ → List δ} {key : δ → κ} {own : τ → κ}
    (hkey : ∀ t ∈ items, ∀ d ∈ f t, key d = own t) (hdistinct : (items.map own).Nodup) {t : τ}
    (ht : t ∈ items) : (items.flatMap f).filter (key · = own t) = f t := by
  rw [List.filter_flatMap]
  induction items with
  | nil => cases ht
  | cons t' items ih =>
      rw [List.map_cons, List.nodup_cons] at hdistinct
      obtain ⟨hnot, hdistinct⟩ := hdistinct
      rw [List.flatMap_cons]
      rcases List.mem_cons.mp ht with rfl | hmem
      · have hhead : (f t).filter (key · = own t) = f t := by
          refine List.filter_eq_self.mpr fun d hd => ?_
          exact decide_eq_true (hkey t List.mem_cons_self d hd)
        have hrest : (items.flatMap fun t' => (f t').filter (key · = own t)) = [] := by
          refine List.flatMap_eq_nil_iff.mpr fun t' ht' => List.filter_eq_nil_iff.mpr ?_
          intro d hd heq
          have hown := hkey t' (List.mem_cons_of_mem _ ht') d hd
          rw [of_decide_eq_true heq] at hown
          exact hnot (hown ▸ List.mem_map_of_mem ht')
        rw [hhead, hrest, List.append_nil]
      · have hhead : (f t').filter (key · = own t) = [] := by
          refine List.filter_eq_nil_iff.mpr ?_
          intro d hd heq
          have hown := hkey t' List.mem_cons_self d hd
          rw [of_decide_eq_true heq] at hown
          exact hnot (hown ▸ List.mem_map_of_mem hmem)
        have hrest := ih (fun t ht => hkey t (List.mem_cons_of_mem _ ht)) hdistinct hmem
        rw [hhead, hrest, List.nil_append]

end Owners

end TransposedViews
