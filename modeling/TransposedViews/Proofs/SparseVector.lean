import Mathlib.Data.List.Basic
import Mathlib.Data.List.Induction
import TransposedViews.LineScript
import TransposedViews.Proofs.Traversal

/-!
Sparse vectors as finite maps. A well-formed vector is cut by any index into
the entries below it, the entry at it if there is one, and the entries above
it. Each operation is one equation on this cut, and every law of lookups is
read off these equations.
-/

namespace TransposedViews

namespace SparseVector

variable {α : Type}

/-- The vector that stores the given entries in the given order. -/
def ofEntries (entries : List (Nat × α)) : SparseVector α :=
  ⟨entries.map Prod.fst, entries.map Prod.snd⟩

/-- The stored indices ascend strictly and each one has its value. -/
structure WellFormed (v : SparseVector α) : Prop where
  length_eq : v.indices.length = v.values.length
  ascending : v.indices.Pairwise (· < ·)

/-- A well-formed vector as line of a matrix: nothing is stored at or past
the length of the line. -/
structure FitsIn (len : Nat) (v : SparseVector α) : Prop extends v.WellFormed where
  bounded : ∀ k ∈ v.indices, k < len

theorem empty_fits (len : Nat) : (empty : SparseVector α).FitsIn len :=
  ⟨⟨rfl, List.Pairwise.nil⟩, by simp [empty]⟩

@[simp] theorem toList_ofEntries (entries : List (Nat × α)) :
    (ofEntries entries).toList = entries := by
  simp only [toList, ofEntries, List.zip_map', List.map_id']

theorem ofEntries_toList (v : SparseVector α) (h : v.WellFormed) :
    ofEntries v.toList = v := by
  simp only [ofEntries, toList, List.map_fst_zip (Nat.le_of_eq h.length_eq),
    List.map_snd_zip (Nat.le_of_eq h.length_eq.symm)]

theorem ofEntries_wellFormed_iff (entries : List (Nat × α)) :
    (ofEntries entries).WellFormed ↔ entries.Pairwise (fun a b => a.1 < b.1) := by
  constructor
  · intro h
    exact List.pairwise_map.mp h.ascending
  · intro h
    exact ⟨by simp [ofEntries], List.pairwise_map.mpr h⟩

/-- The search for an index stops where the entries below it end. -/
theorem findIdx_ofEntries_append (below rest : List (Nat × α)) (k : Nat)
    (hbelow : ∀ e ∈ below, e.1 < k) (hrest : ∀ e ∈ rest, k ≤ e.1) :
    (ofEntries (below ++ rest)).indices.findIdx (k ≤ ·) = below.length := by
  induction below with
  | nil =>
      cases rest with
      | nil => rfl
      | cons e rest => simp [ofEntries, List.findIdx_cons, hrest e]
  | cons e below ih =>
      have hlt : ¬ k ≤ e.1 := Nat.not_le.mpr (hbelow e (by simp))
      have htail := ih fun a ha => hbelow a (by simp [ha])
      simpa [ofEntries, List.findIdx_cons, hlt] using htail

/-- How an index cuts a vector: the entries below it, the entry at it where
one is stored, and the entries above it. -/
inductive CutAt (k : Nat) : SparseVector α → Prop where
  | stored (below above : List (Nat × α)) (x : α)
      (hbelow : ∀ e ∈ below, e.1 < k) (habove : ∀ e ∈ above, k < e.1) :
      CutAt k (ofEntries (below ++ (k, x) :: above))
  | vacant (below above : List (Nat × α))
      (hbelow : ∀ e ∈ below, e.1 < k) (habove : ∀ e ∈ above, k < e.1) :
      CutAt k (ofEntries (below ++ above))

theorem cutAt_of_ascending (entries : List (Nat × α)) (k : Nat)
    (h : entries.Pairwise (fun a b => a.1 < b.1)) : CutAt k (ofEntries entries) := by
  induction entries with
  | nil => exact .vacant [] [] (by simp) (by simp)
  | cons e entries ih =>
      obtain ⟨hhead, htail⟩ := List.pairwise_cons.mp h
      rcases Nat.lt_trichotomy e.1 k with hlt | heq | hgt
      · have hcut := ih htail
        generalize hv : ofEntries entries = v at hcut
        cases hcut with
        | stored below above x hbelow habove =>
            have hentries : entries = below ++ (k, x) :: above := by
              simpa using congrArg toList hv
            subst hentries
            exact .stored (e :: below) above x (by simpa [hlt] using hbelow) habove
        | vacant below above hbelow habove =>
            have hentries : entries = below ++ above := by simpa using congrArg toList hv
            subst hentries
            exact .vacant (e :: below) above (by simpa [hlt] using hbelow) habove
      · subst heq
        exact .stored [] entries e.2 (by simp) hhead
      · refine .vacant [] (e :: entries) (by simp) ?_
        intro a ha
        rcases List.mem_cons.mp ha with rfl | ha
        · exact hgt
        · exact Nat.lt_trans hgt (hhead a ha)

/-- Every index cuts every well-formed vector. -/
theorem WellFormed.cutAt {v : SparseVector α} (h : v.WellFormed) (k : Nat) : CutAt k v := by
  have hentries := ofEntries_toList v h
  rw [← hentries] at h ⊢
  exact cutAt_of_ascending v.toList k ((ofEntries_wellFormed_iff v.toList).mp h)

/-- What is stored at an index. -/
def lookup (v : SparseVector α) (k : Nat) : Option α := v.toList.lookup k

/-- A lookup past the entries below and before the entries above an index. -/
theorem lookup_cut (below rest : List (Nat × α)) (k : Nat) (hbelow : ∀ e ∈ below, e.1 < k) :
    (below ++ rest).lookup k = rest.lookup k := by
  have hnone : below.lookup k = none := by
    rw [List.lookup_eq_none_iff]
    intro e he
    have hlt := hbelow e he
    simp
    omega
  rw [List.lookup_append, hnone, Option.none_or]

theorem lookup_above (above : List (Nat × α)) (k : Nat) (habove : ∀ e ∈ above, k < e.1) :
    above.lookup k = none := by
  rw [List.lookup_eq_none_iff]
  intro e he
  have hlt := habove e he
  simp
  omega

/-- The entry at an index is passed over in a search for another one. -/
theorem lookup_skip (below above : List (Nat × α)) {j k : Nat} (x : α) (hj : j ≠ k) :
    (below ++ (k, x) :: above).lookup j = (below ++ above).lookup j := by
  have hbeq : (j == k) = false := beq_false_of_ne hj
  rw [List.lookup_append, List.lookup_append, List.lookup_cons, hbeq]

section Items

variable (front rest : List β) (x y : β)

private theorem readItem_append_length : readItem (front ++ x :: rest) front.length = .ok x := by
  simp [readItem]

private theorem replaceItem_append_length :
    replaceItem (front ++ x :: rest) front.length y = .ok (x, front ++ y :: rest) := by
  rw [replaceItem, readItem_append_length, List.set_append_right _ _ (Nat.le_refl _), Nat.sub_self]
  rfl

private theorem insertItem_append_length :
    insertItem (front ++ rest) front.length x = .ok (front ++ x :: rest) := by
  have hinsert : (front ++ rest).insertIdx front.length x = front ++ x :: rest := by
    induction front with
    | nil => rfl
    | cons a front ih => simp [ih]
  rw [insertItem, hinsert, if_pos (by simp)]

private theorem removeItem_append_length :
    removeItem (front ++ x :: rest) front.length = .ok (x, front ++ rest) := by
  have herase : (front ++ x :: rest).eraseIdx front.length = front ++ rest := by
    rw [List.eraseIdx_append_of_length_le (Nat.le_refl _), Nat.sub_self, List.eraseIdx_cons_zero]
  simp [removeItem, herase]

end Items

section Cut

variable (below above : List (Nat × α)) (k : Nat) (x y : α)

theorem locate_stored (hbelow : ∀ e ∈ below, e.1 < k) (habove : ∀ e ∈ above, k < e.1) :
    locate (ofEntries (below ++ (k, x) :: above)).indices k = .stored below.length := by
  have hfind := findIdx_ofEntries_append below ((k, x) :: above) k hbelow (by
    intro e he
    rcases List.mem_cons.mp he with rfl | he
    · exact Nat.le_refl k
    · exact Nat.le_of_lt (habove e he))
  simp only [locate, hfind]
  simp [ofEntries]

theorem locate_vacant (hbelow : ∀ e ∈ below, e.1 < k) (habove : ∀ e ∈ above, k < e.1) :
    locate (ofEntries (below ++ above)).indices k = .vacant below.length := by
  have hfind := findIdx_ofEntries_append below above k hbelow
    fun e he => Nat.le_of_lt (habove e he)
  have hnone : (ofEntries (below ++ above)).indices[below.length]? ≠ some k := by
    intro hk
    cases above with
    | nil => simp [ofEntries] at hk
    | cons e above =>
        have heq : e.1 = k := by simpa [ofEntries] using hk
        have hlt := habove e (by simp)
        omega
  simp only [locate, hfind, hnone, if_false]

theorem lookup_stored (hbelow : ∀ e ∈ below, e.1 < k) :
    (ofEntries (below ++ (k, x) :: above)).lookup k = some x := by
  rw [lookup, toList_ofEntries, lookup_cut below _ k hbelow, List.lookup_cons_self]

theorem lookup_vacant (hbelow : ∀ e ∈ below, e.1 < k) (habove : ∀ e ∈ above, k < e.1) :
    (ofEntries (below ++ above)).lookup k = none := by
  rw [lookup, toList_ofEntries, lookup_cut below _ k hbelow, lookup_above above k habove]

theorem get?_stored (hbelow : ∀ e ∈ below, e.1 < k) (habove : ∀ e ∈ above, k < e.1) :
    (ofEntries (below ++ (k, x) :: above)).get? k = .ok (some x) := by
  have hread := readItem_append_length (below.map Prod.snd) (above.map Prod.snd) x
  rw [List.length_map] at hread
  simp only [get?, locate_stored below above k x hbelow habove]
  simp only [ofEntries, List.map_append, List.map_cons, hread]
  rfl

theorem get?_vacant (hbelow : ∀ e ∈ below, e.1 < k) (habove : ∀ e ∈ above, k < e.1) :
    (ofEntries (below ++ above)).get? k = .ok none := by
  simp only [get?, locate_vacant below above k hbelow habove]

theorem insert_stored (hbelow : ∀ e ∈ below, e.1 < k) (habove : ∀ e ∈ above, k < e.1) :
    (ofEntries (below ++ (k, x) :: above)).insert k y =
      (.ok (some x), ofEntries (below ++ (k, y) :: above)) := by
  have hvalues := replaceItem_append_length (below.map Prod.snd) (above.map Prod.snd) x y
  rw [List.length_map] at hvalues
  simp only [insert, locate_stored below above k x hbelow habove]
  simp only [ofEntries, List.map_append, List.map_cons, hvalues]
  rfl

theorem insert_vacant (hbelow : ∀ e ∈ below, e.1 < k) (habove : ∀ e ∈ above, k < e.1) :
    (ofEntries (below ++ above)).insert k y =
      (.ok none, ofEntries (below ++ (k, y) :: above)) := by
  have hindices := insertItem_append_length (below.map Prod.fst) (above.map Prod.fst) k
  have hvalues := insertItem_append_length (below.map Prod.snd) (above.map Prod.snd) y
  rw [List.length_map] at hindices hvalues
  simp only [insert, locate_vacant below above k hbelow habove]
  simp only [ofEntries, List.map_append, List.map_cons, hindices, hvalues]
  rfl

theorem remove_stored (hbelow : ∀ e ∈ below, e.1 < k) (habove : ∀ e ∈ above, k < e.1) :
    (ofEntries (below ++ (k, x) :: above)).remove k =
      (.ok (some x), ofEntries (below ++ above)) := by
  have hindices := removeItem_append_length (below.map Prod.fst) (above.map Prod.fst) k
  have hvalues := removeItem_append_length (below.map Prod.snd) (above.map Prod.snd) x
  rw [List.length_map] at hindices hvalues
  simp only [remove, locate_stored below above k x hbelow habove]
  simp only [ofEntries, List.map_append, List.map_cons, hindices, hvalues]
  rfl

theorem remove_vacant (hbelow : ∀ e ∈ below, e.1 < k) (habove : ∀ e ∈ above, k < e.1) :
    (ofEntries (below ++ above)).remove k = (.ok none, ofEntries (below ++ above)) := by
  simp only [remove, locate_vacant below above k hbelow habove]
  rfl

theorem overwrite_stored (hbelow : ∀ e ∈ below, e.1 < k) (habove : ∀ e ∈ above, k < e.1) :
    (ofEntries (below ++ (k, x) :: above)).overwrite k y =
      (.ok (some x), ofEntries (below ++ (k, y) :: above)) := by
  have hvalues := replaceItem_append_length (below.map Prod.snd) (above.map Prod.snd) x y
  rw [List.length_map] at hvalues
  simp only [overwrite, locate_stored below above k x hbelow habove]
  simp only [ofEntries, List.map_append, List.map_cons, hvalues]
  rfl

theorem overwrite_vacant (hbelow : ∀ e ∈ below, e.1 < k) (habove : ∀ e ∈ above, k < e.1) :
    (ofEntries (below ++ above)).overwrite k y = (.ok none, ofEntries (below ++ above)) := by
  simp only [overwrite, locate_vacant below above k hbelow habove]
  rfl

end Cut

section Answers

variable {v : SparseVector α} (k : Nat) (x : α)

/-- Every access to a well-formed vector is made at an index it has. -/
theorem get?_eq (h : v.WellFormed) : v.get? k = .ok (v.lookup k) := by
  cases h.cutAt k with
  | stored below above x hbelow habove =>
      rw [get?_stored below above k x hbelow habove, lookup_stored below above k x hbelow]
  | vacant below above hbelow habove =>
      rw [get?_vacant below above k hbelow habove, lookup_vacant below above k hbelow habove]

theorem insert_answer (h : v.WellFormed) : (v.insert k x).1 = .ok (v.lookup k) := by
  cases h.cutAt k with
  | stored below above y hbelow habove =>
      rw [insert_stored below above k y x hbelow habove, lookup_stored below above k y hbelow]
  | vacant below above hbelow habove =>
      rw [insert_vacant below above k x hbelow habove, lookup_vacant below above k hbelow habove]

theorem remove_answer (h : v.WellFormed) : (v.remove k).1 = .ok (v.lookup k) := by
  cases h.cutAt k with
  | stored below above y hbelow habove =>
      rw [remove_stored below above k y hbelow habove, lookup_stored below above k y hbelow]
  | vacant below above hbelow habove =>
      rw [remove_vacant below above k hbelow habove, lookup_vacant below above k hbelow habove]

theorem overwrite_answer (h : v.WellFormed) : (v.overwrite k x).1 = .ok (v.lookup k) := by
  cases h.cutAt k with
  | stored below above y hbelow habove =>
      rw [overwrite_stored below above k y x hbelow habove, lookup_stored below above k y hbelow]
  | vacant below above hbelow habove =>
      rw [overwrite_vacant below above k x hbelow habove, lookup_vacant below above k hbelow habove]

end Answers

section Preservation

variable {v : SparseVector α} (k : Nat) (x : α)

/-- Insertion adds no index but its own. -/
theorem mem_indices_insert (h : v.WellFormed) (a : Nat) (ha : a ∈ (v.insert k x).2.indices) :
    a = k ∨ a ∈ v.indices := by
  cases h.cutAt k with
  | stored below above y hbelow habove =>
      rw [insert_stored below above k y x hbelow habove] at ha
      simp only [ofEntries, List.map_append, List.map_cons] at ha ⊢
      exact Or.inr ha
  | vacant below above hbelow habove =>
      rw [insert_vacant below above k x hbelow habove] at ha
      simp only [ofEntries, List.map_append, List.map_cons, List.mem_append, List.mem_cons] at ha ⊢
      rcases ha with ha | rfl | ha
      · exact Or.inr (Or.inl ha)
      · exact Or.inl rfl
      · exact Or.inr (Or.inr ha)

theorem insert_wellFormed (h : v.WellFormed) : (v.insert k x).2.WellFormed := by
  cases h.cutAt k with
  | stored below above y hbelow habove =>
      rw [insert_stored below above k y x hbelow habove]
      exact ⟨by simp [ofEntries], by simpa [ofEntries] using h.ascending⟩
  | vacant below above hbelow habove =>
      rw [insert_vacant below above k x hbelow habove]
      rw [ofEntries_wellFormed_iff] at h ⊢
      obtain ⟨hfront, hback, hcross⟩ := List.pairwise_append.mp h
      refine List.pairwise_append.mpr ⟨hfront, List.pairwise_cons.mpr ⟨habove, hback⟩, ?_⟩
      intro a ha b hb
      rcases List.mem_cons.mp hb with rfl | hb
      · exact hbelow a ha
      · exact hcross a ha b hb

theorem remove_wellFormed (h : v.WellFormed) : (v.remove k).2.WellFormed := by
  cases h.cutAt k with
  | stored below above y hbelow habove =>
      rw [remove_stored below above k y hbelow habove]
      rw [ofEntries_wellFormed_iff] at h ⊢
      exact h.sublist (by simp)
  | vacant below above hbelow habove =>
      rw [remove_vacant below above k hbelow habove]
      exact h

/-- Removal adds no index. -/
theorem mem_indices_remove (h : v.WellFormed) (a : Nat) (ha : a ∈ (v.remove k).2.indices) :
    a ∈ v.indices := by
  cases h.cutAt k with
  | stored below above y hbelow habove =>
      rw [remove_stored below above k y hbelow habove] at ha
      simp only [ofEntries, List.map_append, List.map_cons, List.mem_append, List.mem_cons] at ha ⊢
      exact ha.imp_right Or.inr
  | vacant below above hbelow habove =>
      rwa [remove_vacant below above k hbelow habove] at ha

/-- Replacing values in place keeps the indices and their number. -/
theorem WellFormed.with_values (h : v.WellFormed) (values : List α)
    (hlength : values.length = v.values.length) : ({v with values} : SparseVector α).WellFormed :=
  ⟨h.length_eq.trans hlength.symm, h.ascending⟩

theorem overwrite_indices (h : v.WellFormed) : (v.overwrite k x).2.indices = v.indices := by
  cases h.cutAt k with
  | stored below above y hbelow habove =>
      rw [overwrite_stored below above k y x hbelow habove]
      simp [ofEntries]
  | vacant below above hbelow habove =>
      rw [overwrite_vacant below above k x hbelow habove]

theorem overwrite_wellFormed (h : v.WellFormed) : (v.overwrite k x).2.WellFormed := by
  refine ⟨?_, overwrite_indices k x h ▸ h.ascending⟩
  cases h.cutAt k with
  | stored below above y hbelow habove =>
      rw [overwrite_stored below above k y x hbelow habove]
      simp [ofEntries]
  | vacant below above hbelow habove =>
      rw [overwrite_vacant below above k x hbelow habove]
      simp [ofEntries]

end Preservation

section Pairs

/-- The vector that pairs lead to, later ones replacing earlier ones. -/
def collect (pairs : List (Nat × α)) : SparseVector α :=
  pairs.foldl (fun v pair => (v.insert pair.1 pair.2).2) empty

theorem collect_concat (pairs : List (Nat × α)) (pair : Nat × α) :
    collect (pairs ++ [pair]) = ((collect pairs).insert pair.1 pair.2).2 := by
  rw [collect, List.foldl_append]
  rfl

theorem collect_wellFormed (pairs : List (Nat × α)) : (collect pairs).WellFormed := by
  induction pairs using List.reverseRecOn with
  | nil => exact (empty_fits 0).toWellFormed
  | append_singleton pairs pair ih =>
      rw [collect_concat]
      exact insert_wellFormed pair.1 pair.2 ih

/-- Collecting pairs meets no fault. -/
theorem ofPairs_eq (pairs : List (Nat × α)) : ofPairs pairs = .ok (collect pairs) := by
  induction pairs using List.reverseRecOn with
  | nil => rfl
  | append_singleton pairs pair ih =>
      have hanswer := insert_answer pair.1 pair.2 (collect_wellFormed pairs)
      rw [ofPairs] at ih ⊢
      rw [List.foldlM_append, ih, collect_concat]
      simp only [List.foldlM_cons, List.foldlM_nil, bind_pure]
      change ((collect pairs).insert pair.1 pair.2).1.map _ = _
      rw [hanswer]
      rfl

end Pairs

section Lookup

variable {v : SparseVector α} (k : Nat) (x : α)

theorem lookup_insert (h : v.WellFormed) (j : Nat) :
    (v.insert k x).2.lookup j = if j = k then some x else v.lookup j := by
    cases h.cutAt k with
  | stored below above y hbelow habove =>
      rw [insert_stored below above k y x hbelow habove]
      by_cases hj : j = k
      · subst hj
        simp [lookup, lookup_cut below _ j hbelow]
      · simp [lookup, lookup_skip below above _ hj, hj]
  | vacant below above hbelow habove =>
      rw [insert_vacant below above k x hbelow habove]
      by_cases hj : j = k
      · subst hj
        simp [lookup, lookup_cut below _ j hbelow]
      · simp [lookup, lookup_skip below above _ hj, hj]

theorem lookup_remove (h : v.WellFormed) (j : Nat) :
    (v.remove k).2.lookup j = if j = k then none else v.lookup j := by
    cases h.cutAt k with
  | stored below above y hbelow habove =>
      rw [remove_stored below above k y hbelow habove]
      by_cases hj : j = k
      · subst hj
        simp [lookup, lookup_cut below _ j hbelow, lookup_above above j habove]
      · simp [lookup, lookup_skip below above _ hj, hj]
  | vacant below above hbelow habove =>
      rw [remove_vacant below above k hbelow habove]
      by_cases hj : j = k
      · subst hj
        simp [lookup, lookup_cut below _ j hbelow, lookup_above above j habove]
      · simp [hj]

/-- Overwriting changes the value at an index that is stored and nothing else. -/
theorem lookup_overwrite (h : v.WellFormed) (j : Nat) :
    (v.overwrite k x).2.lookup j = if j = k ∧ (v.lookup k).isSome then some x else v.lookup j := by
  cases h.cutAt k with
  | stored below above y hbelow habove =>
      rw [overwrite_stored below above k y x hbelow habove,
        lookup_stored below above k y hbelow]
      by_cases hj : j = k
      · subst hj
        simp [lookup, lookup_cut below _ j hbelow]
      · simp [lookup, lookup_skip below above _ hj, hj]
  | vacant below above hbelow habove =>
      rw [overwrite_vacant below above k x hbelow habove,
        lookup_vacant below above k hbelow habove]
      simp

/-- A lookup finds exactly the stored pairs. -/
theorem lookup_eq_some_iff (h : v.WellFormed) : v.lookup k = some x ↔ (k, x) ∈ v.toList := by
  cases h.cutAt k with
  | stored below above y hbelow habove =>
      rw [lookup_stored below above k y hbelow, toList_ofEntries, Option.some.injEq]
      constructor
      · rintro rfl
        simp
      · intro hmem
        rcases List.mem_append.mp hmem with hmem | hmem
        · exact absurd (hbelow _ hmem) (Nat.lt_irrefl k)
        · rcases List.mem_cons.mp hmem with heq | hmem
          · exact (congrArg Prod.snd heq).symm
          · exact absurd (habove _ hmem) (Nat.lt_irrefl k)
  | vacant below above hbelow habove =>
      rw [lookup_vacant below above k hbelow habove, toList_ofEntries]
      constructor
      · intro hnone
        cases hnone
      · intro hmem
        rcases List.mem_append.mp hmem with hmem | hmem
        · exact absurd (hbelow _ hmem) (Nat.lt_irrefl k)
        · exact absurd (habove _ hmem) (Nat.lt_irrefl k)

end Lookup

section Lines

variable {v : SparseVector α} {len : Nat} (k : Nat) (x : α)

theorem insert_fits (h : v.FitsIn len) (hk : k < len) : (v.insert k x).2.FitsIn len := by
  refine ⟨insert_wellFormed k x h.toWellFormed, ?_⟩
  intro a ha
  rcases mem_indices_insert k x h.toWellFormed a ha with rfl | ha
  · exact hk
  · exact h.bounded a ha

theorem remove_fits (h : v.FitsIn len) : (v.remove k).2.FitsIn len :=
  ⟨remove_wellFormed k h.toWellFormed, fun a ha =>
    h.bounded a (mem_indices_remove k h.toWellFormed a ha)⟩

theorem overwrite_fits (h : v.FitsIn len) : (v.overwrite k x).2.FitsIn len := by
  refine ⟨overwrite_wellFormed k x h.toWellFormed, ?_⟩
  rw [overwrite_indices k x h.toWellFormed]
  exact h.bounded

theorem FitsIn.with_values (h : v.FitsIn len) (values : List α)
    (hlength : values.length = v.values.length) : ({v with values} : SparseVector α).FitsIn len :=
  ⟨h.toWellFormed.with_values values hlength, h.bounded⟩

/-- A script on the stored pairs overwrites values in place. -/
theorem length_values_runScript (v : SparseVector α) (script : List (Request α)) :
    (v.runScript script).2.values.length = v.values.length :=
  Script.run_store_invariant (fun values => values.length = v.values.length)
    (fun values cell x hlength => by simpa [Cells.write] using hlength) script _ v.values rfl

theorem runScript_fits (h : v.FitsIn len) (script : List (Request α)) :
    (v.runScript script).2.FitsIn len :=
  h.with_values _ (length_values_runScript v script)

/-- No request to a line stores anything outside it. An insertion at or past
its length is refused. -/
theorem answerSparse_fits (h : v.FitsIn len) (request : LineRequest α) :
    (LineScript.answerSparse len request v).2.FitsIn len := by
  cases request with
  | insert k x =>
      simp only [LineScript.answerSparse]
      split
      · next hk => exact insert_fits k x h hk
      · exact h
  | remove k => exact remove_fits k h
  | overwrite k x => exact overwrite_fits k x h
  | walk script | consume script => exact runScript_fits h script
  | _ => exact h

/-- A line stays inside its length under any script, also under one that is
refused halfway. -/
theorem runSparse_fits (h : v.FitsIn len) (script : LineScript α) :
    (LineScript.runSparse len script v).2.FitsIn len := by
  induction script generalizing v with
  | nil => exact h
  | cons request script ih =>
      have hanswer := answerSparse_fits h request
      simp only [LineScript.runSparse]
      split
      · next fault w heq =>
          rw [heq] at hanswer
          exact hanswer
      · next reply w heq =>
          rw [heq] at hanswer
          cases request with
          | consume inner => exact hanswer
          | _ => exact ih hanswer

end Lines

end SparseVector

end TransposedViews
