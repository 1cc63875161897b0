import Mathlib.Data.Finset.Sort
import TransposedViews.Proofs.EntryMap
import TransposedViews.Proofs.Equality
import TransposedViews.Proofs.Writes

/-!
Sparse vectors refine finite maps. A vector collected from pairs is compared
with the map that takes the same pairs, and both are asked the same requests.
A map has no places: where a request goes through stored values in place, the
map is given the keys in ascending order instead.
-/

namespace TransposedViews

/-- A finite map from indices to values. -/
abbrev IndexMap (α : Type) := Finmap fun _ : Nat => α

/-- A request to a sparse vector. Access for writing comes as `overwrite`, to
the sequence of values as `overwriteValues` from the front or as `writeValues`
by place, and to the stored pairs one by one as `walk`. -/
inductive VectorRequest (α : Type) where
  | insert (k : Nat) (x : α)
  | remove (k : Nat)
  | get (k : Nat)
  | overwrite (k : Nat) (x : α)
  | overwriteValues (replacements : List α)
  | writeValues (writes : List (Nat × α))
  | walk (script : List (Request α))
  deriving DecidableEq, Repr

inductive VectorReply (α : Type) where
  | value (x : Option α)
  | done
  | replies (replies : List (Reply Nat α))
  deriving DecidableEq, Repr

namespace VectorRequest

variable {α : Type}

/-- Writes to places as writes to the indices in these places. A place that
there is not is passed over. -/
def keyed (indices : List Nat) (writes : List (Nat × α)) : List (Nat × α) :=
  writes.filterMap fun w => indices[w.1]?.map fun k => (k, w.2)

theorem keyed_of_lt {indices : List Nat} {writes : List (Nat × α)}
    (h : ∀ w ∈ writes, w.1 < indices.length) :
    keyed indices writes = writes.map (Prod.map (fun p => indices.getD p 0) id) := by
  rw [keyed, ← List.filterMap_eq_map]
  refine List.filterMap_congr fun w hw => ?_
  have hget : indices[w.1]? = some (indices.getD w.1 0) := by simp [h w hw]
  rw [hget]
  rfl

theorem mem_of_mem_keyed {indices : List Nat} {writes : List (Nat × α)} {w : Nat × α}
    (h : w ∈ keyed indices writes) : w.1 ∈ indices := by
  obtain ⟨⟨p, x⟩, -, hkeyed⟩ := List.mem_filterMap.mp h
  obtain ⟨k, hk, rfl⟩ := Option.map_eq_some_iff.mp hkeyed
  exact List.mem_of_getElem? hk

/-- What a request writes in place, given the stored indices in ascending
order; absent for a request that is not of this kind. -/
def written (indices : List Nat) : VectorRequest α → Option (List (Nat × α))
  | .overwrite k x => some (if k ∈ indices then [(k, x)] else [])
  | .overwriteValues replacements => some (indices.zip replacements)
  | .writeValues writes => some (keyed indices writes)
  | .walk script => some (Script.writes script indices)
  | .insert .. | .remove _ | .get _ => none

end VectorRequest

namespace SparseVector

variable {α : Type}

/-- Carries out one request. -/
def answer (v : SparseVector α) :
    VectorRequest α → Except Fault (VectorReply α) × SparseVector α
  | .insert k x => (v.insert k x).map (Except.map .value) id
  | .remove k => (v.remove k).map (Except.map .value) id
  | .get k => ((v.get? k).map .value, v)
  | .overwrite k x => (v.overwrite k x).map (Except.map .value) id
  | .overwriteValues replacements => (.ok .done, v.overwriteValues replacements)
  | .writeValues writes => (.ok .done, {v with values := Cells.writeAll v.values writes})
  | .walk script => (v.runScript script).map (fun replies => .ok (.replies replies)) id

/-- Carries out requests in order. -/
def answerAll (v : SparseVector α) :
    List (VectorRequest α) → List (Except Fault (VectorReply α)) × SparseVector α
  | [] => ([], v)
  | request :: requests =>
      let (reply, v) := v.answer request
      let (replies, v) := v.answerAll requests
      (reply :: replies, v)

end SparseVector

namespace IndexMap

variable {α : Type}

/-- The keys in ascending order. -/
def indices (f : IndexMap α) : List Nat := f.keys.sort

/-- The pairs of a map in ascending order of the keys. -/
def pairs (f : IndexMap α) : List (Nat × α) :=
  f.indices.filterMap fun k => (f.lookup k).map fun x => (k, x)

/-- Inserts pairs from left to right, so later ones overwrite earlier ones. -/
def insertAll (f : IndexMap α) (pairs : List (Nat × α)) : IndexMap α :=
  pairs.foldl (fun f p => f.insert p.1 p.2) f

/-- What a map replies to a request, and the map after it. -/
def answer (f : IndexMap α) : VectorRequest α → VectorReply α × IndexMap α
  | .insert k x => (.value (f.lookup k), f.insert k x)
  | .remove k => (.value (f.lookup k), f.erase k)
  | .get k => (.value (f.lookup k), f)
  | .overwrite k x => (.value (f.lookup k), if k ∈ f then f.insert k x else f)
  | .overwriteValues replacements => (.done, f.insertAll (f.indices.zip replacements))
  | .writeValues writes => (.done, f.insertAll (VectorRequest.keyed f.indices writes))
  | .walk script =>
      (.replies (Script.replies script f.pairs), f.insertAll (Script.writes script f.indices))

def answerAll (f : IndexMap α) : List (VectorRequest α) → List (VectorReply α) × IndexMap α
  | [] => ([], f)
  | request :: requests =>
      let (reply, f) := f.answer request
      let (replies, f) := f.answerAll requests
      (reply :: replies, f)

theorem mem_indices_iff (f : IndexMap α) (k : Nat) : k ∈ f.indices ↔ k ∈ f := by
  rw [indices, Finset.mem_sort, Finmap.mem_keys]

theorem eq_empty_iff (f : IndexMap α) : f = ∅ ↔ ∀ k, k ∉ f := by
  constructor
  · rintro rfl k
    exact Finmap.notMem_empty
  · intro h
    refine Finmap.ext_lookup fun k => ?_
    rw [Finmap.lookup_eq_none.mpr (h k), Finmap.lookup_empty]

@[simp] theorem insertAll_nil (f : IndexMap α) : f.insertAll [] = f := rfl

@[simp] theorem insertAll_cons (f : IndexMap α) (p : Nat × α) (pairs : List (Nat × α)) :
    f.insertAll (p :: pairs) = insertAll (f.insert p.1 p.2) pairs := rfl

theorem insertAll_concat (f : IndexMap α) (pairs : List (Nat × α)) (p : Nat × α) :
    f.insertAll (pairs ++ [p]) = (f.insertAll pairs).insert p.1 p.2 := List.foldl_append

/-- The last of the inserted pairs with a key counts. -/
theorem lookup_insertAll (f : IndexMap α) (pairs : List (Nat × α)) (k : Nat) :
    (f.insertAll pairs).lookup k = (pairs.reverse.lookup k).or (f.lookup k) := by
  induction pairs using List.reverseRecOn with
  | nil => rfl
  | append_singleton pairs p ih =>
      obtain ⟨l, x⟩ := p
      rw [insertAll_concat, lookup_insert_eq_ite, ih, List.reverse_append, List.reverse_singleton,
        List.singleton_append, lookup_cons_eq_ite]
      split <;> rfl

/-- Inserting at keys that are there adds none. -/
theorem mem_insertAll_iff {f : IndexMap α} {pairs : List (Nat × α)} (h : ∀ p ∈ pairs, p.1 ∈ f)
    (k : Nat) : k ∈ f.insertAll pairs ↔ k ∈ f := by
  induction pairs generalizing f with
  | nil => rfl
  | cons p pairs ih =>
      obtain ⟨hp, hrest⟩ := List.forall_mem_cons.mp h
      have hafter : ∀ q ∈ pairs, q.1 ∈ f.insert p.1 p.2 := by
        intro q hq
        exact Finmap.mem_insert.mpr (Or.inr (hrest q hq))
      rw [insertAll_cons, ih hafter, Finmap.mem_insert]
      exact or_iff_right_of_imp fun heq => heq ▸ hp

theorem indices_insertAll {f : IndexMap α} {pairs : List (Nat × α)} (h : ∀ p ∈ pairs, p.1 ∈ f) :
    indices (f.insertAll pairs) = f.indices := by
  have hkeys : (f.insertAll pairs).keys = f.keys := by
    refine Finset.ext fun k => ?_
    rw [Finmap.mem_keys, Finmap.mem_keys, mem_insertAll_iff h]
  rw [indices, hkeys, indices]

/-- A request that writes in place is answered by insertions at keys that are
there. -/
theorem answer_written {f : IndexMap α} {request : VectorRequest α} {writes : List (Nat × α)}
    (h : request.written f.indices = some writes) :
    (answer f request).2 = f.insertAll writes ∧ ∀ w ∈ writes, w.1 ∈ f.indices := by
  cases request with
  | overwrite k x =>
      simp only [VectorRequest.written, Option.some.injEq] at h
      subst h
      simp only [answer, mem_indices_iff]
      split
      · next hk => exact ⟨rfl, by simpa [mem_indices_iff] using hk⟩
      · exact ⟨rfl, by simp⟩
  | overwriteValues replacements =>
      cases h
      exact ⟨rfl, fun w hw => (List.of_mem_zip hw).1⟩
  | writeValues places =>
      cases h
      exact ⟨rfl, fun w hw => VectorRequest.mem_of_mem_keyed hw⟩
  | walk script =>
      cases h
      exact ⟨rfl, fun w hw => Script.mem_of_mem_writes hw⟩
  | _ => cases h

end IndexMap

section Values

variable {α : Type}

/-- The values of a list, each in its place. -/
theorem contents_zipIdx (xs : List α) : Contents xs xs.zipIdx where
  distinct := by
    rw [map_snd_zipIdx]
    exact List.nodup_range
  read_eq _ hp := List.mem_zipIdx_iff_getElem?.mp hp

theorem map_getD_range (xs : List α) (d : α) :
    (List.range xs.length).map (fun k => xs.getD k d) = xs := by
  refine List.ext_getElem (by simp) fun k _ hk => ?_
  simp [hk]

/-- The last of ascending numbers is the largest. -/
theorem getLast?_eq_some_iff_of_ascending {ks : List Nat} (h : ks.Pairwise (· < ·)) (k : Nat) :
    ks.getLast? = some k ↔ k ∈ ks ∧ ∀ l ∈ ks, l ≤ k := by
  have hlargest : ∀ m, ks.getLast? = some m → m ∈ ks ∧ ∀ l ∈ ks, l ≤ m := by
    intro m hm
    obtain ⟨front, rfl⟩ := List.getLast?_eq_some_iff.mp hm
    obtain ⟨-, -, hbelow⟩ := List.pairwise_append.mp h
    refine ⟨by simp, fun l hl => ?_⟩
    rcases List.mem_append.mp hl with hl | hl
    · exact Nat.le_of_lt (hbelow l hl m (by simp))
    · exact Nat.le_of_eq (List.mem_singleton.mp hl)
  refine ⟨hlargest k, ?_⟩
  rintro ⟨hmem, hk⟩
  cases hlast : ks.getLast? with
  | none =>
      rw [List.getLast?_eq_none_iff.mp hlast] at hmem
      cases hmem
  | some m =>
      obtain ⟨hm, hmax⟩ := hlargest m hlast
      rw [Nat.le_antisymm (hk m hm) (hmax k hmem)]

/-- Writes behind the first element. -/
theorem writeAll_cons_succ (x : α) (xs : List α) (writes : List (Nat × α)) :
    Cells.writeAll (x :: xs) (writes.map (Prod.map Nat.succ id)) =
      x :: Cells.writeAll xs writes := by
  induction writes generalizing xs with
  | nil => rfl
  | cons w writes ih => exact ih (xs.set w.1 w.2)

/-- Values written one after the other from the front. -/
theorem writeAll_zip_range (xs replacements : List α) :
    Cells.writeAll xs ((List.range xs.length).zip replacements) =
      replacements.take xs.length ++ xs.drop replacements.length := by
  induction xs generalizing replacements with
  | nil => simp
  | cons x xs ih =>
      cases replacements with
      | nil => simp
      | cons y replacements =>
          rw [List.length_cons, List.range_succ_eq_map, List.zip_cons_cons, List.zip_map_left,
            Cells.writeAll_cons]
          refine (writeAll_cons_succ y xs _).trans ?_
          rw [ih, List.take_succ_cons, List.length_cons, List.drop_succ_cons, List.cons_append]

end Values

namespace SparseVector

variable {α : Type} {v : SparseVector α} {f : IndexMap α}

section Places

/-- An index is found where it is stored. -/
theorem locate_of_getElem? (h : v.WellFormed) {p k : Nat} (hk : v.indices[p]? = some k) :
    locate v.indices k = .stored p := by
  obtain ⟨hp, rfl⟩ := List.getElem?_eq_some_iff.mp hk
  have hbelow : ∀ q (hq : q < p), decide (v.indices[p] ≤ v.indices[q]) = false := by
    intro q hq
    have hlt := List.pairwise_iff_getElem.mp h.ascending q p (by omega) hp hq
    simpa using hlt
  have hfind : v.indices.findIdx (v.indices[p] ≤ ·) = p :=
    (List.findIdx_eq hp).mpr ⟨by simp, hbelow⟩
  rw [locate, hfind, if_pos hk]

/-- Overwriting a value in its place is inserting it anew. -/
theorem insert_of_getElem? (h : v.WellFormed) {p k : Nat} (hk : v.indices[p]? = some k) (x : α) :
    (v.insert k x).2 = {v with values := v.values.set p x} := by
  obtain ⟨hp, -⟩ := List.getElem?_eq_some_iff.mp hk
  have hp' : p < v.values.length := h.length_eq ▸ hp
  have hreplace : replaceItem v.values p x = .ok (v.values[p], v.values.set p x) := by
    rw [replaceItem, readItem, List.getElem?_eq_getElem hp']
    rfl
  simp only [insert, locate_of_getElem? h hk, hreplace]
  rfl

end Places

/-- Running a script on the stored pairs writes to the values it comes to. -/
theorem runScript_eq (h : v.WellFormed) (script : List (Request α)) :
    v.runScript script = (Script.replies script v.toList, {v with
      values := Cells.writeAll v.values (Script.writes script (List.range v.values.length))}) := by
  have hcursor : Cursor.toList (⟨v.cells⟩ : Items (Nat × Nat)) =
      v.values.zipIdx.map fun q => (v.indices.getD q.2 0, q.2) := by
    rw [Matrix.toList_items, cells_eq h]
  have hpairs : v.toList = v.values.zipIdx.map fun q => (v.indices.getD q.2 0, q.1) :=
    zip_eq_zipIdx_map h.length_eq 0
  obtain ⟨cursor', hrun⟩ := Script.run_eq (fun p => v.indices.getD p 0) script
    (contents_zipIdx v.values) hcursor
  rw [runScript, hrun, hpairs, map_snd_zipIdx]

/-- Overwriting values from the front writes to the first of them. -/
theorem overwriteValues_eq (v : SparseVector α) (replacements : List α) :
    v.overwriteValues replacements =
      {v with
        values := Cells.writeAll v.values ((List.range v.values.length).zip replacements)} := by
  rw [overwriteValues, writeAll_zip_range]
  refine congrArg (SparseVector.mk v.indices) ?_
  rcases Nat.le_total replacements.length v.values.length with hle | hle
  · rw [Nat.min_eq_left hle, List.take_length, List.take_of_length_le hle]
  · rw [Nat.min_eq_right hle, List.drop_length, List.drop_eq_nil_of_le hle]

/-- A vector whose lookups are those of a map. -/
structure Represents (v : SparseVector α) (f : IndexMap α) : Prop where
  wellFormed : v.WellFormed
  lookup_eq : ∀ k, v.lookup k = f.lookup k

namespace Represents

theorem mem_iff (h : v.Represents f) (k : Nat) : k ∈ v.indices ↔ k ∈ f := by
  rw [SparseVector.mem_indices_iff h.wellFormed, h.lookup_eq, Finmap.lookup_isSome]

theorem indices_eq (h : v.Represents f) : v.indices = f.indices := by
  refine h.wellFormed.ascending.eq_of_mem_iff f.keys.sortedLT_sort.pairwise fun k => ?_
  rw [h.mem_iff, ← IndexMap.mem_indices_iff, IndexMap.indices]

theorem toList_eq (h : v.Represents f) : v.toList = f.pairs := by
  have hfst : v.toList.map Prod.fst = v.indices :=
    List.map_fst_zip (Nat.le_of_eq h.wellFormed.length_eq)
  rw [IndexMap.pairs, ← h.indices_eq, ← hfst, List.filterMap_map]
  refine (List.filterMap_some.symm.trans ?_)
  refine List.filterMap_congr fun e he => ?_
  have hstored : v.lookup e.1 = some e.2 := (lookup_eq_some_iff e.1 e.2 h.wellFormed).mpr he
  rw [Function.comp_apply, ← h.lookup_eq, hstored]
  rfl

theorem insert (h : v.Represents f) (k : Nat) (x : α) :
    (v.insert k x).2.Represents (f.insert k x) where
  wellFormed := insert_wellFormed k x h.wellFormed
  lookup_eq l := by rw [lookup_insert k x h.wellFormed, lookup_insert_eq_ite, h.lookup_eq]

theorem remove (h : v.Represents f) (k : Nat) : (v.remove k).2.Represents (f.erase k) where
  wellFormed := remove_wellFormed k h.wellFormed
  lookup_eq l := by rw [lookup_remove k h.wellFormed, lookup_erase_eq_ite, h.lookup_eq]

theorem overwrite (h : v.Represents f) (k : Nat) (x : α) :
    (v.overwrite k x).2.Represents (if k ∈ f then f.insert k x else f) := by
  refine ⟨overwrite_wellFormed k x h.wellFormed, fun l => ?_⟩
  rw [lookup_overwrite k x h.wellFormed, h.lookup_eq, h.lookup_eq]
  simp only [Finmap.lookup_isSome]
  rcases Decidable.em (k ∈ f) with hmem | hmem
  · simp only [hmem, and_true, if_true, lookup_insert_eq_ite]
  · simp only [hmem, and_false, if_false]

/-- Writes to values in their places are insertions at the indices in these
places. -/
theorem writeAll (h : v.Represents f) (writes : List (Nat × α)) :
    ({v with values := Cells.writeAll v.values writes} : SparseVector α).Represents
      (f.insertAll (VectorRequest.keyed v.indices writes)) := by
  induction writes generalizing v f with
  | nil => exact h
  | cons w writes ih =>
      obtain ⟨p, x⟩ := w
      rw [VectorRequest.keyed, List.filterMap_cons, Cells.writeAll_cons]
      cases hk : v.indices[p]? with
      | none =>
          have hlength := h.wellFormed.length_eq
          have hend := List.getElem?_eq_none_iff.mp hk
          have hsame : Cells.write v.values p x = v.values :=
            List.set_eq_of_length_le (by omega)
          rw [hsame]
          exact ih h
      | some k =>
          have hset := h.insert k x
          rw [insert_of_getElem? h.wellFormed hk] at hset
          exact ih hset

theorem places_eq (h : v.Represents f) :
    (List.range v.values.length).map (fun p => v.indices.getD p 0) = f.indices := by
  rw [← h.wellFormed.length_eq, map_getD_range, h.indices_eq]

/-- A walk is answered from the pairs of the map, and its writes are
insertions at the keys it comes to. -/
theorem runScript (h : v.Represents f) (script : List (Request α)) :
    (v.runScript script).1 = Script.replies script f.pairs ∧
      (v.runScript script).2.Represents (f.insertAll (Script.writes script f.indices)) := by
  have hplaces : ∀ w ∈ Script.writes script (List.range v.values.length),
      w.1 < v.indices.length := by
    intro w hw
    rw [h.wellFormed.length_eq]
    exact List.mem_range.mp (Script.mem_of_mem_writes hw)
  rw [runScript_eq h.wellFormed, ← h.toList_eq, ← h.places_eq, Script.writes_map,
    ← VectorRequest.keyed_of_lt hplaces]
  exact ⟨rfl, h.writeAll _⟩

/-- Overwriting values from the front inserts them at the lowest keys. -/
theorem overwriteValues (h : v.Represents f) (replacements : List α) :
    (v.overwriteValues replacements).Represents (f.insertAll (f.indices.zip replacements)) := by
  have hplaces : ∀ w ∈ (List.range v.values.length).zip replacements,
      w.1 < v.indices.length := by
    intro w hw
    rw [h.wellFormed.length_eq]
    exact List.mem_range.mp (List.of_mem_zip hw).1
  rw [overwriteValues_eq, ← h.places_eq, List.zip_map_left, ← VectorRequest.keyed_of_lt hplaces]
  exact h.writeAll _

theorem get?_eq (h : v.Represents f) (k : Nat) : v.get? k = .ok (f.lookup k) := by
  rw [SparseVector.get?_eq k h.wellFormed, h.lookup_eq]

/-- No request is refused. -/
theorem answer (h : v.Represents f) (request : VectorRequest α) :
    (v.answer request).1 = .ok (f.answer request).1 ∧
      (v.answer request).2.Represents (f.answer request).2 := by
  cases request with
  | insert k x =>
      refine ⟨?_, h.insert k x⟩
      have hanswer := insert_answer k x h.wellFormed
      rw [h.lookup_eq] at hanswer
      exact congrArg (Except.map VectorReply.value) hanswer
  | remove k =>
      refine ⟨?_, h.remove k⟩
      have hanswer := remove_answer k h.wellFormed
      rw [h.lookup_eq] at hanswer
      exact congrArg (Except.map VectorReply.value) hanswer
  | get k => exact ⟨congrArg (Except.map VectorReply.value) (h.get?_eq k), h⟩
  | overwrite k x =>
      refine ⟨?_, h.overwrite k x⟩
      have hanswer := overwrite_answer k x h.wellFormed
      rw [h.lookup_eq] at hanswer
      exact congrArg (Except.map VectorReply.value) hanswer
  | overwriteValues replacements => exact ⟨rfl, h.overwriteValues replacements⟩
  | writeValues writes =>
      refine ⟨rfl, ?_⟩
      rw [IndexMap.answer, ← h.indices_eq]
      exact h.writeAll writes
  | walk script =>
      obtain ⟨hreplies, hafter⟩ := h.runScript script
      exact ⟨congrArg (fun replies => Except.ok (VectorReply.replies replies)) hreplies, hafter⟩

/-- A vector and its map stay together over any run of requests. -/
theorem answerAll (h : v.Represents f) (requests : List (VectorRequest α)) :
    (v.answerAll requests).1 = (IndexMap.answerAll f requests).1.map .ok ∧
      (v.answerAll requests).2.Represents (IndexMap.answerAll f requests).2 := by
  induction requests generalizing v f with
  | nil => exact ⟨rfl, h⟩
  | cons request requests ih =>
      obtain ⟨hreply, hafter⟩ := h.answer request
      obtain ⟨hreplies, hfinal⟩ := ih hafter
      exact ⟨congrArg₂ List.cons hreply hreplies, hfinal⟩

end Represents

/-- Everything that can be read off a vector, as the map has it. -/
structure Agrees (v : SparseVector α) (f : IndexMap α) : Prop where
  get?_eq : ∀ k, v.get? k = .ok (f.lookup k)
  nnz_eq : v.nnz = f.keys.card
  isEmpty_iff : v.isEmpty = true ↔ f = ∅
  lastIndex?_eq_none_iff : v.lastIndex? = none ↔ f = ∅
  lastIndex?_eq_some_iff : ∀ k, v.lastIndex? = some k ↔ k ∈ f ∧ ∀ l ∈ f, l ≤ k
  indices_eq : v.indices = f.indices
  values_eq : v.values = f.pairs.map Prod.snd
  listed_eq : Cursor.toList v.cursor = f.pairs
  listed_ascending : (Cursor.toList v.cursor).Pairwise fun a b => a.1 < b.1
  mem_listed_iff : ∀ k x, (k, x) ∈ Cursor.toList v.cursor ↔ f.lookup k = some x

/-- A request that writes in place keeps the stored indices. At an index that
it addresses the last value written there is read afterwards, and at any other
index what was read before. -/
def WritesInPlace (v : SparseVector α) : Prop :=
  ∀ request writes, request.written v.indices = some writes →
    (v.answer request).2.indices = v.indices ∧
      (∀ w ∈ writes, w.1 ∈ v.indices) ∧
      ∀ k, (v.answer request).2.get? k = (v.get? k).map fun x => (writes.reverse.lookup k).or x

theorem Represents.agrees (h : v.Represents f) : v.Agrees f := by
  have hempty : v.indices = [] ↔ f = ∅ := by
    rw [List.eq_nil_iff_forall_not_mem, IndexMap.eq_empty_iff]
    exact forall_congr' fun k => not_congr (h.mem_iff k)
  have hlisted : Cursor.toList v.cursor = v.toList := Matrix.toList_items v.toList
  have hlength := h.wellFormed.length_eq
  constructor
  · exact h.get?_eq
  · rw [nnz, h.indices_eq, IndexMap.indices, Finset.length_sort]
  · rw [isEmpty, List.isEmpty_iff, hempty]
  · rw [lastIndex?, List.getLast?_eq_none_iff, hempty]
  · intro k
    rw [lastIndex?, getLast?_eq_some_iff_of_ascending h.wellFormed.ascending]
    simp only [h.mem_iff]
  · exact h.indices_eq
  · rw [← h.toList_eq, toList, List.map_snd_zip (Nat.le_of_eq hlength.symm)]
  · rw [hlisted, h.toList_eq]
  · rw [hlisted]
    refine List.pairwise_map.mp ?_
    rw [toList, List.map_fst_zip (Nat.le_of_eq hlength)]
    exact h.wellFormed.ascending
  · intro k x
    rw [hlisted, ← lookup_eq_some_iff k x h.wellFormed, h.lookup_eq]

theorem Represents.writesInPlace (h : v.Represents f) : v.WritesInPlace := by
  intro request writes hwritten
  obtain ⟨-, hafter⟩ := h.answer request
  rw [h.indices_eq] at hwritten
  obtain ⟨hinserted, hkeys⟩ := IndexMap.answer_written hwritten
  rw [hinserted] at hafter
  have hmem : ∀ w ∈ writes, w.1 ∈ f := fun w hw => (f.mem_indices_iff w.1).mp (hkeys w hw)
  refine ⟨?_, ?_, fun k => ?_⟩
  · rw [hafter.indices_eq, h.indices_eq, IndexMap.indices_insertAll hmem]
  · rw [h.indices_eq]
    exact hkeys
  · rw [hafter.get?_eq, IndexMap.lookup_insertAll, h.get?_eq]
    rfl

theorem represents_collect (pairs : List (Nat × α)) :
    (collect pairs).Represents (IndexMap.insertAll ∅ pairs) := by
  induction pairs using List.reverseRecOn with
  | nil =>
      refine ⟨collect_wellFormed [], fun k => ?_⟩
      rw [IndexMap.insertAll_nil, Finmap.lookup_empty]
      rfl
  | append_singleton pairs p ih =>
      rw [IndexMap.insertAll_concat, collect_concat]
      exact ih.insert p.1 p.2

/-- A vector collected from pairs answers every run of requests as the finite
map does that takes the pairs from left to right, and shows what the map has at
the end of it. What is then written in place stays in place. No request is
refused. -/
theorem refines_index_map (pairs : List (Nat × α)) (requests : List (VectorRequest α)) :
    ∃ v, ofPairs pairs = .ok v ∧
      (v.answerAll requests).1 =
        (IndexMap.answerAll (IndexMap.insertAll ∅ pairs) requests).1.map .ok ∧
      (v.answerAll requests).2.Agrees
        (IndexMap.answerAll (IndexMap.insertAll ∅ pairs) requests).2 ∧
      (v.answerAll requests).2.WritesInPlace := by
  obtain ⟨hreplies, hfinal⟩ := (represents_collect pairs).answerAll requests
  exact ⟨collect pairs, ofPairs_eq pairs, hreplies, hfinal.agrees, hfinal.writesInPlace⟩

-- The largest machine word is an index like any other.
example :
    (collect [(18446744073709551615, 1), (7, 2), (18446744073709551615, 3)]).answerAll
        [.insert 0 4, .overwrite 7 5, .remove 0, .get 18446744073709551615] =
      ([.ok (.value none), .ok (.value (some 2)), .ok (.value (some 4)), .ok (.value (some 3))],
        ⟨[7, 18446744073709551615], [5, 3]⟩) := by
  rfl

end SparseVector

end TransposedViews
