import Mathlib.Data.List.Nodup
import TransposedViews.Proofs.SparseLines

/-!
Overwriting cells one after the other. Writing to a cell changes that cell
alone, so a traversal that comes to distinct cells and replaces each content by
something made of it leaves the same store as changing all these cells at once.
The order in which the cells are come to is forgotten thereby.
-/

namespace TransposedViews

/-- Stores whose cells can be changed all at once, each by a function of its
own. Writing to a cell is the change that concerns this cell alone. -/
class UniformCells (S : Type u) (κ : outParam (Type v)) (α : outParam (Type w)) [DecidableEq κ]
    [Cells S κ α] where
  mapCells : (κ → α → α) → S → S
  mapCells_id (s : S) : mapCells (fun _ x => x) s = s
  mapCells_mapCells (g g' : κ → α → α) (s : S) :
    mapCells g' (mapCells g s) = mapCells (fun c x => g' c (g c x)) s
  mapCells_congr {g g' : κ → α → α} {s : S}
    (h : ∀ c x, Cells.read s c = some x → g c x = g' c x) : mapCells g s = mapCells g' s
  read_mapCells (g : κ → α → α) (s : S) (c : κ) :
    Cells.read (mapCells g s) c = (Cells.read s c).map (g c)
  write_eq (s : S) (c : κ) (x : α) :
    Cells.write s c x = mapCells (fun d y => if d = c then x else y) s

open UniformCells

section Instances

instance : UniformCells (Array α) Nat α where
  mapCells g xs := xs.mapIdx g
  mapCells_id xs := by
    refine Array.ext_getElem? fun k => ?_
    simp
  mapCells_mapCells g g' xs := Array.mapIdx_mapIdx
  mapCells_congr h := by
    refine Array.ext_getElem? fun k => ?_
    rw [Array.getElem?_mapIdx, Array.getElem?_mapIdx]
    exact Option.map_congr (h k)
  read_mapCells g xs k := Array.getElem?_mapIdx
  write_eq xs k x := by
    refine Array.ext_getElem? fun l => ?_
    simp only [Cells.write, Array.getElem?_setIfInBounds, Array.getElem?_mapIdx]
    by_cases hkl : k = l
    · subst hkl
      by_cases hk : k < xs.size
      · simp [hk]
      · simp [hk]
    · have hlk : l ≠ k := fun heq => hkl heq.symm
      simp [hkl, hlk]

instance : UniformCells (List α) Nat α where
  mapCells g xs := xs.mapIdx g
  mapCells_id xs := by
    refine List.ext_getElem? fun k => ?_
    simp
  mapCells_mapCells g g' xs := List.mapIdx_mapIdx
  mapCells_congr h := by
    refine List.ext_getElem? fun k => ?_
    rw [List.getElem?_mapIdx, List.getElem?_mapIdx]
    exact Option.map_congr (h k)
  read_mapCells g xs k := List.getElem?_mapIdx
  write_eq xs k x := by
    refine List.ext_getElem? fun l => ?_
    simp only [Cells.write, List.getElem?_set, List.getElem?_mapIdx]
    by_cases hkl : k = l
    · subst hkl
      by_cases hk : k < xs.length
      · simp [hk]
      · simp [hk]
    · have hlk : l ≠ k := fun heq => hkl heq.symm
      simp [hkl, hlk]

/-- In the lines of a sparse matrix the values change and the indices stay. -/
instance : UniformCells (Array (SparseVector α)) (Nat × Nat) α where
  mapCells g lines := lines.mapIdx fun i v =>
    {v with values := mapCells (fun p => g (i, p)) v.values}
  mapCells_id lines := by
    refine Array.ext_getElem? fun k => ?_
    simp [mapCells_id]
  mapCells_mapCells g g' lines := by
    rw [Array.mapIdx_mapIdx]
    simp only [Function.comp_def, mapCells_mapCells]
  mapCells_congr h := by
    refine Array.ext_getElem? fun i => ?_
    rw [Array.getElem?_mapIdx, Array.getElem?_mapIdx]
    refine Option.map_congr fun v hv => ?_
    rw [mapCells_congr fun p x hx => h (i, p) x ?_]
    simpa [Cells.read, hv] using hx
  read_mapCells g lines c := by
    simp only [Cells.read, Array.getElem?_mapIdx]
    cases hline : lines[c.1]? with
    | none => rfl
    | some v => exact read_mapCells (fun p => g (c.1, p)) v.values c.2
  write_eq lines c x := by
    refine Array.ext_getElem? fun i => ?_
    simp only [Cells.write, Array.getElem?_modify, Array.getElem?_mapIdx]
    by_cases hi : c.1 = i
    · subst hi
      cases hline : lines[c.1]? with
      | none => simp
      | some v =>
          have hwrite :
              v.values.set c.2 x = mapCells (fun p y => if p = c.2 then x else y) v.values :=
            write_eq v.values c.2 x
          simp [hwrite, Prod.ext_iff]
    · have hne : ∀ p, (i, p) ≠ c := by
        rintro p rfl
        exact hi rfl
      simp only [hi, hne, if_false, mapCells_id]
      simp

end Instances

section Overwriting

variable {S : Type u} {κ : Type v} {α : Type w} [Cells S κ α] {s : S} {items items' : List (α × κ)}

/-- Distinct cells of a store with what is in them, as `(content, cell)`. -/
structure Contents (s : S) (items : List (α × κ)) : Prop where
  distinct : (items.map Prod.snd).Nodup
  read_eq : ∀ p ∈ items, Cells.read s p.2 = some p.1

theorem Contents.disjoint (h : Contents s (items ++ items')) :
    (items.map Prod.snd).Disjoint (items'.map Prod.snd) := by
  have hdistinct := h.distinct
  rw [List.map_append] at hdistinct
  exact List.disjoint_of_nodup_append hdistinct

theorem Contents.sublist (h : Contents s items) (hsub : items'.Sublist items) :
    Contents s items' where
  distinct := h.distinct.sublist (hsub.map _)
  read_eq p hp := h.read_eq p (hsub.subset hp)

variable [DecidableEq κ] [UniformCells S κ α] {f : κ → α → α}

/-- Replaces what is in the given cells by what `f` makes of it. -/
def overwrite (f : κ → α → α) (cells : List κ) (s : S) : S :=
  mapCells (fun c x => if c ∈ cells then f c x else x) s

/-- The store with nothing changed but what is in its cells. -/
def Recast (s t : S) : Prop := ∃ g : κ → α → α, t = mapCells g s

theorem Recast.refl (s : S) : Recast s s := ⟨fun _ x => x, (mapCells_id s).symm⟩

theorem Recast.overwrite {t : S} (h : Recast s t) (f : κ → α → α) (cells : List κ) :
    Recast s (overwrite f cells t) := by
  obtain ⟨g, rfl⟩ := h
  exact ⟨_, mapCells_mapCells g _ s⟩

@[simp] theorem overwrite_nil (f : κ → α → α) (s : S) : overwrite f [] s = s := by
  simp only [overwrite, List.not_mem_nil, if_false, mapCells_id]

theorem overwrite_singleton {c : κ} {x : α} (hread : Cells.read s c = some x) :
    overwrite f [c] s = Cells.write s c (f c x) := by
  rw [write_eq]
  refine mapCells_congr fun d y hd => ?_
  simp only [List.mem_singleton]
  split
  · next heq =>
      subst heq
      rw [hd] at hread
      cases hread
      rfl
  · rfl

theorem overwrite_append {cells cells' : List κ} (hdisjoint : cells.Disjoint cells') :
    overwrite f (cells ++ cells') s = overwrite f cells' (overwrite f cells s) := by
  rw [overwrite, overwrite, overwrite, mapCells_mapCells]
  refine mapCells_congr fun c x _ => ?_
  by_cases hmem : c ∈ cells
  · have hnot : c ∉ cells' := hdisjoint hmem
    simp [hmem, hnot]
  · simp [hmem]

theorem read_overwrite_of_not_mem {cells : List κ} {c : κ} (hnot : c ∉ cells) :
    Cells.read (overwrite f cells s) c = Cells.read s c := by
  rw [overwrite, read_mapCells]
  simp [hnot]

/-- The cells that are still to come are as they were. -/
theorem Contents.after (f : κ → α → α) (h : Contents s (items ++ items')) :
    Contents (overwrite f (items.map Prod.snd) s) items' where
  distinct := h.distinct.sublist ((List.sublist_append_right _ _).map _)
  read_eq p hp := by
    have hnot : p.2 ∉ items.map Prod.snd := fun hmem =>
      h.disjoint hmem (List.mem_map_of_mem hp)
    rw [read_overwrite_of_not_mem hnot]
    exact h.read_eq p (List.mem_append_right _ hp)

/-- One step of a traversal: the first cell is written, and the others are
left to the steps after it. -/
theorem Contents.step {x : α} {c : κ} (f : κ → α → α) (h : Contents s ((x, c) :: items)) :
    Cells.read s c = some x ∧ Contents (Cells.write s c (f c x)) items ∧
      overwrite f (((x, c) :: items).map Prod.snd) s =
        overwrite f (items.map Prod.snd) (Cells.write s c (f c x)) := by
  have hsplit : Contents s ([(x, c)] ++ items) := h
  have hread : Cells.read s c = some x := h.read_eq (x, c) List.mem_cons_self
  have hafter := hsplit.after f
  have hwrite : overwrite f ([(x, c)].map Prod.snd) s = Cells.write s c (f c x) :=
    overwrite_singleton hread
  have happend := overwrite_append (f := f) hsplit.disjoint (s := s)
  rw [hwrite] at hafter happend
  exact ⟨hread, hafter, happend⟩

end Overwriting

theorem Cursor.next_of_toList_cons [Cursor σ ι] {cursor : σ} {a : ι} {rest : List ι}
    (h : toList cursor = a :: rest) :
    ∃ cursor', next cursor = (some a, cursor') ∧ toList cursor' = rest := by
  cases hnext : (next cursor).1 with
  | none =>
      rw [toList_of_next_none cursor hnext] at h
      cases h
  | some b =>
      rw [toList_of_next_some cursor b hnext] at h
      cases h
      exact ⟨(next cursor).2, Prod.ext hnext rfl, rfl⟩

section Walks

variable {S : Type u} {κ : Type v} {α : Type w} [Cells S κ α] {σ : Type x} {ι : Type y}
  [Cursor σ (ι × κ)]

/-- Replies to a walk over a line, from those of a plain traversal. -/
def LineScript.walkReply (item : ι → α → Item α) : Reply ι α → LineReply α
  | .item label x => .item (item label x)
  | .finished => .finished
  | .hint size => .hint size

theorem LineScript.runWalk_next (item : ι → α → Item α) (replacements : List (Option α))
    (cursor : σ) (s : S) :
    runWalk item (replacements.map .next) cursor s =
      ((Script.run (replacements.map .next) cursor s).1.map (walkReply item),
        (Script.run (replacements.map .next) cursor s).2.2) := by
  induction replacements generalizing cursor s with
  | nil => rfl
  | cons replacement replacements ih =>
      rw [List.map_cons, List.map_cons, runWalk, Script.run]
      rcases Script.step (.next replacement) cursor s with ⟨_ | _ | _, cursor', s'⟩
      · simp only [ih, walkReply, List.map_cons]
      · simp only [ih, walkReply, List.map_cons]
      · simp only [ih, walkReply, List.map_cons]

end Walks

section Scripts

variable {S : Type u} {κ : Type v} {α : Type w} [DecidableEq κ] [Cells S κ α] [UniformCells S κ α]
  {σ : Type x} {ι : Type y} [Cursor σ (ι × κ)] {s : S} {items : List (α × κ)} {cursor : σ}

/-- A script that replaces every item reports what was in its cell and leaves
the store with these cells overwritten. -/
theorem Script.run_overwrites (label : κ → ι) (f : κ → α → α) (h : Contents s items)
    (hcursor : (items.map fun p => (label p.2, p.2)) <+: Cursor.toList cursor) :
    ∃ cursor', run (items.map fun p => .next (some (f p.2 p.1))) cursor s =
      (items.map fun p => .item (label p.2) p.1, cursor', overwrite f (items.map Prod.snd) s) := by
  induction items generalizing cursor s with
  | nil => exact ⟨cursor, by rw [List.map_nil, List.map_nil, List.map_nil, overwrite_nil, run]⟩
  | cons p items ih =>
      obtain ⟨x, c⟩ := p
      obtain ⟨rest, hrest⟩ := hcursor
      obtain ⟨cursor', hnext, hlist⟩ := Cursor.next_of_toList_cons hrest.symm
      obtain ⟨hread, hafter, hoverwrite⟩ := h.step f
      obtain ⟨final, hrun⟩ := ih hafter ⟨rest, hlist.symm⟩
      refine ⟨final, ?_⟩
      rw [hoverwrite, List.map_cons, run]
      simp only [step, hnext, hread, hrun, List.map_cons]

theorem LineScript.runWalk_overwrites (item : ι → α → Item α) (label : κ → ι) (f : κ → α → α)
    (h : Contents s items)
    (hcursor : (items.map fun p => (label p.2, p.2)) <+: Cursor.toList cursor) :
    runWalk item (items.map fun p => .next (some (f p.2 p.1))) cursor s =
      (items.map fun p => .item (item (label p.2) p.1), overwrite f (items.map Prod.snd) s) := by
  obtain ⟨cursor', hrun⟩ := Script.run_overwrites label f h hcursor
  have hwalk := runWalk_next item (items.map fun p => some (f p.2 p.1)) cursor s
  simp only [List.map_map, Function.comp_def, hrun] at hwalk
  exact hwalk

end Scripts

section Lines

variable {α : Type u} {items : List (α × Nat)}

/-- In a contiguous line items are replaced by their places in the line. -/
theorem LineScript.runContiguous_overwrites {values : Array α} {cells : List Nat}
    (place : Nat → Nat) (f : Nat → α → α) (h : Contents values items)
    (hplace : ∀ p ∈ items, cells[place p.2]? = some p.2) :
    runContiguous cells (items.map fun p => .set (place p.2) (f p.2 p.1)) values =
      (.ok (items.map fun p => .value (some p.1)), overwrite f (items.map Prod.snd) values) := by
  induction items generalizing values with
  | nil => rw [List.map_nil, List.map_nil, List.map_nil, overwrite_nil, runContiguous]
  | cons p items ih =>
      obtain ⟨x, c⟩ := p
      obtain ⟨hread, hafter, hoverwrite⟩ := h.step f
      have hcell : cells[place c]? = some c := hplace (x, c) List.mem_cons_self
      have hrun := ih hafter fun p hp => hplace p (List.mem_cons_of_mem _ hp)
      have hanswer : answerContiguous cells (.set (place c) (f c x)) values =
          .ok (.value (some x), Cells.write values c (f c x)) := by
        have helement : readElement values c = .ok x := by
          have hget : values[c]? = some x := hread
          simp only [readElement, hget]
        simp only [answerContiguous, hcell, helement]
        rfl
      rw [hoverwrite, List.map_cons, runContiguous, hanswer]
      simp only [hrun, List.map_cons]
      rfl

variable {ι : Type v} {κ : Type w} {S : Type x} {τ : Type y} [DecidableEq κ] [Cells S κ α]
  [UniformCells S κ α] {σ : Type z} [Cursor σ ι]

/-- If the script of every line overwrites cells of its own, running one script
per line overwrites all these cells. -/
theorem LineScript.runLines_overwrites
    {edit : ι → LineScript α → S → Except Fault (List (LineReply α)) × S} {f : κ → α → α}
    {line : τ → ι} {script : τ → LineScript α} {replies : τ → List (LineReply α)}
    {items : τ → List (α × κ)} {visits : List τ} {cursor : σ} {base s : S}
    (hedit : ∀ t ∈ visits, ∀ s : S, Recast base s → Contents s (items t) →
      edit (line t) (script t) s = (.ok (replies t), overwrite f ((items t).map Prod.snd) s))
    (hrecast : Recast base s) (h : Contents s (visits.flatMap items))
    (hcursor : visits.map line <+: Cursor.toList cursor) :
    ∃ left, runLines edit (visits.map script) cursor s =
      (.ok (visits.map replies, left), overwrite f ((visits.flatMap items).map Prod.snd) s) := by
  induction visits generalizing cursor s with
  | nil => exact ⟨Cursor.hint cursor, by simp [runLines]⟩
  | cons t visits ih =>
      obtain ⟨rest, hrest⟩ := hcursor
      obtain ⟨cursor', hnext, hlist⟩ := Cursor.next_of_toList_cons hrest.symm
      rw [List.flatMap_cons] at h ⊢
      have hfirst := hedit t List.mem_cons_self s hrecast
        (h.sublist (List.sublist_append_left _ _))
      obtain ⟨left, hrun⟩ := ih (fun t' ht' => hedit t' (List.mem_cons_of_mem _ ht'))
        (hrecast.overwrite f _) (h.after f) ⟨rest, hlist.symm⟩
      refine ⟨left, ?_⟩
      rw [List.map_cons, runLines]
      simp only [hnext, hfirst, hrun, List.map_cons, List.map_append, Except.map,
        overwrite_append h.disjoint]

end Lines

end TransposedViews
