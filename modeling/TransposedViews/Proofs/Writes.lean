import Mathlib.Data.List.Induction
import TransposedViews.Proofs.WriteTraversals

/-!
What scripts write. A script that runs through distinct cells is accounted for
by a list of writes, each a place and the value put there, and by its replies.
Both depend on the script and the places alone, so they can be read off before
anything is run. A cell then holds the last value that was written to it.
-/

namespace TransposedViews

/-- The first pair with a key counts. -/
theorem lookup_cons_eq_ite [BEq κ] [LawfulBEq κ] [DecidableEq κ] (k l : κ) (x : β)
    (pairs : List (κ × β)) :
    ((l, x) :: pairs).lookup k = if k = l then some x else pairs.lookup k := by
  split
  · next heq =>
      subst heq
      exact List.lookup_cons_self
  · next hne => rw [List.lookup_cons, beq_false_of_ne hne]

open UniformCells

namespace Cells

variable {S : Type u} {κ : Type v} {α : Type w} [Cells S κ α]

/-- Writes values to cells, one after the other. -/
def writeAll (s : S) (writes : List (κ × α)) : S := writes.foldl (fun s w => write s w.1 w.2) s

@[simp] theorem writeAll_nil (s : S) : writeAll s ([] : List (κ × α)) = s := rfl

@[simp] theorem writeAll_cons (s : S) (w : κ × α) (writes : List (κ × α)) :
    writeAll s (w :: writes) = writeAll (write s w.1 w.2) writes := rfl

theorem writeAll_append (s : S) (earlier later : List (κ × α)) :
    writeAll s (earlier ++ later) = writeAll (writeAll s earlier) later := List.foldl_append

variable [DecidableEq κ] [UniformCells S κ α]

theorem read_write (s : S) (c d : κ) (x : α) :
    read (write s c x) d = (read s d).map fun y => if d = c then x else y := by
  rw [write_eq, read_mapCells]

/-- A cell holds what was written to it last, or else what it held before. -/
theorem read_writeAll (s : S) (writes : List (κ × α)) (c : κ) :
    read (writeAll s writes) c = (read s c).map fun x => (writes.reverse.lookup c).getD x := by
  induction writes using List.reverseRecOn with
  | nil => simp
  | append_singleton writes w ih =>
      obtain ⟨d, x⟩ := w
      rw [writeAll_append, writeAll_cons, writeAll_nil, read_write, ih, Option.map_map,
        List.reverse_append, List.reverse_singleton, List.singleton_append]
      rcases eq_or_ne c d with rfl | hne
      · simp [Function.comp_def]
      · simp [lookup_cons_eq_ite, hne, Function.comp_def]

end Cells

/-- Distinct cells that a store has, with what is in them. -/
theorem Contents.exists_of_cells [Cells S κ α] {s : S} {cells : List κ} (hdistinct : cells.Nodup)
    (hread : ∀ c ∈ cells, (Cells.read s c).isSome) :
    ∃ items : List (α × κ), items.map Prod.snd = cells ∧ Contents s items := by
  induction cells with
  | nil => exact ⟨[], rfl, ⟨List.nodup_nil, by simp⟩⟩
  | cons c cells ih =>
      obtain ⟨-, hrest⟩ := List.nodup_cons.mp hdistinct
      obtain ⟨items, rfl, hcontents⟩ := ih hrest fun d hd => hread d (List.mem_cons_of_mem c hd)
      obtain ⟨x, hx⟩ := Option.isSome_iff_exists.mp (hread c List.mem_cons_self)
      refine ⟨(x, c) :: items, rfl, hdistinct, ?_⟩
      intro p hp
      rcases List.mem_cons.mp hp with rfl | hp
      · exact hx
      · exact hcontents.read_eq p hp

namespace Cursor

theorem next_of_toList_nil [Cursor σ ι] {s : σ} (h : toList s = []) : (next s).1 = none := by
  cases hnext : (next s).1 with
  | none => rfl
  | some a =>
      rw [toList_of_next_some s a hnext] at h
      cases h

/-- Cursors that stay exhausted once they are, and that know at any time how
many items are left. -/
class Exact (σ : Type u) {ι : outParam (Type v)} [Cursor σ ι] : Prop where
  toList_next (s : σ) : toList (next s).2 = (toList s).tail
  hint_eq (s : σ) : hint s = .exactly (toList s).length

instance : Exact (Items ι) where
  toList_next := by
    rintro ⟨_ | ⟨a, rest⟩⟩
    · change toList (⟨[]⟩ : Items ι) = _
      rw [Matrix.toList_items, List.tail_nil]
    · change toList (⟨rest⟩ : Items ι) = _
      rw [Matrix.toList_items, Matrix.toList_items, List.tail_cons]
  hint_eq s := by
    rw [Matrix.toList_items]
    rfl

instance [Cursor σ ι] [Exact σ] : Exact (Mapped σ ι κ) where
  toList_next := by
    rintro ⟨s, f⟩
    change toList (⟨(next s).2, f⟩ : Mapped σ ι κ) = _
    rw [toList_mapped, toList_mapped, Exact.toList_next, List.map_tail]
  hint_eq := by
    rintro ⟨s, f⟩
    rw [toList_mapped, List.length_map]
    exact Exact.hint_eq s

instance : Exact (Dense.Positioned β) where
  toList_next := by
    rintro ⟨_ | ⟨x, rest⟩, offset, ncols⟩
    · change toList (⟨[], offset, ncols⟩ : Dense.Positioned β) = _
      rw [Dense.toList_positioned]
      rfl
    · change toList (⟨rest, offset + 1, ncols⟩ : Dense.Positioned β) = _
      rw [Dense.toList_positioned, Dense.toList_positioned]
      rfl
  hint_eq := by
    rintro ⟨rest, offset, ncols⟩
    rw [Dense.toList_positioned, List.length_map, List.length_zipIdx]
    rfl

end Cursor

namespace Script

section Accounts

variable {α : Type u} {π : Type v} {ι : Type w}

/-- What a script writes on its way through places. -/
def writes : List (Request α) → List π → List (π × α)
  | .next (some x) :: script, p :: places => (p, x) :: writes script places
  | .next none :: script, _ :: places => writes script places
  | .next _ :: script, [] => writes script []
  | .hint :: script, places => writes script places
  | [], _ => []

/-- What a script is answered on its way through labelled values. -/
def replies : List (Request α) → List (ι × α) → List (Reply ι α)
  | .next _ :: script, (label, x) :: items => .item label x :: replies script items
  | .next _ :: script, [] => .finished :: replies script []
  | .hint :: script, items => .hint (.exactly items.length) :: replies script items
  | [], _ => []

theorem writes_map {π' : Type x} (g : π → π') (script : List (Request α)) (places : List π) :
    writes script (places.map g) = (writes script places).map (Prod.map g id) := by
  fun_induction writes script places with
  | case1 x script p places ih => exact congrArg ((g p, x) :: ·) ih
  | case2 script p places ih => exact ih
  | case3 replacement script ih => cases replacement <;> exact ih
  | case4 script places ih => exact ih
  | case5 => rfl

/-- A script writes to the places it comes to and to no others. -/
theorem mem_of_mem_writes {script : List (Request α)} {places : List π} {w : π × α}
    (h : w ∈ writes script places) : w.1 ∈ places := by
  fun_induction writes script places with
  | case1 x script p places ih =>
      rcases List.mem_cons.mp h with rfl | h
      · exact List.mem_cons_self
      · exact List.mem_cons_of_mem p (ih h)
  | case2 script p places ih => exact List.mem_cons_of_mem p (ih h)
  | case3 replacement script ih => exact ih h
  | case4 script places ih => exact ih h
  | case5 => cases h

end Accounts

variable {S : Type u} {κ : Type v} {α : Type w} [DecidableEq κ] [Cells S κ α] [UniformCells S κ α]
  {σ : Type x} {ι : Type y} [Cursor σ (ι × κ)] [Cursor.Exact σ]

/-- Running a script on distinct cells gives the replies and leaves the writes
that it is accounted for by. -/
theorem run_eq (label : κ → ι) (script : List (Request α)) {s : S} {items : List (α × κ)}
    {cursor : σ} (h : Contents s items)
    (hcursor : Cursor.toList cursor = items.map fun p => (label p.2, p.2)) :
    ∃ cursor', run script cursor s =
      (replies script (items.map fun p => (label p.2, p.1)), cursor',
        Cells.writeAll s (writes script (items.map Prod.snd))) := by
  induction script generalizing s items cursor with
  | nil => exact ⟨cursor, rfl⟩
  | cons request script ih =>
      cases request with
      | hint =>
          obtain ⟨final, hrun⟩ := ih h hcursor
          refine ⟨final, ?_⟩
          rw [run, step]
          simp only [hrun, Cursor.Exact.hint_eq, hcursor, List.length_map, replies, writes]
      | next replacement =>
          have hafter := Cursor.Exact.toList_next cursor
          rw [hcursor] at hafter
          cases items with
          | nil =>
              have hnone : (Cursor.next cursor).1 = none := Cursor.next_of_toList_nil hcursor
              obtain ⟨final, hrun⟩ := ih h hafter
              refine ⟨final, ?_⟩
              have hstep : step (.next replacement) cursor s =
                  (.finished, (Cursor.next cursor).2, s) := by
                simp only [step]
                split
                · next heq => rw [heq]
                · next heq =>
                    rw [heq] at hnone
                    cases hnone
              rw [run, hstep]
              simp only [hrun, replies, writes, List.map_nil]
          | cons p items =>
              obtain ⟨x, c⟩ := p
              obtain ⟨cursor', hnext, hrest⟩ := Cursor.next_of_toList_cons hcursor
              cases replacement with
              | none =>
                  have hread : Cells.read s c = some x := h.read_eq (x, c) List.mem_cons_self
                  obtain ⟨final, hrun⟩ := ih (h.sublist (List.sublist_cons_self _ _)) hrest
                  refine ⟨final, ?_⟩
                  rw [run]
                  simp only [step, hnext, hread, hrun, replies, writes, List.map_cons]
              | some y =>
                  obtain ⟨hread, hwritten, -⟩ := h.step fun _ _ => y
                  obtain ⟨final, hrun⟩ := ih hwritten hrest
                  refine ⟨final, ?_⟩
                  rw [run]
                  simp only [step, hnext, hread, hrun, replies, writes, List.map_cons,
                    Cells.writeAll_cons]

end Script

end TransposedViews
