import TransposedViews.Matrix.Traversal
import TransposedViews.View.Operation

/-!
Refusals and frames. A refusal by position depends on the side of a
transposition that it is seen from; every other refusal reads the same from
both sides. Line scripts only ever run into refusals of the second sort.
-/

namespace TransposedViews

/-- The same refusal seen from the other side of a transposition. -/
def Fault.exchanged : Fault → Fault
  | .position row col nrows ncols => .position col row ncols nrows
  | fault => fault

def Refusal.exchanged : Refusal → Refusal
  | .fault f => .fault f.exchanged
  | .unsupported => .unsupported

/-- A result whose refusal, if it is one, reads the same from both sides. -/
def FrameFree (result : Except Fault β) : Prop := result.mapError Fault.exchanged = result

section Frames

variable {result : Except Fault β}

theorem FrameFree.error {fault : Fault} (h : FrameFree (.error fault : Except Fault β)) :
    FrameFree (.error fault : Except Fault γ) := by
  have hfault : fault.exchanged = fault := Except.error.inj h
  exact congrArg Except.error hfault

theorem FrameFree.map {f : β → γ} (h : FrameFree result) : FrameFree (result.map f) := by
  cases result with
  | error fault => exact h.error
  | ok x => rfl

theorem FrameFree.bind {f : β → Except Fault γ} (h : FrameFree result)
    (hf : ∀ x, FrameFree (f x)) : FrameFree (result >>= f) := by
  cases result with
  | error fault => exact h.error
  | ok x => exact hf x

theorem FrameFree.attempt_bind {σ δ : Type} {result : Except Fault δ} (h : FrameFree result)
    (state : σ) {next : δ → ExceptT Fault (StateM σ) γ}
    (hnext : ∀ x, FrameFree (attempt state (next x)).1) :
    FrameFree (attempt state (liftM result >>= next)).1 := by
  cases result with
  | error fault =>
      rw [attempt_error_bind]
      exact h.error
  | ok x => exact hnext x

theorem frameFree_readElement (xs : Array α) (index : Nat) :
    FrameFree (readElement xs index) := by
  unfold readElement
  split <;> rfl

theorem frameFree_readItem (xs : List α) (index : Nat) : FrameFree (readItem xs index) := by
  unfold readItem
  split <;> rfl

theorem frameFree_replaceItem (xs : List α) (index : Nat) (x : α) :
    FrameFree (replaceItem xs index x) := (frameFree_readItem xs index).map

theorem frameFree_insertItem (xs : List α) (index : Nat) (x : α) :
    FrameFree (insertItem xs index x) := by
  unfold insertItem
  split <;> rfl

theorem frameFree_removeItem (xs : List α) (index : Nat) : FrameFree (removeItem xs index) := by
  unfold removeItem
  split <;> rfl

theorem frameFree_editElement (xs : Array α) (index : Nat) {edit : α → Except Fault β × α}
    (h : ∀ x, FrameFree (edit x).1) : FrameFree (editElement xs index edit).1 := by
  unfold editElement
  split
  · exact h _
  · rfl

theorem frameFree_pushInto (buckets : Array (List β)) (bucket : Nat) (x : β) :
    FrameFree (pushInto buckets bucket x) := by
  unfold pushInto
  split <;> rfl

theorem frameFree_distribute (count : Nat) (items : List (Nat × β)) :
    FrameFree (distribute count items) := by
  unfold distribute
  generalize Array.replicate count ([] : List β) = buckets
  induction items generalizing buckets with
  | nil => rfl
  | cons item items ih =>
      rw [List.foldlM_cons]
      apply FrameFree.bind
      · exact frameFree_pushInto buckets item.1 item.2
      · intro after
        exact ih after

end Frames

namespace SparseVector

variable {α : Type} (v : SparseVector α) (k : Nat) (x : α)

theorem frameFree_get? : FrameFree (v.get? k) := by
  unfold get?
  split
  · exact (frameFree_readItem v.values _).map
  · rfl

theorem frameFree_insert : FrameFree (v.insert k x).1 := by
  unfold insert
  split
  · next position _ =>
      refine (frameFree_replaceItem v.values position x).attempt_bind v fun _ => ?_
      rfl
  · next position _ =>
      refine (frameFree_insertItem v.indices position k).attempt_bind v fun indices => ?_
      refine (frameFree_insertItem v.values position x).attempt_bind {v with indices} fun _ => ?_
      rfl

theorem frameFree_remove : FrameFree (v.remove k).1 := by
  unfold remove
  split
  · next position _ =>
      refine (frameFree_removeItem v.indices position).attempt_bind v fun removed => ?_
      refine (frameFree_removeItem v.values position).attempt_bind {v with indices := removed.2}
        fun _ => ?_
      rfl
  · rfl

theorem frameFree_overwrite : FrameFree (v.overwrite k x).1 := by
  unfold overwrite
  split
  · next position _ =>
      refine (frameFree_replaceItem v.values position x).attempt_bind v fun _ => ?_
      rfl
  · rfl

end SparseVector

namespace LineScript

theorem frameFree_answerContiguous (cells : List Nat) (request : LineRequest α)
    (values : Array α) : FrameFree (answerContiguous cells request values) := by
  cases request with
  | get k =>
      simp only [answerContiguous]
      split
      · rfl
      · exact (frameFree_readElement values _).map
  | set k x =>
      simp only [answerContiguous]
      split
      · rfl
      · exact (frameFree_readElement values _).map
  | _ => rfl

theorem frameFree_runContiguous (cells : List Nat) (script : LineScript α) (values : Array α) :
    FrameFree (runContiguous cells script values).1 := by
  induction script generalizing values with
  | nil => rfl
  | cons request script ih =>
      simp only [runContiguous]
      have hanswer := frameFree_answerContiguous cells request values
      split
      · next heq =>
          rw [heq] at hanswer
          exact hanswer.error
      · exact (ih _).map

theorem frameFree_answerSparse {α : Type} (len : Nat) (request : LineRequest α)
    (v : SparseVector α) : FrameFree (answerSparse len request v).1 := by
  cases request with
  | get k => exact (v.frameFree_get? k).map
  | insert k x =>
      simp only [answerSparse]
      split
      · exact (v.frameFree_insert k x).map
      · rfl
  | remove k => exact (v.frameFree_remove k).map
  | overwrite k x => exact (v.frameFree_overwrite k x).map
  | _ => rfl

theorem frameFree_runSparse {α : Type} (len : Nat) (script : LineScript α) (v : SparseVector α) :
    FrameFree (runSparse len script v).1 := by
  induction script generalizing v with
  | nil => rfl
  | cons request script ih =>
      simp only [runSparse]
      have hanswer := frameFree_answerSparse len request v
      split
      · next heq =>
          rw [heq] at hanswer
          exact hanswer.error
      · split
        · rfl
        · exact (ih _).map

/-- Running scripts line by line ends with the refusal of a line, if with any. -/
theorem frameFree_runLines [Cursor σ ι]
    (edit : ι → LineScript α → S → Except Fault (List (LineReply α)) × S)
    (hedit : ∀ line script store, FrameFree (edit line script store).1)
    (scripts : List (LineScript α)) (cursor : σ) (store : S) :
    FrameFree (runLines edit scripts cursor store).1 := by
  induction scripts generalizing cursor store with
  | nil => rfl
  | cons script scripts ih =>
      simp only [runLines]
      split
      · rfl
      · next line after _ =>
          have hline := hedit line script store
          split
          · next heq =>
              rw [heq] at hline
              exact hline.error
          · exact (ih _ _).map

end LineScript

namespace SparseLines

variable {α : Type} (s : SparseLines α) (major minor : Nat) (x : α)

theorem frameFree_get? : FrameFree (s.get? major minor) :=
  (frameFree_readElement s.lines major).bind fun line => line.frameFree_get? minor

theorem frameFree_insert : FrameFree (s.insert major minor x).1 :=
  frameFree_editElement s.lines major fun line => line.frameFree_insert minor x

theorem frameFree_remove : FrameFree (s.remove major minor).1 :=
  frameFree_editElement s.lines major fun line => line.frameFree_remove minor

theorem frameFree_runLines (scripts : List (LineScript α)) : FrameFree (s.runLines scripts).1 :=
  LineScript.frameFree_runLines _
    (fun major script lines =>
      frameFree_editElement lines major (LineScript.frameFree_runSparse s.minorDim script))
    scripts _ s.lines

end SparseLines

theorem Coordinate.frameFree_runGrouped {α : Type} (m : Coordinate α) (count : Nat)
    (stored : List (Nat × Nat × Nat)) (scripts : List (LineScript α)) :
    FrameFree (m.runGrouped (groupLines count stored) scripts).1 := by
  have hgrouped : FrameFree (groupLines count stored) := (frameFree_distribute count stored).map
  unfold runGrouped
  split
  · next heq =>
      rw [heq] at hgrouped
      exact hgrouped.error
  · next lines _ =>
      apply LineScript.frameFree_runLines
      intro line script values
      rfl

namespace Dense

variable (m : Dense α)

theorem frameFree_runRows (scripts : List (LineScript α)) : FrameFree (m.runRows scripts).1 := by
  unfold runRows
  apply LineScript.frameFree_runLines
  intro cells script values
  exact LineScript.frameFree_runContiguous cells script values

theorem frameFree_runCols (scripts : List (LineScript α)) : FrameFree (m.runCols scripts).1 := by
  have hcells : FrameFree m.colCells := (frameFree_distribute _ _).map
  unfold runCols
  split
  · next heq =>
      rw [heq] at hcells
      exact hcells.error
  · next columns _ =>
      apply LineScript.frameFree_runLines
      intro column script values
      rfl

end Dense

namespace Matrix

variable {α : Type} {m m' : Matrix α} {scripts : List (LineScript α)} {replies : LineReplies α}

/-- However a matrix is stored, a run over its rows is never refused by
position. -/
theorem frameFree_runRows? (hrun : m.runRows? scripts = some (replies, m')) :
    FrameFree replies := by
  cases m with
  | dense m =>
      cases hrun
      exact m.frameFree_runRows scripts
  | row m =>
      cases hrun
      exact m.storage.frameFree_runLines scripts
  | col m => cases hrun
  | coordinate m =>
      cases hrun
      exact m.frameFree_runGrouped _ _ scripts

theorem frameFree_runCols? (hrun : m.runCols? scripts = some (replies, m')) :
    FrameFree replies := by
  cases m with
  | dense m =>
      cases hrun
      exact m.frameFree_runCols scripts
  | row m => cases hrun
  | col m =>
      cases hrun
      exact m.storage.frameFree_runLines scripts
  | coordinate m =>
      cases hrun
      exact m.frameFree_runGrouped _ _ scripts

end Matrix

end TransposedViews
