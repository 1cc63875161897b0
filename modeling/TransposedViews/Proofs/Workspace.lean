import TransposedViews.Proofs.Reachable
import TransposedViews.Proofs.Source
import TransposedViews.Workspace

namespace TransposedViews

/-- Whether a step asks for no more memory than can be allocated. -/
def Step.Allocates {α : Type} : Step α → Prop
  | .build source => source.Allocates
  | .act _ => True

namespace Workspace

variable {α : Type} {w : Workspace α}

/-- Every matrix has been built and written to, and nothing else has been done
to it. -/
def Sound (w : Workspace α) : Prop := ∀ entry ∈ w.matrices, entry.2.Reachable

theorem empty_sound (kind : Kind) : (empty kind : Workspace α).Sound := by
  intro entry hentry
  cases hentry

theorem put_sound (h : w.Sound) (name : String) {m : Matrix α} (hm : m.Reachable) :
    (w.put name m).Sound := by
  intro entry hentry
  rcases List.mem_cons.mp hentry with rfl | hkept
  · exact hm
  · exact h entry (List.mem_filter.mp hkept).1

theorem reachable_of_get? (h : w.Sound) {name : String} {m : Matrix α}
    (hget : w.get? name = some m) : m.Reachable := by
  obtain ⟨before, after, heq, -⟩ := List.lookup_eq_some_iff.mp hget
  exact h (name, m) (by simp [heq])

variable [DocumentElement α]

theorem build_sound (h : w.Sound) (name : String) {source : Source α}
    (hfits : source.Allocates) : (w.build name source).2.Sound := by
  simp only [build]
  split
  · exact h
  · next hresult => exact put_sound h name (.built (Source.build_built hfits hresult))
  · next hresult => exact put_sound h name (.built (Source.build_built hfits hresult))

theorem act_sound (h : w.Sound) (name : String) {m : Matrix α} (hm : m.Reachable)
    (action : Action α) : (w.act name m action).2.Sound := by
  cases action with
  | clone target => exact put_sound h target hm
  | write chain request => exact put_sound h name (hm.written chain request)
  | equal other => exact h
  | document => exact h
  | storage request => exact h
  | read chain request => exact h

theorem step_sound (h : w.Sound) (name : String) {step : Step α} (hfits : step.Allocates) :
    (w.step name step).2.Sound := by
  cases step with
  | build source => exact build_sound h name hfits
  | act action =>
      simp only [Workspace.step]
      split
      · exact h
      · next hget => exact act_sound h name (reachable_of_get? h hget) action

/-- The workspace after steps, each on the matrix of a name. -/
def run (w : Workspace α) (steps : List (String × Step α)) : Workspace α :=
  steps.foldl (fun w (name, step) => (w.step name step).2) w

theorem run_sound (h : w.Sound) (steps : List (String × Step α))
    (hfits : ∀ s ∈ steps, s.2.Allocates) : (w.run steps).Sound := by
  induction steps generalizing w with
  | nil => exact h
  | cons s steps ih =>
      have hfirst := step_sound h s.1 (hfits s (by simp))
      exact ih hfirst fun s hs => hfits s (by simp [hs])

/-- Every matrix that a run of steps leaves in a workspace is reachable,
whatever was refused on the way, so what holds of reachable matrices holds of
all that a workspace can come to. -/
theorem run_reachable (kind : Kind) (steps : List (String × Step α))
    (hfits : ∀ s ∈ steps, s.2.Allocates) (name : String) (m : Matrix α)
    (hget : ((empty kind).run steps).get? name = some m) : m.Reachable :=
  reachable_of_get? (run_sound (empty_sound kind) steps hfits) hget

end Workspace

end TransposedViews
