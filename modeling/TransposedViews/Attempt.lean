import TransposedViews.Error

/-!
Accesses to sequences, and work on a state that may be refused on the way. An
access at an index that a sequence does not have is refused and not passed
over, so a place that was computed wrongly shows. Work that is refused leaves
the state as it was at that moment, which need not be the one it began with.
-/

namespace TransposedViews

section Sequences

variable {α : Type u}

/-- Reads one element of a sequence. -/
def readElement (xs : Array α) (index : Nat) : Except Fault α :=
  match xs[index]? with
  | some x => .ok x
  | none => .error (.element index xs.size)

theorem readElement_of_lt {xs : Array α} {index : Nat} (h : index < xs.size) :
    readElement xs index = .ok xs[index] := by
  simp only [readElement, Array.getElem?_eq_getElem h]

/-- Replaces one element of a sequence and returns it. -/
def replaceElement (xs : Array α) (index : Nat) (x : α) : Except Fault (α × Array α) :=
  (readElement xs index).map fun previous => (previous, xs.setIfInBounds index x)

/-- Removes one element of a sequence by moving the last one into its place,
and returns it. -/
def swapRemove (xs : Array α) (index : Nat) : Except Fault (α × Array α) :=
  match xs[index]?, xs.back? with
  | some x, some last => .ok (x, (xs.setIfInBounds index last).pop)
  | _, _ => .error (.swapRemoval index xs.size)

/-- Works on one element of a sequence in place. -/
def editElement (xs : Array α) (index : Nat) (edit : α → Except Fault β × α) :
    Except Fault β × Array α :=
  match xs[index]? with
  | some x =>
      let (result, x) := edit x
      (result, xs.setIfInBounds index x)
  | none => (.error (.element index xs.size), xs)

/-- Reads one item of a list. -/
def readItem (xs : List α) (index : Nat) : Except Fault α :=
  match xs[index]? with
  | some x => .ok x
  | none => .error (.element index xs.length)

/-- Replaces one item of a list and returns it. -/
def replaceItem (xs : List α) (index : Nat) (x : α) : Except Fault (α × List α) :=
  (readItem xs index).map fun previous => (previous, xs.set index x)

/-- Inserts an item into a list, at its end at the latest. -/
def insertItem (xs : List α) (index : Nat) (x : α) : Except Fault (List α) :=
  if index ≤ xs.length then .ok (xs.insertIdx index x)
  else .error (.insertion index xs.length)

/-- Removes one item of a list and returns it. -/
def removeItem (xs : List α) (index : Nat) : Except Fault (α × List α) :=
  match xs[index]? with
  | some x => .ok (x, xs.eraseIdx index)
  | none => .error (.removal index xs.length)

end Sequences

section Work

variable {σ β γ : Type} (state : σ)

/-- Works on a state: the result or the refusal, and the state in which the
work ended. -/
def attempt (work : ExceptT Fault (StateM σ) β) : Except Fault β × σ := work.run state

@[simp] theorem attempt_modify (f : σ → σ) : attempt state (modify f) = (.ok (), f state) := rfl

@[simp] theorem attempt_modify_bind (f : σ → σ) (next : Unit → ExceptT Fault (StateM σ) γ) :
    attempt state (modify f >>= next) = attempt (f state) (next ()) := rfl

@[simp] theorem attempt_ok_bind (result : β) (next : β → ExceptT Fault (StateM σ) γ) :
    attempt state (liftM (Except.ok result : Except Fault β) >>= next) =
      attempt state (next result) := rfl

@[simp] theorem attempt_error_bind (fault : Fault) (next : β → ExceptT Fault (StateM σ) γ) :
    attempt state (liftM (Except.error fault : Except Fault β) >>= next) =
      (.error fault, state) := rfl

end Work

end TransposedViews
