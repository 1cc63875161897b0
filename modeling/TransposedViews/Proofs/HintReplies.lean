import TransposedViews.Proofs.SizeHints

/-!
Size hints in the replies to scripts. A traversal that writes is seen through
the answers to its requests alone. Between the items it hands out, and after the
last, every hint it gives has to be true of the number of items that it would
still hand out, whatever is written on the way.
-/

namespace TransposedViews

variable {promise : SizeHint → Nat → Prop}

namespace Script

section Answers

variable {ι : Type v} {α : Type w}

/-- Answers of a traversal that has a number of items left: an item lowers the
number, the end is reported when it is zero and from then on, and every hint is
true of it. -/
inductive Answers (promise : SizeHint → Nat → Prop) :
    Nat → List (Request α) → List (Reply ι α) → Prop where
  | nil (left : Nat) : Answers promise left [] []
  | item {left : Nat} {script : List (Request α)} {replies : List (Reply ι α)}
      (replacement : Option α) (label : ι) (x : α) (h : Answers promise left script replies) :
      Answers promise (left + 1) (.next replacement :: script) (.item label x :: replies)
  | finished {script : List (Request α)} {replies : List (Reply ι α)} (replacement : Option α)
      (h : Answers promise 0 script replies) :
      Answers promise 0 (.next replacement :: script) (.finished :: replies)
  | hint {left : Nat} {size : SizeHint} {script : List (Request α)} {replies : List (Reply ι α)}
      (hsize : promise size left) (h : Answers promise left script replies) :
      Answers promise left (.hint :: script) (.hint size :: replies)

end Answers

section Run

variable {σ : Type u} {ι : Type v} {κ : Type w} {S : Type x} {α : Type y} [Cursor σ (ι × κ)]
  [Cells S κ α] {cursor : σ} {s : S}

/-- A traversal that keeps a promise, of a store that has all the cells it comes to. -/
structure Ready (promise : SizeHint → Nat → Prop) (cursor : σ) (s : S) : Prop where
  promises : Cursor.Promises promise cursor
  readable : ∀ p ∈ Cursor.toList cursor, (Cells.read s p.2).isSome

variable [DecidableEq κ] [UniformCells S κ α]

/-- What asking for an item does: the end is reported and stays, or an item is
handed out with what is in its cell, and one item less is left. Writing to the
cell leaves the store with the cells it has. -/
theorem Ready.next_cases (h : Ready promise cursor s) (replacement : Option α) :
    ((Cursor.toList cursor).length = 0 ∧ ∃ cursor',
      step (.next replacement) cursor s = (.finished, cursor', s) ∧
        Ready promise cursor' s ∧ (Cursor.toList cursor').length = 0) ∨
    ∃ label x cursor' s', step (.next replacement) cursor s = (.item label x, cursor', s') ∧
      Ready promise cursor' s' ∧
        (Cursor.toList cursor).length = (Cursor.toList cursor').length + 1 := by
  have hreadable := h.readable
  cases hlist : Cursor.toList cursor with
  | nil =>
      obtain ⟨cursor', hnext, hafter, hrest⟩ := h.promises.next_of_nil hlist
      refine .inl ⟨rfl, cursor', ?_, ⟨hafter, by simp [hrest]⟩, by simp [hrest]⟩
      rw [step, hnext]
  | cons p rest =>
      obtain ⟨label, c⟩ := p
      obtain ⟨cursor', hnext, hafter, hrest⟩ := h.promises.next_of_cons hlist
      rw [hlist, List.forall_mem_cons] at hreadable
      obtain ⟨x, hx⟩ := Option.isSome_iff_exists.mp hreadable.1
      have hlength : (Cursor.toList cursor').length + 1 = rest.length + 1 := by rw [hrest]
      cases replacement with
      | none =>
          refine .inr ⟨label, x, cursor', s, ?_, ⟨hafter, hrest ▸ hreadable.2⟩, hlength.symm⟩
          simp only [step, hnext, hx]
      | some y =>
          refine .inr ⟨label, x, cursor', Cells.write s c y, ?_, ⟨hafter, fun q hq => ?_⟩,
            hlength.symm⟩
          · simp only [step, hnext, hx]
          · rw [Cells.read_write, Option.isSome_map]
            exact hreadable.2 q (hrest ▸ hq)

/-- A script on a traversal that keeps a promise is given hints that keep it. -/
theorem run_answers (h : Ready promise cursor s) (script : List (Request α)) :
    Answers promise (Cursor.toList cursor).length script (run script cursor s).1 := by
  induction script generalizing cursor s with
  | nil => exact .nil _
  | cons request script ih =>
      cases request with
      | hint => exact .hint (h.promises.hint_kept 0) (ih h)
      | next replacement =>
          rcases h.next_cases replacement with ⟨hdone, cursor', hstep, hready, hrest⟩ |
            ⟨label, x, cursor', s', hstep, hready, hleft⟩
          · have hanswers := ih hready
            rw [hrest] at hanswers
            rw [run, hstep, hdone]
            exact .finished replacement hanswers
          · rw [run, hstep, hleft]
            exact .item replacement label x (ih hready)

end Run

end Script

/-- An answer that hands out no items and says nothing about those to come. -/
def LineReply.Silent {α : Type u} : LineReply α → Prop
  | .item _ | .finished | .hint _ | .replies _ => False
  | _ => True

/-- An answer after which there are as many items as before, since it does not
tell of an entry that was stored or dropped either. -/
def LineRequest.KeepsCount {α : Type u} (request : LineRequest α) (reply : LineReply α) : Prop :=
  reply.Silent ∧
    match request with
    | .insert _ _ => reply ≠ .value none
    | .remove _ => ∀ x, reply ≠ .value (some x)
    | _ => True

namespace LineScript

section Answers

variable {α : Type u}

/-- Answers of a line that has a number of items: those left to be walked along,
or those stored, which every walk inside a sparse line begins with anew. Entries
that are stored or dropped in between are counted. -/
inductive Answers (promise : SizeHint → Nat → Prop) :
    Nat → LineScript α → List (LineReply α) → Prop where
  | nil (left : Nat) : Answers promise left [] []
  | item {left : Nat} {script : LineScript α} {replies : List (LineReply α)}
      (replacement : Option α) (item : Item α) (h : Answers promise left script replies) :
      Answers promise (left + 1) (.next replacement :: script) (.item item :: replies)
  | finished {script : LineScript α} {replies : List (LineReply α)} (replacement : Option α)
      (h : Answers promise 0 script replies) :
      Answers promise 0 (.next replacement :: script) (.finished :: replies)
  | hint {left : Nat} {size : SizeHint} {script : LineScript α} {replies : List (LineReply α)}
      (hsize : promise size left) (h : Answers promise left script replies) :
      Answers promise left (.hint :: script) (.hint size :: replies)
  | inserted {left : Nat} {script : LineScript α} {replies : List (LineReply α)} (k : Nat) (x : α)
      (h : Answers promise (left + 1) script replies) :
      Answers promise left (.insert k x :: script) (.value none :: replies)
  | removed {left : Nat} {script : LineScript α} {replies : List (LineReply α)} (k : Nat) (x : α)
      (h : Answers promise left script replies) :
      Answers promise (left + 1) (.remove k :: script) (.value (some x) :: replies)
  | walked {left : Nat} {inner : List (Request α)} {walk : List (Reply Nat α)}
      {script : LineScript α} {replies : List (LineReply α)}
      (hwalk : Script.Answers promise left inner walk) (h : Answers promise left script replies) :
      Answers promise left (.walk inner :: script) (.replies walk :: replies)
  | consumed {left : Nat} {inner : List (Request α)} {walk : List (Reply Nat α)}
      (script : LineScript α) (hwalk : Script.Answers promise left inner walk) :
      Answers promise left (.consume inner :: script) [.replies walk]
  | other {left : Nat} {script : LineScript α} {replies : List (LineReply α)}
      {request : LineRequest α} {reply : LineReply α} (hkept : request.KeepsCount reply)
      (h : Answers promise left script replies) :
      Answers promise left (request :: script) (reply :: replies)

/-- Answers of the lines that were reached, each of which has a number of items,
and the hint for the lines that were not. -/
inductive LinesAnswered (promise : SizeHint → Nat → Prop) :
    List Nat → List (LineScript α) → List (List (LineReply α)) → SizeHint → Prop where
  | exhausted {left : SizeHint} (scripts : List (LineScript α)) (hleft : promise left 0) :
      LinesAnswered promise [] scripts [] left
  | done {left : SizeHint} (counts : List Nat) (hleft : promise left counts.length) :
      LinesAnswered promise counts [] [] left
  | line {count : Nat} {counts : List Nat} {script : LineScript α} {scripts : List (LineScript α)}
      {replies : List (LineReply α)} {rest : List (List (LineReply α))} {left : SizeHint}
      (hline : Answers promise count script replies)
      (h : LinesAnswered promise counts scripts rest left) :
      LinesAnswered promise (count :: counts) (script :: scripts) (replies :: rest) left

end Answers

section Walks

variable {σ : Type u} {ι : Type v} {κ : Type w} {S : Type x} {α : Type y} [Cursor σ (ι × κ)]
  [DecidableEq κ] [Cells S κ α] [UniformCells S κ α] {cursor : σ} {s : S}

/-- A walk answers as a script on its cursor does, and knows no other request. -/
theorem runWalk_answers (h : Script.Ready promise cursor s) (item : ι → α → Item α)
    (script : LineScript α) :
    Answers promise (Cursor.toList cursor).length script (runWalk item script cursor s).1 := by
  induction script generalizing cursor s with
  | nil => exact .nil _
  | cons request script ih =>
      cases request with
      | hint => exact .hint (h.promises.hint_kept 0) (ih h)
      | next replacement =>
          rcases h.next_cases replacement with ⟨hdone, cursor', hstep, hready, hrest⟩ |
            ⟨label, x, cursor', s', hstep, hready, hleft⟩
          · have hanswers := ih hready
            rw [hrest] at hanswers
            rw [runWalk, hstep, hdone]
            exact .finished replacement hanswers
          · rw [runWalk, hstep, hleft]
            exact .item replacement (item label x) (ih hready)
      | insert k x => exact .other ⟨trivial, by simp⟩ (ih h)
      | remove k => exact .other ⟨trivial, by simp⟩ (ih h)
      | _ => exact .other ⟨trivial, trivial⟩ (ih h)

end Walks

section Lines

variable {α : Type u}

theorem keepsCount_of_answerContiguous {cells : List Nat} {request : LineRequest α}
    {values after : Array α} {reply : LineReply α}
    (h : answerContiguous cells request values = .ok (reply, after)) :
    request.KeepsCount reply := by
  cases request with
  | get k | set k x =>
      simp only [answerContiguous] at h
      split at h
      · cases h
      · obtain ⟨old, -, heq⟩ := exists_of_map_ok h
        cases heq
        exact ⟨trivial, trivial⟩
  | insert k x =>
      cases h
      exact ⟨trivial, by simp⟩
  | remove k =>
      cases h
      exact ⟨trivial, by simp⟩
  | _ =>
      cases h
      exact ⟨trivial, trivial⟩

/-- A contiguous line is not walked along. -/
theorem runContiguous_answers {cells : List Nat} {script : LineScript α} {values : Array α}
    {replies : List (LineReply α)} (left : Nat)
    (hrun : (runContiguous cells script values).1 = .ok replies) :
    Answers promise left script replies := by
  induction script generalizing values replies with
  | nil =>
      cases hrun
      exact .nil left
  | cons request script ih =>
      simp only [runContiguous] at hrun
      split at hrun
      · cases hrun
      · next reply after hanswer =>
          obtain ⟨rest, hrest, rfl⟩ := exists_of_map_ok hrun
          exact .other (keepsCount_of_answerContiguous hanswer) (ih hrest)

end Lines

end LineScript

namespace SparseVector

variable {α : Type} {v : SparseVector α}

/-- An insertion stores one entry more, unless it replaces one. -/
theorem insert_cases (h : v.WellFormed) (k : Nat) (x : α) :
    (v.lookup k = none ∧ (v.insert k x).2.toList.length = v.toList.length + 1) ∨
      ∃ y, v.lookup k = some y ∧ (v.insert k x).2.toList.length = v.toList.length := by
  cases h.cutAt k with
  | stored below above y hbelow habove =>
      rw [insert_stored below above k y x hbelow habove, lookup_stored below above k y hbelow]
      exact .inr ⟨y, rfl, by simp⟩
  | vacant below above hbelow habove =>
      rw [insert_vacant below above k x hbelow habove, lookup_vacant below above k hbelow habove]
      exact .inl ⟨rfl, by simp; omega⟩

/-- A removal drops the one entry that is stored at its index. -/
theorem remove_cases (h : v.WellFormed) (k : Nat) :
    (v.lookup k = none ∧ (v.remove k).2.toList.length = v.toList.length) ∨
      ∃ y, v.lookup k = some y ∧ v.toList.length = (v.remove k).2.toList.length + 1 := by
  cases h.cutAt k with
  | stored below above y hbelow habove =>
      rw [remove_stored below above k y hbelow habove, lookup_stored below above k y hbelow]
      exact .inr ⟨y, rfl, by simp; omega⟩
  | vacant below above hbelow habove =>
      rw [remove_vacant below above k hbelow habove, lookup_vacant below above k hbelow habove]
      exact .inl ⟨rfl, rfl⟩

theorem length_overwrite (h : v.WellFormed) (k : Nat) (x : α) :
    (v.overwrite k x).2.toList.length = v.toList.length := by
  cases h.cutAt k with
  | stored below above y hbelow habove =>
      rw [overwrite_stored below above k y x hbelow habove]
      simp
  | vacant below above hbelow habove => rw [overwrite_vacant below above k x hbelow habove]

theorem length_runScript (v : SparseVector α) (script : List (Request α)) :
    (v.runScript script).2.toList.length = v.toList.length := by
  have hvalues := length_values_runScript v script
  rw [toList, toList, List.length_zip, List.length_zip, hvalues]
  rfl

theorem runScript_wellFormed (h : v.WellFormed) (script : List (Request α)) :
    (v.runScript script).2.WellFormed :=
  h.with_values _ (length_values_runScript v script)

/-- A walk along a sparse vector has as many items as the vector has entries then. -/
theorem runScript_answers (v : SparseVector α) (script : List (Request α)) :
    Script.Answers SizeHint.Pins v.toList.length script (v.runScript script).1 := by
  have hlist : Cursor.toList (⟨v.cells⟩ : Items (Nat × Nat)) = v.cells :=
    Matrix.toList_items v.cells
  have hlength : v.cells.length = v.toList.length := by
    rw [cells, toList, List.length_zip, List.length_zip, List.length_range]
  have hready : Script.Ready SizeHint.Pins (⟨v.cells⟩ : Items (Nat × Nat)) v.values := by
    refine ⟨Cursor.ExactSize.of_exact _, fun p hp => ?_⟩
    rw [hlist] at hp
    have hcell := List.mem_range.mp (List.of_mem_zip hp).2
    simp [Cells.read, hcell]
  have hanswers := Script.run_answers hready script
  rwa [hlist, hlength] at hanswers

end SparseVector

namespace LineScript

section Sparse

variable {α : Type} {len : Nat} {v : SparseVector α}

/-- One request that leaves a sparse line in use, and the answers to those after
it. -/
theorem answerSparse_answers (h : v.WellFormed) {request : LineRequest α}
    (hrequest : ∀ inner, request ≠ .consume inner) {reply : LineReply α} {w : SparseVector α}
    (hanswer : answerSparse len request v = (.ok reply, w)) :
    w.WellFormed ∧ ∀ script replies, Answers SizeHint.Pins w.toList.length script replies →
      Answers SizeHint.Pins v.toList.length (request :: script) (reply :: replies) := by
  cases request with
  | insert k x =>
      simp only [answerSparse] at hanswer
      split at hanswer
      · rw [SparseVector.insert_answer k x h] at hanswer
        cases hanswer
        refine ⟨SparseVector.insert_wellFormed k x h, fun script replies hrest => ?_⟩
        obtain ⟨hprevious, hlength⟩ | ⟨y, hprevious, hlength⟩ := SparseVector.insert_cases h k x
        · rw [hlength] at hrest
          rw [hprevious]
          exact .inserted k x hrest
        · rw [hlength] at hrest
          rw [hprevious]
          exact .other ⟨trivial, by simp⟩ hrest
      · cases hanswer
  | remove k =>
      simp only [answerSparse, SparseVector.remove_answer k h] at hanswer
      cases hanswer
      refine ⟨SparseVector.remove_wellFormed k h, fun script replies hrest => ?_⟩
      obtain ⟨hprevious, hlength⟩ | ⟨y, hprevious, hlength⟩ := SparseVector.remove_cases h k
      · rw [hlength] at hrest
        rw [hprevious]
        exact .other ⟨trivial, by simp⟩ hrest
      · rw [hprevious, hlength]
        exact .removed k y hrest
  | overwrite k x =>
      simp only [answerSparse, SparseVector.overwrite_answer k x h] at hanswer
      cases hanswer
      refine ⟨SparseVector.overwrite_wellFormed k x h, fun script replies hrest => ?_⟩
      rw [SparseVector.length_overwrite h] at hrest
      exact .other ⟨trivial, trivial⟩ hrest
  | walk inner =>
      simp only [answerSparse] at hanswer
      cases hanswer
      refine ⟨SparseVector.runScript_wellFormed h inner, fun script replies hrest => ?_⟩
      rw [SparseVector.length_runScript] at hrest
      exact .walked (SparseVector.runScript_answers v inner) hrest
  | consume inner => exact absurd rfl (hrequest inner)
  | get k =>
      simp only [answerSparse, SparseVector.get?_eq k h] at hanswer
      cases hanswer
      exact ⟨h, fun script replies hrest => .other ⟨trivial, trivial⟩ hrest⟩
  | _ =>
      cases hanswer
      exact ⟨h, fun script replies hrest => .other ⟨trivial, trivial⟩ hrest⟩

/-- A sparse line answers for the walks that it is asked for. -/
theorem runSparse_answers (h : v.WellFormed) {script : LineScript α}
    {replies : List (LineReply α)} (hrun : (runSparse len script v).1 = .ok replies) :
    Answers SizeHint.Pins v.toList.length script replies := by
  induction script generalizing v replies with
  | nil =>
      cases hrun
      exact .nil _
  | cons request script ih =>
      simp only [runSparse] at hrun
      split at hrun
      · cases hrun
      · next reply w hanswer =>
          split at hrun
          · next inner =>
              cases hanswer
              cases hrun
              exact .consumed script (SparseVector.runScript_answers v inner)
          · next hrequest =>
              obtain ⟨hafter, hanswers⟩ := answerSparse_answers h hrequest hanswer
              obtain ⟨rest, hrest, rfl⟩ := exists_of_map_ok hrun
              exact hanswers script rest (ih hafter hrest)

end Sparse

/-- Running one script per line answers for the lines that are reached, if every
line answers for itself as the scripts before it have left the store. -/
theorem runLines_answered {σ : Type u} {ι : Type v} {S : Type w} {α : Type x} [Cursor σ ι]
    {cursor : σ} {edit : ι → LineScript α → S → Except Fault (List (LineReply α)) × S}
    (hcursor : Cursor.Promises promise cursor) (P : List ι → S → Prop) (count : ι → Nat)
    (hedit : ∀ line lines script s, P (line :: lines) s → P lines (edit line script s).2 ∧
      ∀ replies, (edit line script s).1 = .ok replies →
        Answers promise (count line) script replies)
    {scripts : List (LineScript α)} {s : S} (hs : P (Cursor.toList cursor) s)
    {replies : List (List (LineReply α))} {left : SizeHint}
    (hrun : (runLines edit scripts cursor s).1 = .ok (replies, left)) :
    LinesAnswered promise ((Cursor.toList cursor).map count) scripts replies left := by
  induction scripts generalizing cursor s replies with
  | nil =>
      cases hrun
      have hleft := hcursor.hint_kept 0
      rw [← List.length_map count] at hleft
      exact .done _ hleft
  | cons script scripts ih =>
      cases hlist : Cursor.toList cursor with
      | nil =>
          obtain ⟨cursor', hnext, hafter, hrest⟩ := hcursor.next_of_nil hlist
          have hleft : promise (Cursor.hint cursor') (Cursor.toList cursor').length :=
            hafter.hint_kept 0
          rw [runLines, hnext] at hrun
          cases hrun
          rw [hrest] at hleft
          exact .exhausted _ hleft
      | cons line lines =>
          obtain ⟨cursor', hnext, hafter, hrest⟩ := hcursor.next_of_cons hlist
          rw [hlist] at hs
          obtain ⟨hkept, hline⟩ := hedit line lines script s hs
          rw [runLines, hnext] at hrun
          rcases hresult : edit line script s with ⟨_ | answered, s'⟩
          · simp only [hresult] at hrun
            cases hrun
          · simp only [hresult] at hrun hline hkept
            obtain ⟨⟨rest, size⟩, hlater, heq⟩ := exists_of_map_ok hrun
            cases heq
            have hlines := ih hafter (hrest ▸ hkept) hlater
            rw [hrest] at hlines
            exact .line (hline answered rfl) hlines

end LineScript

end TransposedViews
