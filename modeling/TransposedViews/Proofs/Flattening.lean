import TransposedViews.Proofs.SizeHints

/-!
The flattening of lines, to read and to write. A call goes through a loop: it takes
the next item of the line in progress, and as long as that has none it begins
another line. Every pass that does not end the call uses up a line, so any number of
calls takes at most as many passes as there are calls and lines. The traversal that
writes comes to cells where the one that reads comes to values. What is written
through items that were handed out concerns cells that it has left behind, so both
stay in step.
-/

namespace TransposedViews

namespace Entries

section Loop

variable {β : Type u}

/-- How a pass of the loop ends: the call returns, or the loop goes on. -/
inductive Pass (β : Type u) where
  | returned (item : Option (Nat × Nat × β)) (s : Entries β)
  | again (s : Entries β)

/-- Goes through the loop once. A line in progress that is exhausted is kept until
another one is begun. -/
def pass (s : Entries β) : Pass β :=
  match s.current with
  | some (major, (minor, x) :: line) =>
      .returned (some (major, minor, x)) {s with current := some (major, line)}
  | _ =>
      match s.rest with
      | line :: rest => .again ⟨s.begun + 1, rest, some (s.begun, line)⟩
      | [] => .returned none s

/-- A call returns its answer after some number of passes. -/
inductive Returns : Entries β → Nat → Option (Nat × Nat × β) × Entries β → Prop where
  | now {s s' : Entries β} {item : Option (Nat × Nat × β)} (h : s.pass = .returned item s') :
      Returns s 1 (item, s')
  | later {s s' : Entries β} {passes : Nat} {answer : Option (Nat × Nat × β) × Entries β}
      (h : s.pass = .again s') (hrest : Returns s' passes answer) :
      Returns s (passes + 1) answer

/-- Calls made one after the other return what they should, all together after some
number of passes. -/
inductive Calls : Nat → Nat → Entries β → Entries β → Prop where
  | none (s : Entries β) : Calls 0 0 s s
  | more {n passes last : Nat} {s s' : Entries β} (hcalls : Calls n passes s s')
      (hcall : s'.Returns last s'.next) : Calls (n + 1) (passes + last) s s'.next.2

/-- What a pass can do: either it returns what the call answers and no line is
begun, or a line is begun and the call answers as it would from there. -/
theorem pass_cases (s : Entries β) :
    (∃ item s', s.pass = .returned item s' ∧ s.next = (item, s') ∧ s'.rest = s.rest) ∨
      ∃ s', s.pass = .again s' ∧ s.next = s'.next ∧ s.rest.length = s'.rest.length + 1 := by
  rcases s with ⟨begun, _ | ⟨line, rest⟩, _ | ⟨major, _ | ⟨⟨minor, x⟩, items⟩⟩⟩
  · exact .inl ⟨_, _, rfl, rfl, rfl⟩
  · exact .inl ⟨_, _, rfl, rfl, rfl⟩
  · exact .inl ⟨_, _, rfl, rfl, rfl⟩
  · exact .inr ⟨_, rfl, rfl, rfl⟩
  · exact .inr ⟨_, rfl, rfl, rfl⟩
  · exact .inl ⟨_, _, rfl, rfl, rfl⟩

/-- A call returns, with a pass for itself and one for every line that it begins. -/
theorem exists_returns (s : Entries β) :
    ∃ passes, s.Returns passes s.next ∧ passes + s.next.2.rest.length = s.rest.length + 1 := by
  generalize hlines : s.rest.length = lines
  induction lines generalizing s with
  | zero =>
      rcases s.pass_cases with ⟨item, s', hpass, hnext, hrest⟩ | ⟨s', -, -, hbegun⟩
      · rw [hnext, hrest, hlines]
        exact ⟨1, .now hpass, rfl⟩
      · omega
  | succ lines ih =>
      rcases s.pass_cases with ⟨item, s', hpass, hnext, hrest⟩ | ⟨s', hpass, hnext, hbegun⟩
      · rw [hnext, hrest, hlines]
        exact ⟨1, .now hpass, Nat.add_comm 1 _⟩
      · obtain ⟨passes, hreturns, hpasses⟩ := ih s' (by omega)
        rw [hnext]
        exact ⟨passes + 1, .later hpass hreturns, by omega⟩

/-- However many calls are made, they all return, and lines that were begun are not
begun again. -/
theorem exists_calls (n : Nat) (s : Entries β) :
    ∃ passes, Calls n passes s (Cursor.after n s) ∧
      passes + (Cursor.after n s).rest.length = n + s.rest.length := by
  induction n with
  | zero => exact ⟨0, .none s, rfl⟩
  | succ n ih =>
      obtain ⟨passes, hcalls, htotal⟩ := ih
      obtain ⟨last, hreturns, hlast⟩ := exists_returns (Cursor.after n s)
      rw [Cursor.after_succ]
      refine ⟨passes + last, .more hcalls hreturns, ?_⟩
      change passes + last + (Cursor.after n s).next.2.rest.length = _
      omega

end Loop

section Payloads

variable {β : Type u} {γ : Type v}

/-- An item with its payload changed. -/
def mapItem (f : β → γ) (e : Nat × Nat × β) : Nat × Nat × γ := (e.1, e.2.1, f e.2.2)

/-- The state of a traversal with all payloads that are still to come changed. -/
def map (f : β → γ) (s : Entries β) : Entries γ where
  begun := s.begun
  rest := s.rest.map (·.map (Prod.map id f))
  current := s.current.map (Prod.map id (·.map (Prod.map id f)))

/-- A traversal does not look at payloads. -/
theorem next_map (f : β → γ) (s : Entries β) :
    (s.map f).next = (s.next.1.map (mapItem f), s.next.2.map f) := by
  obtain ⟨begun, rest, current⟩ := s
  induction rest generalizing begun current with
  | nil => rcases current with _ | ⟨_, _ | ⟨_, _⟩⟩ <;> rfl
  | cons line rest ih =>
      rcases current with _ | ⟨_, _ | ⟨_, _⟩⟩
      · exact ih (begun + 1) (some (begun, line))
      · exact ih (begun + 1) (some (begun, line))
      · rfl

theorem after_map (f : β → γ) (n : Nat) (s : Entries β) :
    Cursor.after n (s.map f) = (Cursor.after n s).map f :=
  Cursor.after_of_embedding (next_map f) n s

theorem map_injective {f : β → γ} (hf : Function.Injective f) : Function.Injective (map f) := by
  have hlines : Function.Injective fun line : List (Nat × β) => line.map (Prod.map id f) :=
    List.map_injective_iff.mpr (Function.injective_id.prodMap hf)
  rintro ⟨begun, rest, current⟩ ⟨begun', rest', current'⟩ h
  have hbegun : begun = begun' := congrArg Entries.begun h
  have hrest : rest = rest' := List.map_injective_iff.mpr hlines (congrArg Entries.rest h)
  have hcurrent : current = current' :=
    Option.map_injective (Function.injective_id.prodMap hlines) (congrArg Entries.current h)
  rw [hbegun, hrest, hcurrent]

/-- Only what is still to come matters. -/
theorem map_congr {f g : β → γ} {s : Entries β}
    (h : ∀ e ∈ Cursor.toList s, f e.2.2 = g e.2.2) : s.map f = s.map g := by
  obtain ⟨begun, rest, current⟩ := s
  rw [toList_eq_pending, pending, List.forall_mem_append] at h
  obtain ⟨hcurrent, hrest⟩ := h
  have hlines : rest.map (·.map (Prod.map id f)) = rest.map (·.map (Prod.map id g)) := by
    refine List.map_congr_left fun line hline => List.map_congr_left fun e he => ?_
    obtain ⟨i, hi⟩ := List.mem_iff_getElem?.mp hline
    have hmem : (begun + i, e.1, e.2) ∈ numbered begun rest :=
      (mem_numbered begun rest _ _ _).mpr
        ⟨line, Nat.le_add_right begun i, by rwa [Nat.add_sub_cancel_left], he⟩
    exact congrArg (Prod.mk e.1) (hrest _ hmem)
  cases current with
  | none => simp only [map, hlines, Option.map_none]
  | some started =>
      obtain ⟨major, line⟩ := started
      have hline : line.map (Prod.map id f) = line.map (Prod.map id g) :=
        List.map_congr_left fun e he =>
          congrArg (Prod.mk e.1) (hcurrent _ (List.mem_map_of_mem he))
      simp only [map, hlines, Option.map_some, Prod.map_apply, hline]

/-- What a call answers is the item with its number, and nothing past the last
one. -/
theorem next_after (n : Nat) (s : Entries β) :
    (Cursor.after n s).next.1 = (Cursor.toList s)[n]? := by
  have hleft := s.honest.toList_after n
  rw [toList_eq_pending] at hleft
  rw [← List.head?_drop, ← hleft]
  exact (advance_pending _ _ _).1

end Payloads

end Entries

variable {α : Type}

/-- A traversal that writes under way: the state that it is in, the cells behind the
items handed out so far, and the lines as they stand. -/
structure Walk (α : Type) where
  cursor : Entries (Nat × Nat)
  handed : List (Nat × Nat)
  lines : Array (SparseVector α)

namespace Walk

/-- What can be done on a walk: asking for the next item, or writing through one that
was handed out, at any time and as often as wanted. -/
inductive Action (α : Type) where
  | next
  | write (item : Nat) (x : α)
  deriving DecidableEq, Repr

/-- The number of calls among actions. -/
def calls : List (Action α) → Nat
  | [] => 0
  | .next :: actions => calls actions + 1
  | .write _ _ :: actions => calls actions

def step (w : Walk α) : Action α → Walk α
  | .next =>
      {w with
        cursor := w.cursor.next.2
        handed := w.handed ++ (w.cursor.next.1.map (·.2.2)).toList}
  | .write item x =>
      match w.handed[item]? with
      | some cell => {w with lines := Cells.write w.lines cell x}
      | none => w

def run (w : Walk α) (actions : List (Action α)) : Walk α := actions.foldl step w

theorem step_write_of_handed {w : Walk α} {item : Nat} {cell : Nat × Nat}
    (h : w.handed[item]? = some cell) (x : α) :
    w.step (.write item x) = {w with lines := Cells.write w.lines cell x} := by
  simp only [step, h]

theorem step_write_of_not_handed {w : Walk α} {item : Nat} (h : w.handed[item]? = none) (x : α) :
    w.step (.write item x) = w := by
  simp only [step, h]

theorem run_append (w : Walk α) (earlier later : List (Action α)) :
    w.run (earlier ++ later) = (w.run earlier).run later := List.foldl_append

/-- What a request does after `n` calls: a replacement is written through the item
that was handed out for it. -/
def requested (n : Nat) : Option α → List (Action α)
  | some x => [.next, .write n x]
  | none => [.next]

theorem calls_requested (n : Nat) (replacement : Option α) :
    calls (requested n replacement) = 1 := by
  cases replacement <;> rfl

def scripted : Nat → List (Request α) → List (Action α)
  | n, .next replacement :: script => requested n replacement ++ scripted (n + 1) script
  | n, .hint :: script => scripted n script
  | _, [] => []

/-- What a script is answered after `n` calls, if these are the entries come to. -/
def scriptReplies {ι : Type u} (label : Nat → Nat → ι) (stored : List (Nat × Nat × α)) :
    Nat → List (Request α) → List (Reply ι α)
  | n, .next _ :: script =>
      (match stored[n]? with
        | some (major, minor, x) => .item (label major minor) x
        | none => .finished) :: scriptReplies label stored (n + 1) script
  | n, .hint :: script => .hint .unknown :: scriptReplies label stored n script
  | _, [] => []

end Walk

namespace SparseLines

variable {s : SparseLines α}

/-- All entries, one line after the other, as `(major, minor, value)`. -/
def stored (s : SparseLines α) : List (Nat × Nat × α) :=
  Entries.numbered 0 (s.lines.toList.map SparseVector.toList)

/-- A traversal of cells, with labels made from the positions. -/
def labelled {ι : Type u} (label : Nat → Nat → ι) (cursor : Entries (Nat × Nat)) :
    Mapped (Entries (Nat × Nat)) (Nat × Nat × (Nat × Nat)) (ι × (Nat × Nat)) :=
  ⟨cursor, fun (major, minor, cell) => (label major minor, cell)⟩

/-- A walk that has not begun. -/
def walk (s : SparseLines α) : Walk α := ⟨s.cellEntries, [], s.lines⟩

/-- All cells, in the order in which they are handed out. -/
def cellOrder (s : SparseLines α) : List (Nat × Nat) := (Cursor.toList s.cellEntries).map (·.2.2)

/-- A line hands out cells of its own, and its places one after the other. -/
theorem cellOrder_nodup (s : SparseLines α) : s.cellOrder.Nodup := by
  have hlines : (s.lines.toList.zipIdx.map Prod.snd).Nodup := by
    rw [map_snd_zipIdx]
    exact List.nodup_range
  rw [cellOrder, toList_cellEntries_lines, List.map_flatMap, List.nodup_flatMap]
  constructor
  · rintro ⟨line, i⟩ -
    have hplaces : (line.cells.map Prod.snd).Nodup := by
      refine List.pairwise_iff_getElem.mpr fun a b _ _ hlt => ?_
      simpa [SparseVector.cells] using Nat.ne_of_lt hlt
    have hcells := hplaces.map (Prod.mk_right_injective i)
    rw [List.map_map] at hcells ⊢
    exact hcells
  · refine (List.pairwise_map.mp hlines).imp fun hne => List.disjoint_left.mpr ?_
    intro cell hcell hcell'
    have hline : ∀ t : SparseVector α × Nat,
        cell ∈ (t.1.cells.map fun q => (t.2, q.1, (t.2, q.2))).map (·.2.2) → cell.1 = t.2 := by
      intro t hmem
      rw [List.map_map] at hmem
      obtain ⟨q, -, rfl⟩ := List.mem_map.mp hmem
      rfl
    exact hne ((hline _ hcell).symm.trans (hline _ hcell'))

/-- Before anything is written, the cells hold the values that are read. -/
theorem cellEntries_map_read (s : SparseLines α) :
    s.cellEntries.map (Cells.read s.lines) = s.entries.map some := by
  have hlines : (s.lines.toList.zipIdx.map fun (t : SparseVector α × Nat) =>
        t.1.cells.map fun q => (q.1, (t.2, q.2))).map
        (·.map (Prod.map id (Cells.read s.lines))) =
      (s.lines.toList.map SparseVector.toList).map (·.map (Prod.map id some)) := by
    refine List.ext_getElem (by simp) fun i hi _ => ?_
    have hline : i < s.lines.size := by simpa using hi
    refine List.ext_getElem (by simp [SparseVector.cells, SparseVector.toList]) fun p hp _ => ?_
    have hplace : p < s.lines[i].indices.length ∧ p < s.lines[i].values.length := by
      simpa [SparseVector.cells] using hp
    simp [SparseVector.cells, SparseVector.toList, Cells.read, hline, hplace.2]
  exact congrArg (fun rest => (⟨0, rest, none⟩ : Entries (Option α))) hlines

/-- Writing changes no index and no place. -/
theorem cellEntries_write (s : SparseLines α) (cell : Nat × Nat) (x : α) :
    ({s with lines := Cells.write s.lines cell x} : SparseLines α).cellEntries = s.cellEntries := by
  refine congrArg Entries.ofLines (List.ext_getElem (by simp [Cells.write]) fun i hi _ => ?_)
  have hline : i < s.lines.size := by simpa [Cells.write] using hi
  simp only [List.getElem_map, List.getElem_zipIdx, Array.getElem_toList, Cells.write,
    Array.getElem_modify]
  split
  · simp only [SparseVector.cells, List.length_set]
  · rfl

/-- A walk after `n` calls, whatever was written on the way. -/
structure Follows (s : SparseLines α) (n : Nat) (w : Walk α) : Prop where
  cursor_eq : w.cursor = Cursor.after n s.cellEntries
  handed_eq : w.handed = s.cellOrder.take n
  cells_eq : ({s with lines := w.lines} : SparseLines α).cellEntries = s.cellEntries
  kept : ∀ cell, cell ∉ w.handed → Cells.read w.lines cell = Cells.read s.lines cell

theorem follows_walk (s : SparseLines α) : s.Follows 0 s.walk := ⟨rfl, rfl, rfl, fun _ _ => rfl⟩

section Walks

variable {n : Nat} {w : Walk α}

/-- The cell that is handed out next. -/
theorem Follows.next_cell (h : s.Follows n w) :
    w.cursor.next.1.map (·.2.2) = s.cellOrder[n]? := by
  rw [h.cursor_eq, Entries.next_after, cellOrder, List.getElem?_map]

theorem Follows.next (h : s.Follows n w) : s.Follows (n + 1) (w.step .next) where
  cursor_eq := by
    rw [Cursor.after_succ, ← h.cursor_eq]
    rfl
  handed_eq := by
    simp only [Walk.step, h.next_cell, h.handed_eq, List.take_add_one]
  cells_eq := h.cells_eq
  kept cell hcell := h.kept cell fun hmem => hcell (List.mem_append_left _ hmem)

theorem Follows.write (h : s.Follows n w) (item : Nat) (x : α) :
    s.Follows n (w.step (.write item x)) := by
  cases hhanded : w.handed[item]? with
  | none =>
      rw [Walk.step_write_of_not_handed hhanded]
      exact h
  | some cell =>
      rw [Walk.step_write_of_handed hhanded]
      refine ⟨h.cursor_eq, h.handed_eq, ?_, fun other hother => ?_⟩
      · exact (cellEntries_write ⟨s.minorDim, w.lines⟩ cell x).trans h.cells_eq
      · have hne : other ≠ cell := by
          rintro rfl
          exact hother (List.mem_of_getElem? hhanded)
        rw [Cells.read_write, ← h.kept other hother]
        simp only [hne, if_false, Option.map_id']

/-- What a call and a write keep, every run keeps. -/
theorem Follows.run (h : s.Follows n w) (actions : List (Walk.Action α)) :
    s.Follows (n + Walk.calls actions) (w.run actions) := by
  induction actions generalizing n w with
  | nil => exact h
  | cons action actions ih =>
      cases action with
      | next =>
          have hrest := ih h.next
          rwa [Nat.add_right_comm] at hrest
      | write item x => exact ih (h.write item x)

/-- Cells that are still to come were not handed out, so they hold what they held. -/
theorem Follows.map_read (h : s.Follows n w) :
    w.cursor.map (Cells.read w.lines) = (Cursor.after n s.entries).map some := by
  have hcells : w.cursor.map (Cells.read w.lines) = w.cursor.map (Cells.read s.lines) := by
    refine Entries.map_congr fun e he => h.kept e.2.2 fun hmem => ?_
    rw [h.cursor_eq, s.cellEntries.honest.toList_after] at he
    rw [h.handed_eq] at hmem
    have hleft : e.2.2 ∈ s.cellOrder.drop n := by
      rw [cellOrder, ← List.map_drop]
      exact List.mem_map_of_mem he
    exact List.disjoint_take_drop s.cellOrder_nodup (Nat.le_refl n) hmem hleft
  rw [hcells, h.cursor_eq, ← Entries.after_map, cellEntries_map_read, Entries.after_map]

/-- Reading the lines as they stand now comes to the same state. -/
theorem Follows.entries_after (h : s.Follows n w) :
    Cursor.after n ({s with lines := w.lines} : SparseLines α).entries =
      Cursor.after n s.entries := by
  apply Entries.map_injective (Option.some_injective α)
  rw [← h.map_read, ← Entries.after_map, ← cellEntries_map_read, h.cells_eq, Entries.after_map,
    h.cursor_eq]

/-- What the traversal that writes answers, with the value that the cell has by
then. -/
theorem Follows.answer (h : s.Follows n w) :
    w.cursor.next.1.map (Entries.mapItem (Cells.read w.lines)) =
      s.stored[n]?.map (Entries.mapItem some) := by
  have hnext := congrArg Prod.fst (Entries.next_map (Cells.read w.lines) w.cursor)
  rw [h.map_read, Entries.next_map, Entries.next_after, toList_entries] at hnext
  exact hnext.symm

/-- The last item handed out is the one with the number of calls made before it. -/
theorem Follows.handed_last (h : s.Follows n w) :
    (w.step .next).handed[n]? = w.cursor.next.1.map (·.2.2) := by
  rw [h.next.handed_eq, List.getElem?_take_of_lt (Nat.lt_succ_self n), h.next_cell]

/-- A request of a script hands out an item and writes through it at once. -/
theorem Follows.request {ι : Type u} (h : s.Follows n w) (label : Nat → Nat → ι)
    (replacement : Option α) :
    Script.step (.next replacement) (labelled label w.cursor) w.lines =
      ((match s.stored[n]? with
          | some (major, minor, x) => .item (label major minor) x
          | none => .finished),
        labelled label (w.run (Walk.requested n replacement)).cursor,
        (w.run (Walk.requested n replacement)).lines) := by
  have hanswer := h.answer
  have hlast := h.handed_last
  have hcursor : Cursor.next (labelled label w.cursor) =
      (w.cursor.next.1.map fun (major, minor, cell) => (label major minor, cell),
        labelled label (w.step .next).cursor) := rfl
  rcases hnext : w.cursor.next.1 with _ | ⟨major, minor, cell⟩
  · rw [hnext] at hanswer hlast hcursor
    have hstored : s.stored[n]? = none := Option.map_eq_none_iff.mp hanswer.symm
    simp only [Script.step, hcursor, hstored, Option.map_none]
    cases replacement with
    | none => rfl
    | some x =>
        have hsame := Walk.step_write_of_not_handed hlast x
        simp only [Walk.requested, Walk.run, List.foldl_cons, List.foldl_nil, hsame]
        rfl
  · rw [hnext] at hanswer hlast hcursor
    obtain ⟨⟨i, j, x⟩, hstored, heq⟩ := Option.map_eq_some_iff.mp hanswer.symm
    obtain ⟨rfl, rfl, hread⟩ : i = major ∧ j = minor ∧ some x = Cells.read w.lines cell := by
      simpa [Entries.mapItem] using heq
    simp only [Script.step, hcursor, hstored, Option.map_some, ← hread]
    cases replacement with
    | none => rfl
    | some y =>
        have hwritten := Walk.step_write_of_handed hlast y
        simp only [Walk.requested, Walk.run, List.foldl_cons, List.foldl_nil, hwritten]
        rfl

theorem Follows.runScript {ι : Type u} (h : s.Follows n w) (label : Nat → Nat → ι)
    (script : List (Request α)) :
    Script.run script (labelled label w.cursor) w.lines =
      (Walk.scriptReplies label s.stored n script,
        labelled label (w.run (Walk.scripted n script)).cursor,
        (w.run (Walk.scripted n script)).lines) := by
  induction script generalizing n w with
  | nil => rfl
  | cons request script ih =>
      cases request with
      | hint =>
          have hrest := ih h
          rw [Script.run]
          simp only [Script.step, hrest]
          rfl
      | next replacement =>
          have hafter := h.run (Walk.requested n replacement)
          rw [Walk.calls_requested] at hafter
          rw [Script.run, h.request label replacement]
          simp only [ih hafter, Walk.scriptReplies, Walk.scripted, Walk.run_append]

end Walks

/-- The traversal that reads and a walk, after `n` calls of each. All these calls have
returned, within a pass of the loop for each call and one for each line. The states
differ in payloads only, and a cell that is still to come holds the value that is
still to be read. The next call is answered by the `n`th entry as it was stored at
first, or by nothing if there is none. -/
structure InStep (s : SparseLines α) (n : Nat) (w : Walk α) : Prop where
  reader_calls : ∃ passes ≤ n + s.majorDim,
    Entries.Calls n passes s.entries (Cursor.after n s.entries)
  writer_calls : ∃ passes ≤ n + s.majorDim, Entries.Calls n passes s.cellEntries w.cursor
  state_eq : w.cursor.map (Cells.read w.lines) = (Cursor.after n s.entries).map some
  unchanged : Cursor.after n ({s with lines := w.lines} : SparseLines α).entries =
    Cursor.after n s.entries
  reader_answer : (Cursor.after n s.entries).next.1 = s.stored[n]?
  writer_answer : w.cursor.next.1.map (Entries.mapItem (Cells.read w.lines)) =
    s.stored[n]?.map (Entries.mapItem some)

theorem Follows.inStep {n : Nat} {w : Walk α} (h : s.Follows n w) : s.InStep n w where
  reader_calls := by
    obtain ⟨passes, hcalls, hpasses⟩ := Entries.exists_calls n s.entries
    have hlines : s.entries.rest.length = s.majorDim := List.length_map _
    exact ⟨passes, by omega, hcalls⟩
  writer_calls := by
    obtain ⟨passes, hcalls, hpasses⟩ := Entries.exists_calls n s.cellEntries
    have hlines : s.cellEntries.rest.length = s.majorDim := by
      simp [cellEntries, Entries.ofLines, majorDim]
    rw [h.cursor_eq]
    exact ⟨passes, by omega, hcalls⟩
  state_eq := h.map_read
  unchanged := h.entries_after
  reader_answer := by
    rw [Entries.next_after, toList_entries]
    rfl
  writer_answer := h.answer

/-- Whatever is written through items that were handed out, the traversal that writes
stays in step with the one that reads, call by call, and both come to all entries, one
line after the other, before they answer that there is none. Scripts are run in this
way. -/
theorem flattenings_in_step (s : SparseLines α) :
    (∀ actions, s.InStep (Walk.calls actions) (s.walk.run actions)) ∧
      ∀ {ι : Type} (label : Nat → Nat → ι) (script : List (Request α)),
        s.runScript label script = (Walk.scriptReplies label s.stored 0 script,
          {s with lines := (s.walk.run (Walk.scripted 0 script)).lines}) := by
  constructor
  · intro actions
    have hafter := s.follows_walk.run actions
    rw [Nat.zero_add] at hafter
    exact hafter.inStep
  · intro ι label script
    have hrun := s.follows_walk.runScript label script
    exact congrArg (fun run => (run.1, {s with lines := run.2.2})) hrun

end SparseLines

end TransposedViews
