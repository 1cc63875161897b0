import TransposedViews.Proofs.CoordinateLines
import TransposedViews.Proofs.DenseAccess

/-!
Size hints that keep what they promise. Every cursor does its own bookkeeping: a
counter, a bound that a number is subtracted from, a stride through a suffix, or
the length of one of three sequences. In every state, also past the end, it has
to come to the number of items that asking on would deliver.
-/

namespace TransposedViews

namespace SizeHint

/-- A number that lies between both bounds. -/
structure Admits (size : SizeHint) (n : Nat) : Prop where
  lower_le : size.lower ≤ n
  le_upper : ∀ upper, size.upper = some upper → n ≤ upper

/-- A number that both bounds are. -/
structure Pins (size : SizeHint) (n : Nat) : Prop where
  lower_eq : size.lower = n
  upper_eq : size.upper = some n

theorem exactly_pins (n : Nat) : (exactly n).Pins n := ⟨rfl, rfl⟩

theorem unknown_admits (n : Nat) : unknown.Admits n := ⟨Nat.zero_le n, nofun⟩

theorem Pins.admits {size : SizeHint} {n : Nat} (h : size.Pins n) : size.Admits n where
  lower_le := Nat.le_of_eq h.lower_eq
  le_upper _ hupper := Nat.le_of_eq (Option.some.inj (h.upper_eq.symm.trans hupper))

end SizeHint

namespace Cursor

section Promises

variable {σ : Type u} {ι : Type v} [Cursor σ ι] {promise : SizeHint → Nat → Prop} {s : σ}

/-- A cursor that keeps a promise in every state that asking it leads to: what
it delivers next is what is left of its items, its hint is true of their number,
and once it delivers nothing it delivers nothing later either. -/
structure Promises (promise : SizeHint → Nat → Prop) (s : σ) : Prop where
  toList_after : ∀ n, toList (after n s) = (toList s).drop n
  hint_kept : ∀ n, promise (hint (after n s)) (toList (after n s)).length
  fused : ∀ n, (next (after n s)).1 = none → ∀ k, (next (after (n + k) s)).1 = none

/-- The bounds of the hint are never wrong. -/
abbrev Honest (s : σ) : Prop := Promises SizeHint.Admits s

/-- The bounds of the hint are always the number of items left. -/
abbrev ExactSize (s : σ) : Prop := Promises SizeHint.Pins s

theorem after_succ (n : Nat) (s : σ) : after (n + 1) s = (next (after n s)).2 :=
  Function.iterate_succ_apply' _ n s

theorem after_next (n : Nat) (s : σ) : after n (next s).2 = after (n + 1) s :=
  (Function.iterate_succ_apply _ n s).symm

theorem ExactSize.honest (h : ExactSize s) : Honest s where
  toList_after := h.toList_after
  hint_kept n := (h.hint_kept n).admits
  fused := h.fused

theorem Promises.toList_next (h : Promises promise s) :
    toList (Cursor.next s).2 = (toList s).tail := by
  have hone := h.toList_after 1
  rwa [List.drop_one] at hone

/-- What holds in the states that asking leads to holds from the next one on. -/
theorem Promises.next (h : Promises promise s) : Promises promise (Cursor.next s).2 where
  toList_after n := by
    rw [after_next, h.toList_after, h.toList_next, List.drop_tail]
  hint_kept n := by
    rw [after_next]
    exact h.hint_kept (n + 1)
  fused n hnone k := by
    rw [after_next] at hnone ⊢
    rw [Nat.add_right_comm]
    exact h.fused (n + 1) hnone k

theorem Promises.next_of_nil (h : Promises promise s) (hlist : toList s = []) :
    ∃ s', Cursor.next s = (none, s') ∧ Promises promise s' ∧ toList s' = [] := by
  have hrest := h.toList_next
  rw [hlist, List.tail_nil] at hrest
  exact ⟨_, Prod.ext (next_of_toList_nil hlist) rfl, h.next, hrest⟩

theorem Promises.next_of_cons {a : ι} {rest : List ι} (h : Promises promise s)
    (hlist : toList s = a :: rest) :
    ∃ s', Cursor.next s = (some a, s') ∧ Promises promise s' ∧ toList s' = rest := by
  obtain ⟨s', hnext, hrest⟩ := next_of_toList_cons hlist
  have hafter := h.next
  rw [hnext] at hafter
  exact ⟨s', hnext, hafter, hrest⟩

/-- A cursor keeps a promise if every step does from one state of a kind to the
next, taking one item off those that are left. -/
theorem Promises.of_invariant (P : σ → Prop) (hkept : ∀ s, P s → P (Cursor.next s).2)
    (htail : ∀ s, P s → toList (Cursor.next s).2 = (toList s).tail)
    (hhint : ∀ s, P s → promise (hint s) (toList s).length) (h : P s) : Promises promise s := by
  have hafter : ∀ n, P (after n s) := after_invariant P hkept h
  have hlist : ∀ n, toList (after n s) = (toList s).drop n := by
    intro n
    induction n with
    | zero => rfl
    | succ n ih => rw [after_succ, htail _ (hafter n), ih, List.tail_drop]
  refine ⟨hlist, fun n => hhint _ (hafter n), fun n hnone k => ?_⟩
  have hempty := (hlist n).symm.trans (toList_of_next_none _ hnone)
  apply next_of_toList_nil
  rw [hlist, ← List.drop_drop, hempty, List.drop_nil]

/-- A step takes one item off, if the exhausted cursor is left as it is. -/
theorem toList_next_of_resting (h : (Cursor.next s).1 = none → (Cursor.next s).2 = s) :
    toList (Cursor.next s).2 = (toList s).tail := by
  cases hnext : (Cursor.next s).1 with
  | none => rw [h hnext, toList_of_next_none s hnext, List.tail_nil]
  | some a => rw [toList_of_next_some s a hnext, List.tail_cons]

/-- A number that every item lowers by one, down to zero, is the number of items. -/
theorem length_toList_of_count (P : σ → Prop) (count : σ → Nat)
    (hkept : ∀ s, P s → P (Cursor.next s).2)
    (hdone : ∀ s, P s → (Cursor.next s).1 = none → count s = 0)
    (hitem : ∀ s a, P s → (Cursor.next s).1 = some a → count s = count (Cursor.next s).2 + 1)
    (h : P s) : (toList s).length = count s := by
  generalize hlist : toList s = items
  induction items generalizing s with
  | nil => exact (hdone s h (next_of_toList_nil hlist)).symm
  | cons a items ih =>
      obtain ⟨s', hnext, hrest⟩ := next_of_toList_cons hlist
      have hcount := hitem s a h (by rw [hnext])
      have hafter := hkept s h
      rw [hnext] at hcount hafter
      rw [List.length_cons, ih hafter hrest, hcount]

theorem ExactSize.of_exact [Exact σ] (s : σ) : ExactSize s := by
  refine Promises.of_invariant (fun _ => True) (fun _ _ => trivial)
    (fun s _ => Exact.toList_next s) (fun s _ => ?_) trivial
  rw [Exact.hint_eq]
  exact SizeHint.exactly_pins _

/-- A cursor that counts up to a bound has as many items as the count is short of
it. -/
theorem ExactSize.of_counting (begun bound : σ → Nat) (item : σ → ι) (advance : σ → σ)
    (hnext : ∀ s, Cursor.next s =
      if bound s ≤ begun s then (none, s) else (some (item s), advance s))
    (hbegun : ∀ s, begun (advance s) = begun s + 1) (hbound : ∀ s, bound (advance s) = bound s)
    (hhint : ∀ s, hint s = .exactly (bound s - begun s)) (s : σ) : ExactSize s := by
  have hlength : ∀ s, (toList s).length = bound s - begun s := by
    intro s
    refine length_toList_of_count (fun _ => True) (fun s => bound s - begun s)
      (fun _ _ => trivial) ?_ ?_ trivial
    · intro s _ hnone
      rw [hnext] at hnone
      split at hnone
      · next hend => exact Nat.sub_eq_zero_of_le hend
      · cases hnone
    · intro s a _ hsome
      rw [hnext] at hsome ⊢
      split at hsome
      · cases hsome
      · next hinside =>
          rw [if_neg hinside, hbegun, hbound]
          omega
  refine Promises.of_invariant (fun _ => True) (fun _ _ => trivial) ?_ ?_ trivial
  · intro s _
    refine toList_next_of_resting fun hnone => ?_
    rw [hnext] at hnone ⊢
    split at hnone
    · next hend => rw [if_pos hend]
    · cases hnone
  · intro s _
    rw [hhint, hlength]
    exact SizeHint.exactly_pins _

section Embedding

variable {τ : Type w} {κ : Type x} [Cursor τ κ] {f : σ → τ} {g : ι → κ}

theorem after_of_embedding
    (hnext : ∀ s, Cursor.next (f s) = ((Cursor.next s).1.map g, f (Cursor.next s).2)) (n : Nat)
    (s : σ) : after n (f s) = f (after n s) := by
  induction n with
  | zero => rfl
  | succ n ih => rw [after_succ, after_succ, ih, hnext]

/-- A cursor that is driven like another one keeps the same promise. -/
theorem Promises.embed (h : Promises promise s)
    (hnext : ∀ s, Cursor.next (f s) = ((Cursor.next s).1.map g, f (Cursor.next s).2))
    (hhint : ∀ s, hint (f s) = hint s) : Promises promise (f s) where
  toList_after n := by
    rw [after_of_embedding hnext, toList_of_embedding hnext, toList_of_embedding hnext,
      h.toList_after, List.map_drop]
  hint_kept n := by
    rw [after_of_embedding hnext, toList_of_embedding hnext, List.length_map, hhint]
    exact h.hint_kept n
  fused n hnone k := by
    rw [after_of_embedding hnext, hnext, Option.map_eq_none_iff] at hnone ⊢
    exact h.fused n hnone k

theorem Promises.wrapped {τ : Type w} [Cursor τ ι] {f : σ → τ} (h : Promises promise s)
    (hnext : ∀ s, Cursor.next (f s) = ((Cursor.next s).1, f (Cursor.next s).2))
    (hhint : ∀ s, hint (f s) = hint s) : Promises promise (f s) :=
  h.embed (g := id) (fun s => by rw [hnext, Option.map_id, id]) hhint

theorem Promises.mapped (h : Promises promise s) (f : ι → κ) :
    Promises promise (⟨s, f⟩ : Mapped σ ι κ) :=
  h.embed (f := fun s => (⟨s, f⟩ : Mapped σ ι κ)) (fun _ => rfl) (fun _ => rfl)

end Embedding

end Promises

end Cursor

namespace Dense

section Hints

variable {β : Type u}

theorem Rows.exactSize (s : Rows β) : Cursor.ExactSize s := by
  refine Cursor.Promises.of_invariant (fun _ => True) (fun _ _ => trivial) ?_ ?_ trivial
  · rintro ⟨rest, ncols, _ | remaining⟩ -
    · exact Cursor.toList_next_of_resting fun _ => rfl
    · exact Cursor.toList_next_of_resting nofun
  · rintro ⟨rest, ncols, remaining⟩ -
    rw [toList_rows, List.length_map, List.length_range]
    exact SizeHint.exactly_pins remaining

theorem Cols.exactSize (s : Cols β) : Cursor.ExactSize s :=
  .of_counting Cols.begun Cols.ncols (fun s => ⟨s.data.drop s.begun, s.ncols⟩)
    (fun s => {s with begun := s.begun + 1}) (fun _ => rfl) (fun _ => rfl) (fun _ => rfl)
    (fun _ => rfl) s

/-- After an element and those skipped behind it one step less is begun. -/
theorem strides_begun (left skipped : Nat) :
    (left + 1 + skipped) / (skipped + 1) =
      (left - skipped + skipped) / (skipped + 1) + 1 := by
  have hstep : left + 1 + skipped = left + (skipped + 1) := by omega
  rw [hstep, Nat.add_div_right left (Nat.succ_pos skipped)]
  rcases Nat.lt_or_ge left skipped with hlt | hle
  · rw [Nat.sub_eq_zero_of_le (Nat.le_of_lt hlt), Nat.zero_add, Nat.div_eq_of_lt (by omega),
      Nat.div_eq_of_lt (by omega)]
  · rw [Nat.sub_add_cancel hle]

/-- A stride through a buffer reaches one element for each step that is begun. -/
theorem length_toList_strided {s : Strided β} (h : 0 < s.stride) :
    (Cursor.toList s).length = (s.rest.length + (s.stride - 1)) / s.stride := by
  refine Cursor.length_toList_of_count (fun s : Strided β => 0 < s.stride)
    (fun s => (s.rest.length + (s.stride - 1)) / s.stride) ?_ ?_ ?_ h
  · rintro ⟨_ | ⟨x, rest⟩, stride⟩ hs
    · exact hs
    · exact hs
  · rintro ⟨_ | ⟨x, rest⟩, _ | skipped⟩ hs hnone
    · cases hs
    · exact Nat.div_eq_of_lt (by simp)
    · cases hnone
    · cases hnone
  · rintro ⟨_ | ⟨x, rest⟩, _ | skipped⟩ a hs hsome
    · cases hs
    · cases hsome
    · cases hs
    · simp only [Cursor.next, List.length_cons, List.length_drop, Nat.add_sub_cancel]
      exact strides_begun rest.length skipped

theorem Strided.exactSize {s : Strided β} (h : 0 < s.stride) : Cursor.ExactSize s := by
  refine Cursor.Promises.of_invariant (fun s : Strided β => 0 < s.stride) ?_ ?_ ?_ h
  · rintro ⟨_ | ⟨x, rest⟩, stride⟩ hs
    · exact hs
    · exact hs
  · rintro ⟨_ | ⟨x, rest⟩, stride⟩ -
    · exact Cursor.toList_next_of_resting fun _ => rfl
    · exact Cursor.toList_next_of_resting nofun
  · intro s hs
    rw [length_toList_strided hs]
    exact SizeHint.exactly_pins _

end Hints

end Dense

namespace Coordinate

section Hints

variable {β : Type u}

theorem Lines.exactSize (s : Lines β) : Cursor.ExactSize s :=
  .of_counting Lines.begun Lines.count (fun s => ⟨s.begun, s.stored⟩)
    (fun s => {s with begun := s.begun + 1}) (fun _ => rfl) (fun _ => rfl) (fun _ => rfl)
    (fun _ => rfl) s

theorem lines_begun_le {s : Lines β} (h : s.begun ≤ s.count) (n : Nat) :
    (Cursor.after n s).begun ≤ (Cursor.after n s).count := by
  refine Cursor.after_invariant (fun s : Lines β => s.begun ≤ s.count) ?_ h n
  intro s hs
  simp only [Cursor.next]
  split
  · exact hs
  · change s.begun + 1 ≤ s.count
    omega

/-- Nothing is known about a line that is scanned for, so nothing is promised. -/
theorem Scan.honest (s : Scan β) : Cursor.Honest s := by
  refine Cursor.Promises.of_invariant (fun _ => True) (fun _ _ => trivial) ?_
    (fun s _ => SizeHint.unknown_admits _) trivial
  rintro ⟨line, rest⟩ -
  obtain ⟨-, hline, hrest⟩ := advance_eq line rest
  rw [toList_scan line rest, ← hrest]
  refine (toList_scan _ _).trans ?_
  change ((Scan.advance line rest).2.rest.filter
    (·.1 = (Scan.advance line rest).2.line)).map Prod.snd = _
  rw [hline]

/-- The three sequences are used up in step. -/
def Indexed.Balanced (s : Indexed β) : Prop :=
  s.rows.length = s.payloads.length ∧ s.cols.length = s.payloads.length

theorem Indexed.balanced_cases {s : Indexed β} (h : s.Balanced) : s = ⟨[], [], []⟩ ∨
    ∃ i rows j cols x payloads, s = ⟨i :: rows, j :: cols, x :: payloads⟩ ∧
      (⟨rows, cols, payloads⟩ : Indexed β).Balanced := by
  obtain ⟨rows, cols, payloads⟩ := s
  obtain ⟨hrows, hcols⟩ := h
  cases payloads with
  | nil =>
      cases List.length_eq_zero_iff.mp hrows
      cases List.length_eq_zero_iff.mp hcols
      exact .inl rfl
  | cons x payloads =>
      obtain ⟨i, rows, rfl⟩ := List.exists_cons_of_length_eq_add_one hrows
      obtain ⟨j, cols, rfl⟩ := List.exists_cons_of_length_eq_add_one hcols
      exact .inr ⟨i, rows, j, cols, x, payloads, rfl, Nat.succ.inj hrows, Nat.succ.inj hcols⟩

theorem Indexed.exactSize {s : Indexed β} (h : s.Balanced) : Cursor.ExactSize s := by
  refine Cursor.Promises.of_invariant (fun s : Indexed β => s.Balanced) ?_ ?_ ?_ h
  · intro s hs
    rcases balanced_cases hs with rfl | ⟨i, rows, j, cols, x, payloads, rfl, hrest⟩
    · exact hs
    · exact hrest
  · intro s hs
    rcases balanced_cases hs with rfl | ⟨i, rows, j, cols, x, payloads, rfl, hrest⟩
    · exact Cursor.toList_next_of_resting fun _ => rfl
    · exact Cursor.toList_next_of_resting nofun
  · rintro ⟨rows, cols, payloads⟩ ⟨hrows, hcols⟩
    rw [toList_indexed, List.length_map, List.length_zip, List.length_zip, hrows, hcols,
      Nat.min_self, Nat.min_self]
    exact SizeHint.exactly_pins _

end Hints

end Coordinate

/-- Lines are not looked into before they are begun, so nothing is promised about
their items. -/
theorem Entries.honest {β : Type u} (s : Entries β) : Cursor.Honest s := by
  refine Cursor.Promises.of_invariant (fun _ => True) (fun _ _ => trivial) ?_
    (fun s _ => SizeHint.unknown_admits _) trivial
  intro s _
  rw [toList_eq_pending, toList_eq_pending]
  exact (advance_pending s.rest s.begun s.current).2

end TransposedViews
