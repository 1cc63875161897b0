import TransposedViews.Proofs.LineDocument

namespace TransposedViews

/-- In ascending order the last number that reaches a bound is the last number, if
any does. -/
theorem getLast?_filter_of_ascending {indices : List Nat} (h : indices.Pairwise (· < ·))
    (bound : Nat) :
    (indices.filter (bound ≤ ·)).getLast? = indices.getLast?.filter (bound ≤ ·) := by
  rcases List.eq_nil_or_concat' indices with rfl | ⟨front, k, rfl⟩
  · rfl
  · obtain ⟨-, -, hbelow⟩ := List.pairwise_append.mp h
    rw [List.filter_append, List.getLast?_concat]
    by_cases hk : bound ≤ k
    · have hlast : [k].filter (bound ≤ ·) = [k] := List.filter_eq_self.mpr (by simpa using hk)
      rw [hlast, List.getLast?_concat, Option.filter_some, if_pos (by simpa using hk)]
    · have hnone : front.filter (bound ≤ ·) = [] := by
        refine List.filter_eq_nil_iff.mpr fun a ha => ?_
        have hlt := hbelow a ha k List.mem_cons_self
        simp only [decide_eq_true_eq]
        omega
      simp [hnone, hk, Option.filter_some]

namespace SparseLines

variable {α : Type}

/-- The stored positions, line by line and in every line in the order of its
indices. -/
def positions (s : SparseLines α) : List (Nat × Nat) :=
  s.lines.toList.zipIdx.flatMap fun (line, major) => line.indices.map fun minor => (major, minor)

/-- The stored positions whose minor index is not below the minor dimension. -/
def outside (s : SparseLines α) : List (Nat × Nat) := s.positions.filter (s.minorDim ≤ ·.2)

/-- What is reported of the positions outside: of the line that the first one is in,
the last one. -/
inductive Reported : List (Nat × Nat) → Option (Nat × Nat) → Prop where
  | nothing : Reported [] none
  | last (major minor : Nat) {earlier : List Nat} {later : List (Nat × Nat)}
      (hearlier : ∀ k ∈ earlier, k < minor) (hlater : ∀ p ∈ later, major < p.1) :
      Reported (earlier.map (fun k => (major, k)) ++ (major, minor) :: later)
        (some (major, minor))

section Lines

variable {minorDim : Nat}

/-- The lines are gone through from the front, and those without a position outside
are passed over by either side. -/
theorem reported_lines {lines : List (SparseVector α)}
    (h : ∀ line ∈ lines, line.indices.Pairwise (· < ·)) (begun : Nat) :
    Reported
      ((lines.zipIdx begun).flatMap fun (line, major) =>
        (line.indices.filter (minorDim ≤ ·)).map fun minor => (major, minor))
      ((lines.zipIdx begun).findSome? fun (line, major) =>
        (line.lastIndex?.filter (minorDim ≤ ·)).map fun minor => (major, minor)) := by
  induction lines generalizing begun with
  | nil => exact .nothing
  | cons line lines ih =>
      obtain ⟨hline, hlines⟩ := List.forall_mem_cons.mp h
      have hlast := getLast?_filter_of_ascending hline minorDim
      have hrest := ih hlines (begun + 1)
      simp only [List.zipIdx_cons, List.flatMap_cons, List.findSome?_cons]
      rw [SparseVector.lastIndex?, ← hlast]
      rcases List.eq_nil_or_concat' (line.indices.filter (minorDim ≤ ·)) with
        hnone | ⟨front, k, hsome⟩
      · rw [hnone]
        exact hrest
      · have hascending : (front ++ [k]).Pairwise (· < ·) := by
          rw [← hsome]
          exact hline.filter _
        rw [hsome, List.getLast?_concat, List.map_append, List.append_assoc]
        refine .last begun k (fun a ha => ?_) fun p hp => ?_
        · exact (List.pairwise_append.mp hascending).2.2 a ha k List.mem_cons_self
        · obtain ⟨⟨later, major⟩, hmem, hp⟩ := List.mem_flatMap.mp hp
          obtain ⟨minor, -, rfl⟩ := List.mem_map.mp hp
          exact List.le_snd_of_mem_zipIdx hmem

end Lines

variable {s : SparseLines α}

theorem outside_eq_flatMap (s : SparseLines α) :
    s.outside = s.lines.toList.zipIdx.flatMap fun (line, major) =>
      (line.indices.filter (s.minorDim ≤ ·)).map fun minor => (major, minor) := by
  rw [outside, positions, List.filter_flatMap]
  refine List.flatMap_congr fun t _ => ?_
  rw [List.filter_map]
  rfl

theorem reported (h : ∀ line ∈ s.lines, line.indices.Pairwise (· < ·)) :
    Reported s.outside s.outOfRange? := by
  rw [outside_eq_flatMap]
  exact reported_lines (fun line hline => h line (Array.mem_def.mpr hline)) 0

section Reports

variable {positions : List (Nat × Nat)} {report : Option (Nat × Nat)}

theorem Reported.eq_none_iff (h : Reported positions report) : report = none ↔ positions = [] := by
  cases h <;> simp

/-- The first position outside is in the line that is reported. -/
theorem exists_first_of_line (major minor : Nat) (earlier : List Nat) (later : List (Nat × Nat)) :
    ∃ p others, earlier.map (fun k => (major, k)) ++ (major, minor) :: later = p :: others ∧
      p.1 = major := by
  cases earlier with
  | nil => exact ⟨_, _, rfl, rfl⟩
  | cons k earlier => exact ⟨_, _, rfl, rfl⟩

/-- The positions of the line are those before the one that is reported, and that
one. -/
theorem Reported.eq_last (h : Reported positions report) :
    report = positions.head?.bind fun p => (positions.filter (·.1 = p.1)).getLast? := by
  cases h with
  | nothing => rfl
  | @last major minor earlier later hearlier hlater =>
      have hline : (earlier.map fun k => (major, k)).filter (fun q => q.1 = major) =
          earlier.map fun k => (major, k) := List.filter_eq_self.mpr (by simp)
      have hothers : later.filter (fun q => q.1 = major) = [] := by
        refine List.filter_eq_nil_iff.mpr fun p hp => ?_
        have hlt := hlater p hp
        simp only [decide_eq_true_eq]
        omega
      obtain ⟨p, others, hfirst, hp⟩ := exists_first_of_line major minor earlier later
      have hhead := congrArg List.head? hfirst
      rw [hhead, List.head?_cons, Option.bind_some, hp, List.filter_append, hline,
        List.filter_cons_of_pos (by simp), hothers, List.getLast?_concat]

/-- The one reported is the first one just if the line of the first has no other. -/
theorem Reported.eq_head_iff (h : Reported positions report) :
    report = positions.head? ↔ ∀ p q later, positions = p :: q :: later → p.1 ≠ q.1 := by
  cases h with
  | nothing => simp
  | @last major minor earlier later hearlier hlater =>
      cases earlier with
      | nil =>
          refine ⟨fun _ p q others heq => ?_, fun _ => rfl⟩
          cases heq
          exact Nat.ne_of_lt (hlater q List.mem_cons_self)
      | cons k earlier =>
          have hlt := hearlier k List.mem_cons_self
          obtain ⟨q, others, hsecond, hq⟩ := exists_first_of_line major minor earlier later
          constructor
          · intro heq
            cases heq
            exact absurd hlt (Nat.lt_irrefl minor)
          · intro hother
            exact absurd hq.symm (hother (major, k) q others (congrArg _ hsecond))

end Reports

/-- Nothing is outside if no line stores an index that reaches the minor dimension. -/
theorem outside_eq_nil_iff :
    s.outside = [] ↔ ∀ line ∈ s.lines, ∀ k ∈ line.indices, k < s.minorDim := by
  have hinside : ∀ line : SparseVector α,
      line.indices.filter (s.minorDim ≤ ·) = [] ↔ ∀ k ∈ line.indices, k < s.minorDim := by
    simp only [List.filter_eq_nil_iff, decide_eq_true_eq, Nat.not_le, implies_true]
  rw [outside_eq_flatMap, List.flatMap_eq_nil_iff]
  constructor
  · intro h line hline
    obtain ⟨i, hi⟩ := List.mem_iff_getElem?.mp (Array.mem_def.mp hline)
    exact (hinside line).mp (List.map_eq_nil_iff.mp (h _ (List.mk_mem_zipIdx_iff_getElem?.mpr hi)))
  · intro h t ht
    have hline := h t.1 (Array.mem_def.mpr (List.fst_mem_of_mem_zipIdx ht))
    exact List.map_eq_nil_iff.mpr ((hinside t.1).mpr hline)

/-- Of ascending lines nothing is reported exactly if nothing is stored outside. What
is reported otherwise is in the line of the first position outside, the last one
there, and hence the first one of all just if no second one follows in its line. -/
theorem first_outside_reported_iff (h : ∀ line ∈ s.lines, line.indices.Pairwise (· < ·)) :
    (s.outOfRange? = none ↔ ∀ line ∈ s.lines, ∀ k ∈ line.indices, k < s.minorDim) ∧
      (s.outOfRange? =
        s.outside.head?.bind fun p => (s.outside.filter (·.1 = p.1)).getLast?) ∧
      (s.outOfRange? = s.outside.head? ↔
        ∀ p q later, s.outside = p :: q :: later → p.1 ≠ q.1) :=
  ⟨(reported h).eq_none_iff.trans outside_eq_nil_iff, (reported h).eq_last,
    (reported h).eq_head_iff⟩

/-- Lines of length three, of which the first reaches one too far and the second does
so twice. -/
def reachingOnceThenTwice : SparseLines Nat := ⟨3, #[⟨[0, 3], [1, 2]⟩, ⟨[5, 8], [3, 4]⟩]⟩

theorem reachingOnceThenTwice_first_reported :
    (∀ line ∈ reachingOnceThenTwice.lines, line.indices.Pairwise (· < ·)) ∧
      reachingOnceThenTwice.outside = [(0, 3), (1, 5), (1, 8)] ∧
      reachingOnceThenTwice.outOfRange? = some (0, 3) := by
  have hascending : ∀ line ∈ reachingOnceThenTwice.lines, line.indices.Pairwise (· < ·) := by
    decide
  have houtside : reachingOnceThenTwice.outside = [(0, 3), (1, 5), (1, 8)] := by decide
  obtain ⟨-, -, hfirst⟩ := first_outside_reported_iff hascending
  refine ⟨hascending, houtside, ?_⟩
  rw [hfirst.mpr, houtside, List.head?_cons]
  intro p q later heq
  rw [houtside] at heq
  cases heq
  decide

/-- A line of length three that reaches too far twice. -/
def reachingTwice : SparseLines Nat := ⟨3, #[⟨[3, 7], [1, 2]⟩]⟩

/-- Its first index outside is the smaller one. The larger one is reported, and so it
is when the line is read as a matrix of one row. -/
theorem reachingTwice_last_reported :
    (∀ line ∈ reachingTwice.lines, line.indices.Pairwise (· < ·)) ∧
      reachingTwice.outside.head? = some (0, 3) ∧ reachingTwice.outOfRange? = some (0, 7) ∧
      RowMatrix.ofLines reachingTwice = .error (.indexOutOfBounds 0 7 1 3) :=
  ⟨by decide, by decide, by decide, by decide⟩

end SparseLines

end TransposedViews
