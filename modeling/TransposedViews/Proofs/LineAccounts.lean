import TransposedViews.Proofs.Writes

/-!
What line scripts write. A run of line scripts is accounted for by the writes
it leaves and by the access that ended it, if one was refused. The account is
read off the scripts and the places of the lines, whatever stands there: one
law for each kind of line, and one for going through the lines.
-/

namespace TransposedViews

section Accounts

variable {α : Type u} {π : Type v}

/-- What a run of line scripts comes to: the writes it leaves, and the access
that ended it if one was refused. -/
structure Account (π : Type v) (α : Type u) where
  writes : List (π × α)
  refusal : Option Fault

namespace Account

/-- Goes on after the writes of an account, unless it ended in a refusal. -/
def andThen (earlier later : Account π α) : Account π α :=
  match earlier.refusal with
  | some fault => ⟨earlier.writes, some fault⟩
  | none => ⟨earlier.writes ++ later.writes, later.refusal⟩

/-- The account of the same run in other places. -/
def place {π' : Type w} (g : π → π') (account : Account π α) : Account π' α :=
  ⟨account.writes.map (Prod.map g id), account.refusal⟩

theorem place_andThen {π' : Type w} (g : π → π') (earlier later : Account π α) :
    (earlier.andThen later).place g = (earlier.place g).andThen (later.place g) := by
  obtain ⟨writes, _ | fault⟩ := earlier
  · simp [andThen, place]
  · rfl

theorem refusal_andThen (earlier later : Account π α) :
    (earlier.andThen later).refusal = earlier.refusal.or later.refusal := by
  obtain ⟨writes, _ | fault⟩ := earlier <;> rfl

theorem mem_andThen {earlier later : Account π α} {w : π × α}
    (h : w ∈ (earlier.andThen later).writes) : w ∈ earlier.writes ∨ w ∈ later.writes := by
  obtain ⟨writes, _ | fault⟩ := earlier
  · exact List.mem_append.mp h
  · exact Or.inl h

/-- A run that leaves the writes of an account and ends as it says. -/
structure Settles {β : Type w} (account : Account Nat α) (values : Array α)
    (run : Except Fault β × Array α) : Prop where
  store_eq : run.2 = Cells.writeAll values account.writes
  refused_iff : ∀ fault, run.1 = .error fault ↔ account.refusal = some fault

theorem settles_accepted {β : Type w} {writes : List (Nat × α)} {values after : Array α}
    (hstore : after = Cells.writeAll values writes) (x : β) :
    (⟨writes, none⟩ : Account Nat α).Settles values (.ok x, after) where
  store_eq := hstore
  refused_iff fault := by simp only [reduceCtorEq]

theorem settles_refused {β : Type w} (values : Array α) (fault : Fault) :
    (⟨[], some fault⟩ : Account Nat α).Settles values
      ((.error fault : Except Fault β), values) where
  store_eq := rfl
  refused_iff fault' := by rw [Except.error.injEq, Option.some.injEq]

/-- A run that goes on where another one ended, unless that one was refused. -/
theorem Settles.andThen {β γ δ : Type w} {earlier later : Account Nat α} {values : Array α}
    {first : Except Fault β × Array α} {run : Except Fault δ × Array α}
    (hfirst : earlier.Settles values first) (second : Array α → Except Fault γ × Array α)
    (hsecond : later.Settles first.2 (second first.2))
    (hrefused : ∀ fault, first.1 = .error fault → run = (.error fault, first.2))
    (hdone : ∀ x, first.1 = .ok x →
      ∃ f, run = ((second first.2).1.map f, (second first.2).2)) :
    (earlier.andThen later).Settles values run := by
  obtain ⟨hstore, hends⟩ := hfirst
  cases hresult : first.1 with
  | error fault =>
      have hrefusal := (hends fault).mp hresult
      rw [hrefused fault hresult, Account.andThen, hrefusal]
      refine ⟨hstore, fun fault' => ?_⟩
      rw [Except.error.injEq, Option.some.injEq]
  | ok x =>
      have hrefusal : earlier.refusal = none := by
        refine Option.eq_none_iff_forall_ne_some.mpr fun fault hfault => ?_
        rw [(hends fault).mpr hfault] at hresult
        cases hresult
      obtain ⟨f, hrun⟩ := hdone x hresult
      rw [hrun, Account.andThen, hrefusal]
      refine ⟨?_, fun fault => ?_⟩
      · rw [hsecond.store_eq, hstore, Cells.writeAll_append]
      · rw [← hsecond.refused_iff fault]
        exact map_eq_error_iff

end Account

/-- What one request does to a contiguous line. -/
def LineRequest.sliceAccount (places : List π) : LineRequest α → Account π α
  | .set k x =>
      match places[k]? with
      | some p => ⟨[(p, x)], none⟩
      | none => ⟨[], some (.element k places.length)⟩
  | .get k => ⟨[], if k < places.length then none else some (.element k places.length)⟩
  | _ => ⟨[], none⟩

namespace LineScript

/-- What a script does to a contiguous line, up to the first access that the
line refuses. -/
def sliceAccount : LineScript α → List π → Account π α
  | request :: script, line => (request.sliceAccount line).andThen (sliceAccount script line)
  | [], _ => ⟨[], none⟩

/-- The requests for items in a script. A line that is walked is left as it is
by all the others. -/
def nexts : LineScript α → List (Request α)
  | .next replacement :: script => .next replacement :: nexts script
  | _ :: script => nexts script
  | [] => []

/-- What a script does to a line that is walked. Walking is never refused. -/
def walkAccount (script : LineScript α) (line : List π) : Account π α :=
  ⟨Script.writes script.nexts line, none⟩

/-- What one script per line does, `account` being what it does to each. -/
def linesAccount (account : LineScript α → List π → Account π α) :
    List (LineScript α) → List (List π) → Account π α
  | script :: scripts, line :: lines =>
      (account script line).andThen (linesAccount account scripts lines)
  | _, _ => ⟨[], none⟩

section Places

variable {π' : Type w} (g : π → π')

theorem sliceAccount_map (script : LineScript α) (places : List π) :
    sliceAccount script (places.map g) = (sliceAccount script places).place g := by
  induction script with
  | nil => rfl
  | cons request script ih =>
      have hrequest :
          request.sliceAccount (places.map g) = (request.sliceAccount places).place g := by
        cases request with
        | set k x =>
            simp only [LineRequest.sliceAccount, List.getElem?_map, List.length_map]
            cases places[k]? <;> rfl
        | get k =>
            simp only [LineRequest.sliceAccount, List.length_map]
            rfl
        | _ => rfl
      rw [sliceAccount, sliceAccount, hrequest, ih, Account.place_andThen]

theorem walkAccount_map (script : LineScript α) (line : List π) :
    walkAccount script (line.map g) = (walkAccount script line).place g :=
  congrArg (Account.mk · none) (Script.writes_map g script.nexts line)

theorem linesAccount_map {account : LineScript α → List π → Account π α}
    {account' : LineScript α → List π' → Account π' α}
    (haccount : ∀ script line, account' script (line.map g) = (account script line).place g)
    (scripts : List (LineScript α)) (lines : List (List π)) :
    linesAccount account' scripts (lines.map (·.map g)) =
      (linesAccount account scripts lines).place g := by
  induction scripts generalizing lines with
  | nil => rfl
  | cons script scripts ih =>
      cases lines with
      | nil => rfl
      | cons line lines =>
          rw [List.map_cons, linesAccount, linesAccount, haccount, ih, Account.place_andThen]

end Places

theorem mem_of_mem_sliceAccount {script : LineScript α} {line : List π} {w : π × α}
    (h : w ∈ (sliceAccount script line).writes) : w.1 ∈ line := by
  induction script with
  | nil => cases h
  | cons request script ih =>
      rcases Account.mem_andThen h with h | h
      · cases request with
        | set k x =>
            simp only [LineRequest.sliceAccount] at h
            split at h
            · next p hp =>
                rw [List.mem_singleton.mp h]
                exact List.mem_of_getElem? hp
            · cases h
        | _ => cases h
      · exact ih h

/-- Line scripts write to the places of their lines and to no others. -/
theorem mem_of_mem_linesAccount {account : LineScript α → List π → Account π α}
    (haccount : ∀ script line w, w ∈ (account script line).writes → w.1 ∈ line)
    {scripts : List (LineScript α)} {lines : List (List π)} {w : π × α}
    (h : w ∈ (linesAccount account scripts lines).writes) : ∃ line ∈ lines, w.1 ∈ line := by
  induction scripts generalizing lines with
  | nil => cases h
  | cons script scripts ih =>
      cases lines with
      | nil => cases h
      | cons line lines =>
          rcases Account.mem_andThen h with h | h
          · exact ⟨line, List.mem_cons_self, haccount script line w h⟩
          · obtain ⟨later, hmem, hw⟩ := ih h
            exact ⟨later, List.mem_cons_of_mem line hmem, hw⟩

/-- A contiguous line refuses nothing but accesses past its end. -/
theorem refusal_of_sliceAccount {script : LineScript α} {line : List π} {fault : Fault}
    (h : (sliceAccount script line).refusal = some fault) :
    ∃ k, fault = .element k line.length ∧ line.length ≤ k ∧
      (.get k ∈ script ∨ ∃ x, .set k x ∈ script) := by
  induction script with
  | nil => cases h
  | cons request script ih =>
      rw [sliceAccount, Account.refusal_andThen, Option.or_eq_some_iff] at h
      rcases h with h | ⟨-, h⟩
      · cases request with
        | set k x =>
            simp only [LineRequest.sliceAccount] at h
            split at h
            · cases h
            · next hnone =>
                cases h
                have hk : line.length ≤ k := List.getElem?_eq_none_iff.mp hnone
                exact ⟨k, rfl, hk, Or.inr ⟨x, List.mem_cons_self⟩⟩
        | get k =>
            simp only [LineRequest.sliceAccount] at h
            split at h
            · cases h
            · cases h
              exact ⟨k, rfl, by omega, Or.inl List.mem_cons_self⟩
        | _ => cases h
      · obtain ⟨k, hfault, hk, hmem⟩ := ih h
        refine ⟨k, hfault, hk, ?_⟩
        rcases hmem with hmem | ⟨x, hmem⟩
        · exact Or.inl (List.mem_cons_of_mem _ hmem)
        · exact Or.inr ⟨x, List.mem_cons_of_mem _ hmem⟩

/-- A run over lines is refused where one of its scripts is on one of them. -/
theorem refusal_of_linesAccount {account : LineScript α → List π → Account π α}
    {scripts : List (LineScript α)} {lines : List (List π)} {fault : Fault}
    (h : (linesAccount account scripts lines).refusal = some fault) :
    ∃ script ∈ scripts, ∃ line ∈ lines, (account script line).refusal = some fault := by
  induction scripts generalizing lines with
  | nil => cases h
  | cons script scripts ih =>
      cases lines with
      | nil => cases h
      | cons line lines =>
          rw [linesAccount, Account.refusal_andThen, Option.or_eq_some_iff] at h
          rcases h with h | ⟨-, h⟩
          · exact ⟨script, List.mem_cons_self, line, List.mem_cons_self, h⟩
          · obtain ⟨next, hnext, later, hlater, hrefusal⟩ := ih h
            exact ⟨next, List.mem_cons_of_mem script hnext, later,
              List.mem_cons_of_mem line hlater, hrefusal⟩

end LineScript

end Accounts

namespace LineScript

/-- A walk writes what its requests for items write. -/
theorem runWalk_store {S : Type u} {κ : Type v} {α : Type w} [Cells S κ α] {σ : Type x}
    {ι : Type y} [Cursor σ (ι × κ)] (item : ι → α → Item α) (script : LineScript α) (cursor : σ)
    (s : S) : (runWalk item script cursor s).2 = (Script.run script.nexts cursor s).2.2 := by
  induction script generalizing cursor s with
  | nil => rfl
  | cons request script ih =>
      cases request with
      | next replacement =>
          rw [nexts, runWalk, Script.run]
          rcases Script.step (.next replacement) cursor s with ⟨_ | _ | _, cursor', s'⟩
          · exact ih cursor' s'
          · exact ih cursor' s'
          · exact ih cursor' s'
      | _ => exact ih cursor s

section Lines

variable {α : Type} {values : Array α} {cells : List Nat}

/-- A walk along distinct elements of an array. -/
theorem runWalk_settles (hdistinct : cells.Nodup) (hinside : ∀ c ∈ cells, c < values.size)
    (script : LineScript α) :
    (walkAccount script cells).Settles values (Dense.editColumn cells script values) := by
  have hread : ∀ c ∈ cells, (Cells.read values c).isSome := by
    intro c hc
    have hlt := hinside c hc
    have hget : Cells.read values c = some values[c] := Array.getElem?_eq_getElem hlt
    rw [hget, Option.isSome_some]
  obtain ⟨items, rfl, hcontents⟩ := Contents.exists_of_cells hdistinct hread
  have hcursor := toList_unlabelled (items.map Prod.snd)
  rw [List.map_map] at hcursor
  obtain ⟨final, hrun⟩ := Script.run_eq (fun _ => ()) script.nexts hcontents hcursor
  refine Account.settles_accepted ?_ _
  refine (runWalk_store _ script _ values).trans ?_
  rw [hrun]

/-- An answer to one request as the run of a script that ends with it. -/
theorem answerContiguous_settles (hinside : ∀ c ∈ cells, c < values.size)
    (request : LineRequest α) :
    (request.sliceAccount cells).Settles values
      (match answerContiguous cells request values with
        | .error fault => (.error fault, values)
        | .ok (reply, after) => (.ok reply, after)) := by
  cases request with
  | set k x =>
      rcases Nat.lt_or_ge k cells.length with hk | hk
      · have hcell : cells[k]? = some cells[k] := List.getElem?_eq_getElem hk
        have helement := readElement_of_lt (hinside cells[k] (List.getElem_mem hk))
        simp only [answerContiguous, LineRequest.sliceAccount, hcell, helement]
        exact Account.settles_accepted rfl _
      · have hcell : cells[k]? = none := List.getElem?_eq_none hk
        simp only [answerContiguous, LineRequest.sliceAccount, hcell]
        exact Account.settles_refused values _
  | get k =>
      rcases Nat.lt_or_ge k cells.length with hk | hk
      · have hcell : cells[k]? = some cells[k] := List.getElem?_eq_getElem hk
        have helement := readElement_of_lt (hinside cells[k] (List.getElem_mem hk))
        simp only [answerContiguous, LineRequest.sliceAccount, hcell, helement, hk, if_true]
        exact Account.settles_accepted rfl _
      · have hcell : cells[k]? = none := List.getElem?_eq_none hk
        have hpast : ¬ k < cells.length := by omega
        simp only [answerContiguous, LineRequest.sliceAccount, hcell, hpast, if_false]
        exact Account.settles_refused values _
  | _ => exact Account.settles_accepted rfl _

theorem size_writeAll (writes : List (Nat × α)) :
    (Cells.writeAll values writes).size = values.size := by
  induction writes generalizing values with
  | nil => rfl
  | cons w writes ih =>
      rw [Cells.writeAll_cons, ih]
      exact Array.size_setIfInBounds

/-- A script on distinct elements of an array that are accessed by their place. -/
theorem runContiguous_settles (hinside : ∀ c ∈ cells, c < values.size) (script : LineScript α) :
    (sliceAccount script cells).Settles values (runContiguous cells script values) := by
  induction script generalizing values with
  | nil => exact Account.settles_accepted rfl _
  | cons request script ih =>
      have hanswer := answerContiguous_settles hinside request
      refine hanswer.andThen (runContiguous cells script) (ih ?_) ?_ ?_
      · rw [hanswer.store_eq, size_writeAll]
        exact hinside
      · intro fault hfault
        rw [runContiguous]
        cases hresult : answerContiguous cells request values with
        | error fault' =>
            rw [hresult] at hfault
            cases hfault
            rfl
        | ok answered =>
            rw [hresult] at hfault
            cases hfault
      · intro reply hreply
        rw [runContiguous]
        cases hresult : answerContiguous cells request values with
        | error fault =>
            rw [hresult] at hreply
            cases hreply
        | ok answered => exact ⟨(answered.1 :: ·), rfl⟩

/-- One script per line, on lines of elements of one array. -/
theorem runLines_settles {σ : Type u} [Cursor σ (List Nat)]
    {edit : List Nat → LineScript α → Array α → Except Fault (List (LineReply α)) × Array α}
    {account : LineScript α → List Nat → Account Nat α} {scripts : List (LineScript α)}
    {lines : List (List Nat)} {cursor : σ}
    (hedit : ∀ line ∈ lines, ∀ script (after : Array α), after.size = values.size →
      (account script line).Settles after (edit line script after))
    (hcursor : Cursor.toList cursor = lines) :
    (linesAccount account scripts lines).Settles values (runLines edit scripts cursor values) := by
  induction scripts generalizing lines cursor values with
  | nil => exact Account.settles_accepted rfl _
  | cons script scripts ih =>
      cases lines with
      | nil =>
          have hnone : (Cursor.next cursor).1 = none := Cursor.next_of_toList_nil hcursor
          rw [runLines]
          split
          · exact Account.settles_accepted rfl _
          · next heq =>
              rw [heq] at hnone
              cases hnone
      | cons line lines =>
          obtain ⟨cursor', hnext, hrest⟩ := Cursor.next_of_toList_cons hcursor
          have hline := hedit line List.mem_cons_self script values rfl
          have hsize : (edit line script values).2.size = values.size := by
            rw [hline.store_eq, size_writeAll]
          refine hline.andThen (runLines edit scripts cursor') (ih ?_ hrest) ?_ ?_
          · intro later hlater next after hafter
            exact hedit later (List.mem_cons_of_mem line hlater) next after (hafter.trans hsize)
          · intro fault hfault
            rcases hresult : edit line script values with ⟨result, after⟩
            rw [hresult] at hfault
            cases hfault
            simp only [runLines, hnext, hresult]
          · intro replies hreplies
            rcases hresult : edit line script values with ⟨result, after⟩
            rw [hresult] at hreplies
            cases hreplies
            refine ⟨fun rest => (replies :: rest.1, rest.2), ?_⟩
            simp only [runLines, hnext, hresult]

end Lines

end LineScript

end TransposedViews
