import TransposedViews.Json.Decoder
import TransposedViews.Proofs.Traversal

/-!
What decoders find. A decoder that succeeds has decoded every part of what it
gives, and decoders recover what was written. Checking every item of a list,
or a field of a record, as soon as it has been read finds the same value as
reading all of it first and checking it afterwards. It stops earlier, so on a
document that is both invalid and malformed the two may report different
defects.
-/

namespace TransposedViews.Json

variable {ε β β₁ β₂ β₃ γ γ₂ π D : Type}

section Sources

theorem exists_of_decode {decoder : Decoder β} {text : String} {x : β}
    (h : decode decoder text = .ok x) : ∃ v, decoder v = .ok x := by
  simp only [decode] at h
  split at h
  · cases h
  · next v _ =>
      split at h
      · cases h
      · next hv =>
          split at h
          · cases h
            exact ⟨v, hv⟩
          · cases h

/-- What was decoded through a check was accepted by it. -/
theorem exists_of_checked {parts : Decoder π} {report : ε → DocumentError}
    {accept : π → Except ε β} {v : Value} {x : β} (h : checked parts report accept v = .ok x) :
    ∃ data, parts v = .ok data ∧ accept data = .ok x := by
  unfold checked at h
  split at h
  · cases h
  · next data hdata => exact ⟨data, hdata, ok_of_mapError_ok h⟩

theorem exists_of_mem_list {item : Decoder β} {v : Value} {xs : List β}
    (h : list item v = .ok xs) (x : β) (hx : x ∈ xs) : ∃ u, item u = .ok x := by
  unfold list at h
  split at h
  · split at h
    · cases h
    · next hitems =>
        split at h
        · cases h
          exact exists_of_mem_mapM hitems x hx
        · cases h
  · cases h

/-- The fields of a record that have been read so far were decoded. -/
def Decoded (field₁ : Decoder β₁) (field₂ : Decoder β₂) (seen : Option β₁ × Option β₂) : Prop :=
  (∀ x, seen.1 = some x → ∃ v, field₁ v = .ok x) ∧ (∀ y, seen.2 = some y → ∃ v, field₂ v = .ok y)

/-- A field that is there after a member was there before it or is decoded
from its value. -/
theorem decoded_of_once {field : Decoder β} {seen seen' : Option β} {v : Value}
    (h : once seen field v = .ok seen') (x : β) (hx : seen' = some x) : ∃ v, field v = .ok x := by
  cases seen with
  | some _ => cases h
  | none =>
      obtain ⟨y, hy, rfl⟩ := exists_of_map_ok h
      cases hx
      exact ⟨v, hy⟩

theorem member₂_decoded {name₁ name₂ : String} {field₁ : Decoder β₁} {field₂ : Decoder β₂}
    (seen : Option β₁ × Option β₂) (member : Text × Value) (seen' : Option β₁ × Option β₂)
    (hseen : Decoded field₁ field₂ seen)
    (h : member₂ name₁ name₂ field₁ field₂ seen member = .ok seen') :
    Decoded field₁ field₂ seen' := by
  obtain ⟨_ | name, v⟩ := member
  · cases h
  · simp only [member₂] at h
    split at h
    · obtain ⟨first, hfirst, rfl⟩ := exists_of_map_ok h
      exact ⟨decoded_of_once hfirst, hseen.2⟩
    · split at h
      · obtain ⟨second, hsecond, rfl⟩ := exists_of_map_ok h
        exact ⟨hseen.1, decoded_of_once hsecond⟩
      · cases h
        exact hseen

/-- Both fields of a record were decoded, whether it was given as an object or
as an array. -/
theorem record₂_fields {name₁ name₂ : String} {field₁ : Decoder β₁} {field₂ : Decoder β₂}
    {v : Value} {x : β₁} {y : β₂} (h : record₂ name₁ name₂ field₁ field₂ v = .ok (x, y)) :
    (∃ u, field₁ u = .ok x) ∧ (∃ u, field₂ u = .ok y) := by
  unfold record₂ at h
  split at h
  · next members closed =>
      obtain ⟨seen, hseen, hend⟩ := exists_of_bind_ok h
      have hdecoded := foldlM_invariant (Decoded field₁ field₂) member₂_decoded members
        ⟨by simp, by simp⟩ hseen
      split at hend
      · next hfirst =>
          cases hend
          exact ⟨hdecoded.1 x rfl, hdecoded.2 y rfl⟩
      · cases hend
  · next v₁ rest closed =>
      obtain ⟨first, hfirst, hrest⟩ := exists_of_bind_ok h
      split at hrest
      · cases hrest
      · next v₂ rest =>
          obtain ⟨second, hsecond, hend⟩ := exists_of_bind_ok hrest
          split at hend
          · cases hend
            exact ⟨⟨v₁, hfirst⟩, ⟨v₂, hsecond⟩⟩
          · cases hend
  · cases h

/-- The fields of a record that have been read so far were decoded. -/
def Decoded₃ (field₁ : Decoder β₁) (field₂ : Decoder β₂) (field₃ : Decoder β₃)
    (seen : Option β₁ × Option β₂ × Option β₃) : Prop :=
  (∀ x, seen.1 = some x → ∃ v, field₁ v = .ok x) ∧ Decoded field₂ field₃ seen.2

theorem member₃_decoded {name₁ name₂ name₃ : String} {field₁ : Decoder β₁} {field₂ : Decoder β₂}
    {field₃ : Decoder β₃} (seen : Option β₁ × Option β₂ × Option β₃) (member : Text × Value)
    (seen' : Option β₁ × Option β₂ × Option β₃) (hseen : Decoded₃ field₁ field₂ field₃ seen)
    (h : member₃ name₁ name₂ name₃ field₁ field₂ field₃ seen member = .ok seen') :
    Decoded₃ field₁ field₂ field₃ seen' := by
  obtain ⟨_ | name, v⟩ := member
  · cases h
  · simp only [member₃] at h
    split at h
    · obtain ⟨first, hfirst, rfl⟩ := exists_of_map_ok h
      exact ⟨decoded_of_once hfirst, hseen.2⟩
    · split at h
      · obtain ⟨second, hsecond, rfl⟩ := exists_of_map_ok h
        exact ⟨hseen.1, decoded_of_once hsecond, hseen.2.2⟩
      · split at h
        · obtain ⟨third, hthird, rfl⟩ := exists_of_map_ok h
          exact ⟨hseen.1, hseen.2.1, decoded_of_once hthird⟩
        · cases h
          exact hseen

theorem triple_fields {field₁ : Decoder β₁} {field₂ : Decoder β₂} {field₃ : Decoder β₃}
    {v : Value} {x : β₁} {y : β₂} {z : β₃} (h : triple field₁ field₂ field₃ v = .ok (x, y, z)) :
    (∃ u, field₁ u = .ok x) ∧ (∃ u, field₂ u = .ok y) ∧ (∃ u, field₃ u = .ok z) := by
  unfold triple at h
  split at h
  · obtain ⟨first, hfirst, hrest⟩ := exists_of_bind_ok h
    split at hrest
    · cases hrest
    · obtain ⟨second, hsecond, hrest⟩ := exists_of_bind_ok hrest
      split at hrest
      · cases hrest
      · obtain ⟨third, hthird, hend⟩ := exists_of_bind_ok hrest
        split at hend
        · cases hend
          exact ⟨⟨_, hfirst⟩, ⟨_, hsecond⟩, ⟨_, hthird⟩⟩
        · cases hend
  · cases h

theorem record₃_fields {name₁ name₂ name₃ : String} {field₁ : Decoder β₁} {field₂ : Decoder β₂}
    {field₃ : Decoder β₃} {v : Value} {x : β₁} {y : β₂} {z : β₃}
    (h : record₃ name₁ name₂ name₃ field₁ field₂ field₃ v = .ok (x, y, z)) :
    (∃ u, field₁ u = .ok x) ∧ (∃ u, field₂ u = .ok y) ∧ (∃ u, field₃ u = .ok z) := by
  unfold record₃ at h
  split at h
  · next members closed =>
      obtain ⟨seen, hseen, hend⟩ := exists_of_bind_ok h
      have hdecoded := foldlM_invariant (Decoded₃ field₁ field₂ field₃) member₃_decoded members
        ⟨by simp, by simp, by simp⟩ hseen
      split at hend
      · cases hend
        exact ⟨hdecoded.1 x rfl, hdecoded.2.1 y rfl, hdecoded.2.2 z rfl⟩
      · cases hend
  · exact triple_fields h

theorem lt_of_index {v : Value} {n : Nat} (h : index v = .ok n) : n < wordLimit := by
  unfold index at h
  split at h
  · split at h
    · next hlt =>
        cases h
        exact hlt
    · cases h
  · cases h

end Sources

section Written

theorem index_ofNat {n : Nat} (h : n < wordLimit) : index (.ofNat n) = .ok n := if_pos h

theorem list_of_map {item : Decoder β} {write : β → Value} {xs : List β}
    (h : ∀ x ∈ xs, item (write x) = .ok x) : list item (.list (xs.map write)) = .ok xs := by
  have hread : ∀ x ∈ xs, (item ∘ write) x = .ok (id x) := h
  have hitems : (xs.map write).mapM item = .ok xs := by
    rw [List.mapM_map, mapM_ok_of_forall hread, List.map_id]
  simp only [list, Value.list, hitems, if_true]

variable {name₁ name₂ name₃ : String} {field₁ : Decoder β₁} {field₂ : Decoder β₂}
  {field₃ : Decoder β₃} {v₁ v₂ v₃ : Value} {x : β₁} {y : β₂} {z : β₃}

theorem record₂_of_fields (hne : name₂ ≠ name₁) (h₁ : field₁ v₁ = .ok x) (h₂ : field₂ v₂ = .ok y) :
    record₂ name₁ name₂ field₁ field₂ (.record [(name₁, v₁), (name₂, v₂)]) = .ok (x, y) := by
  simp only [record₂, Value.record, List.map_cons, List.map_nil, List.foldlM_cons, member₂, once,
    if_true, if_neg hne, h₁, h₂]
  rfl

theorem record₃_of_fields (hne₂ : name₂ ≠ name₁) (hne₃ : name₃ ≠ name₁) (hne₃₂ : name₃ ≠ name₂)
    (h₁ : field₁ v₁ = .ok x) (h₂ : field₂ v₂ = .ok y) (h₃ : field₃ v₃ = .ok z) :
    record₃ name₁ name₂ name₃ field₁ field₂ field₃
      (.record [(name₁, v₁), (name₂, v₂), (name₃, v₃)]) = .ok (x, y, z) := by
  simp only [record₃, Value.record, List.map_cons, List.map_nil, List.foldlM_cons, member₃, once,
    if_true, if_neg hne₂, if_neg hne₃, if_neg hne₃₂, h₁, h₂, h₃]
  rfl

theorem triple_of_items (h₁ : field₁ v₁ = .ok x) (h₂ : field₂ v₂ = .ok y)
    (h₃ : field₃ v₃ = .ok z) :
    triple field₁ field₂ field₃ (.list [v₁, v₂, v₃]) = .ok (x, y, z) := by
  simp only [triple, Value.list, h₁, h₂, h₃]
  rfl

end Written

section Checks

/-- A result that goes one check further than another one: where that one has
a value, the outcome is the one of the check, and where that one has none,
there is none. -/
inductive Refines (check : β → Except ε γ) : Except ε β → Except ε γ → Prop where
  | checked (y : β) : Refines check (.ok y) (check y)
  | failed (e e' : ε) : Refines check (.error e) (.error e')

namespace Refines

theorem of_eq {check : β → Except ε γ} {refined : Except ε γ} {y : β} (h : refined = check y) :
    Refines check (.ok y) refined := by
  rw [h]
  exact .checked y

theorem refl (result : Except ε β) : Refines .ok result result := by
  cases result with
  | error e => exact .failed e e
  | ok y => exact .checked y

theorem map {check : β → Except ε γ} {check' : β₁ → Except ε β₂} {result : Except ε β}
    {refined : Except ε γ} {f : β → β₁} {g : γ → β₂} (h : Refines check result refined)
    (hcheck : ∀ y, (check y).map g = check' (f y)) :
    Refines check' (result.map f) (refined.map g) := by
  cases h with
  | checked y => exact .of_eq (hcheck y)
  | failed e e' => exact .failed e e'

theorem map_right {check : β → Except ε γ} {check' : β → Except ε γ₂} {result : Except ε β}
    {refined : Except ε γ} {g : γ → γ₂} (h : Refines check result refined)
    (hcheck : ∀ y, (check y).map g = check' y) : Refines check' result (refined.map g) := by
  cases h with
  | checked y => exact .of_eq (hcheck y)
  | failed e e' => exact .failed e e'

/-- Going on after a value refines going on after its check. -/
theorem bind {check : β → Except ε γ} {check' : β₁ → Except ε β₂} {result : Except ε β}
    {refined : Except ε γ} {next : β → Except ε β₁} {next' : γ → Except ε β₂}
    (h : Refines check result refined)
    (hnext : ∀ y, Refines check' (next y) (check y >>= next')) :
    Refines check' (result >>= next) (refined >>= next') := by
  cases h with
  | checked y => exact hnext y
  | failed e e' => exact .failed e e'

/-- What can only fail refines what fails. -/
theorem of_forall_failed {check : β → Except ε γ} {refined : Except ε γ} (e : ε)
    (h : ∀ z, refined ≠ .ok z) : Refines check (.error e) refined := by
  cases refined with
  | error e' => exact .failed e e'
  | ok z => exact absurd rfl (h z)

/-- Where the refined result has a value, so has the other one, and the check
accepts it. -/
theorem exists_of_ok {check : β → Except ε γ} {result : Except ε β} {refined : Except ε γ} {z : γ}
    (h : Refines check result refined) (hz : refined = .ok z) :
    ∃ y, result = .ok y ∧ check y = .ok z := by
  cases h with
  | checked y => exact ⟨y, rfl, hz⟩
  | failed e e' => cases hz

/-- What follows the refined result may be counted to the check. -/
theorem andThen {check : β → Except ε γ} {result : Except ε β} {refined : Except ε γ}
    (h : Refines check result refined) (next : γ → Except ε γ₂) :
    Refines (fun y => check y >>= next) result (refined >>= next) := by
  cases h with
  | checked y => exact .checked y
  | failed e e' => exact .failed e e'

theorem eq_of_ok {check : β → Except ε γ} {result : Except ε β} {refined : Except ε γ} {y : β}
    (h : Refines check result refined) (hy : result = .ok y) : refined = check y := by
  subst hy
  cases h with
  | checked y => rfl

end Refines

/-- Reading a value through its parts: where the parts can be read, the check
made on them at once decides, and nowhere else is there a value. -/
def ReadsThrough (check : π → Except ε β) (parts : D → Except ε π) (value : D → Except ε β) :
    Prop :=
  ∀ d, Refines check (parts d) (value d)

theorem checked_eq_bind (parts : Decoder π) (report : ε → DocumentError)
    (accept : π → Except ε β) (v : Value) :
    checked parts report accept v = parts v >>= fun data => (accept data).mapError report := by
  unfold checked
  cases parts v <;> rfl

/-- A check made on what was read goes one check further. -/
theorem checked_refines (parts : Decoder π) (report : ε → DocumentError)
    (accept : π → Except ε β) :
    ReadsThrough (fun data => (accept data).mapError report) parts
      (checked parts report accept) := by
  intro v
  rw [checked_eq_bind]
  exact (Refines.refl (parts v)).andThen _

/-- Whole texts are decoded like the trees that they say: what follows the
document breaks both readings. -/
theorem decode_refines {decoder : Decoder β} {decoder' : Decoder γ}
    {check : β → Except DocumentError γ} (h : ReadsThrough check decoder decoder') :
    ReadsThrough check (decode decoder) (decode decoder') := by
  intro text
  simp only [decode]
  cases (read text).root with
  | none => exact .failed _ _
  | some v =>
      have hv := h v
      dsimp only
      generalize decoder v = result at hv
      generalize decoder' v = refined at hv
      cases hv with
      | failed e e' => exact .failed e e'
      | checked y =>
          cases (read text).complete with
          | true =>
              refine .of_eq ?_
              cases check y <;> rfl
          | false => cases check y <;> exact .failed _ _

theorem mapM_refines {item : ι → Except ε β} {item' : ι → Except ε γ} {check : β → Except ε γ}
    (h : ReadsThrough check item item') (items : List ι) :
    Refines (List.mapM check) (items.mapM item) (items.mapM item') := by
  induction items with
  | nil => exact .checked []
  | cons v items ih =>
      rw [List.mapM_cons, List.mapM_cons]
      refine (h v).bind fun y => ?_
      cases hcheck : check y with
      | error e =>
          cases items.mapM item with
          | error e' => exact .failed e' e
          | ok ys =>
              refine .of_eq ?_
              rw [List.mapM_cons, hcheck]
              rfl
      | ok z =>
          refine ih.map fun ys => ?_
          rw [List.mapM_cons, hcheck]
          cases ys.mapM check <;> rfl

theorem list_refines {item : Decoder β} {item' : Decoder γ} {check : β → Except DocumentError γ}
    (h : ReadsThrough check item item') (v : Value) :
    Refines (List.mapM check) (list item v) (list item' v) := by
  cases v with
  | array items closed =>
      have hitems := mapM_refines h items
      simp only [list]
      generalize items.mapM item = result at hitems
      generalize items.mapM item' = refined at hitems
      cases hitems with
      | failed e e' => exact .failed e e'
      | checked ys =>
          cases closed with
          | true =>
              refine .of_eq ?_
              cases ys.mapM check <;> rfl
          | false =>
              cases ys.mapM check with
              | error e => exact .failed _ e
              | ok zs => exact .failed _ _
  | _ => exact .failed _ _

section Records

variable {name₁ name₂ : String} {field₁ : Decoder β₁} {field₂ : Decoder β₂} {field₂' : Decoder γ₂}
  {check : β₂ → Except DocumentError γ₂}

/-- Checks the second field of a record that is being read, if it is there. -/
def checkSecond (check : β₂ → Except DocumentError γ₂) :
    Option β₁ × Option β₂ → Except DocumentError (Option β₁ × Option γ₂)
  | (first, none) => .ok (first, none)
  | (first, some y) => (check y).map fun z => (first, some z)

/-- While the second field has not been read, the member may be it. -/
theorem member₂_refines_unread (h : ReadsThrough check field₂ field₂') (first : Option β₁)
    (name : String) (v : Value) :
    Refines (checkSecond check) (member₂ name₁ name₂ field₁ field₂ (first, none) (some name, v))
      (member₂ name₁ name₂ field₁ field₂' (first, none) (some name, v)) := by
  simp only [member₂]
  split
  · exact (Refines.refl (once first field₁ v)).map fun _ => rfl
  · split
    · have hfield := h v
      simp only [once]
      generalize field₂ v = result at hfield
      generalize field₂' v = refined at hfield
      cases hfield with
      | checked y =>
          refine .of_eq ?_
          cases hcheck : check y <;> simp only [checkSecond, hcheck] <;> rfl
      | failed e e' => exact .failed e e'
    · exact .checked _

/-- Once the second field has been read, its check is made already: if it
fails, no further member matters. -/
theorem member₂_refines_read (first : Option β₁) (y : β₂) (name : String) (v : Value) :
    Refines (checkSecond check) (member₂ name₁ name₂ field₁ field₂ (first, some y) (some name, v))
      (checkSecond check (first, some y) >>= fun seen' =>
        member₂ name₁ name₂ field₁ field₂' seen' (some name, v)) := by
  cases hcheck : check y with
  | error e =>
      have hfails : ∀ first' : Option β₁, checkSecond check (first', some y) = .error e := by
        intro first'
        simp only [checkSecond, hcheck]
        rfl
      rw [hfails]
      simp only [member₂]
      split
      · cases once first field₁ v with
        | error e' => exact .failed e' e
        | ok x => exact .of_eq (hfails x).symm
      · split
        · exact .failed _ e
        · exact .of_eq (hfails first).symm
  | ok z =>
      have hpasses : ∀ first' : Option β₁,
          checkSecond check (first', some y) = .ok (first', some z) := by
        intro first'
        simp only [checkSecond, hcheck]
        rfl
      rw [hpasses]
      simp only [member₂]
      change Refines _ _ (member₂ name₁ name₂ field₁ field₂' (first, some z) (some name, v))
      simp only [member₂]
      split
      · exact (Refines.refl (once first field₁ v)).map fun x => (hpasses x).symm
      · split
        · exact .failed _ _
        · exact .of_eq (hpasses first).symm

theorem member₂_refines (h : ReadsThrough check field₂ field₂')
    (seen : Option β₁ × Option β₂) (member : Text × Value) :
    Refines (checkSecond check) (member₂ name₁ name₂ field₁ field₂ seen member)
      (checkSecond check seen >>= fun seen' =>
        member₂ name₁ name₂ field₁ field₂' seen' member) := by
  obtain ⟨_ | name, v⟩ := member
  · apply Refines.of_forall_failed
    intro z hz
    obtain ⟨seen', -, hseen'⟩ := exists_of_bind_ok hz
    cases hseen'
  · obtain ⟨first, _ | y⟩ := seen
    · exact member₂_refines_unread h first name v
    · exact member₂_refines_read first y name v

theorem members₂_refines (h : ReadsThrough check field₂ field₂')
    (members : List (Text × Value)) (seen : Option β₁ × Option β₂) :
    Refines (checkSecond check) (members.foldlM (member₂ name₁ name₂ field₁ field₂) seen)
      (checkSecond check seen >>= members.foldlM (member₂ name₁ name₂ field₁ field₂')) := by
  induction members generalizing seen with
  | nil =>
      refine .of_eq ?_
      cases checkSecond check seen <;> rfl
  | cons member members ih =>
      have hassoc : (checkSecond check seen >>=
            (member :: members).foldlM (member₂ name₁ name₂ field₁ field₂')) =
          (checkSecond check seen >>= fun seen' =>
            member₂ name₁ name₂ field₁ field₂' seen' member) >>=
              members.foldlM (member₂ name₁ name₂ field₁ field₂') := by
        cases checkSecond check seen <;> rfl
      rw [hassoc, List.foldlM_cons]
      exact (member₂_refines h seen member).bind ih

/-- A record whose second field is checked as it is read is read and then
checked. -/
theorem record₂_refines (h : ReadsThrough check field₂ field₂') (v : Value) :
    Refines (fun fields => (check fields.2).map fun z => (fields.1, z))
      (record₂ name₁ name₂ field₁ field₂ v) (record₂ name₁ name₂ field₁ field₂' v) := by
  cases v with
  | object members closed =>
      refine (members₂_refines h members (none, none)).bind fun seen => ?_
      obtain ⟨_ | x, _ | y⟩ := seen
      · exact .failed _ _
      · simp only [checkSecond]
        cases check y <;> exact .failed _ _
      · exact .failed _ _
      · simp only [checkSecond]
        cases closed with
        | false => cases check y <;> exact .failed _ _
        | true =>
            refine .of_eq ?_
            dsimp only
            cases check y <;> rfl
  | array items closed =>
      cases items with
      | nil => exact .failed _ _
      | cons v₁ rest =>
          refine (Refines.refl (field₁ v₁)).bind fun x => ?_
          cases rest with
          | nil => exact .failed _ _
          | cons v₂ rest =>
              refine (h v₂).bind fun y => ?_
              cases hend : rest.isEmpty && closed with
              | false =>
                  cases check y <;> exact .failed _ _
              | true =>
                  refine .of_eq ?_
                  cases check y <;> rfl
  | _ => exact .failed _ _

end Records

end Checks

end TransposedViews.Json
