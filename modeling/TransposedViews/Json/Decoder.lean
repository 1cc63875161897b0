import TransposedViews.Error
import TransposedViews.Json.Reader

/-!
Typed values from trees. Decoders go through a tree front to back and stop at
the first defect. A record is checked as soon as its last part is there, so a
complete but invalid record is reported as such even if the text around it is
broken.
-/

namespace TransposedViews.Json

/-- Why a document gives no value: its data are well formed and fail a check
or cannot be stored, or it is malformed in any other way. -/
inductive DocumentError where
  | invalid (error : MatrixError)
  | fault (fault : Fault)
  | malformed
  deriving DecidableEq, Repr

abbrev Decoder (β : Type) := Value → Except DocumentError β

variable {β β₁ β₂ β₃ : Type}

/-- An index is an integer that fits a machine word. -/
def index : Decoder Nat
  | .number (.integer (.ofNat n)) => if n < wordLimit then .ok n else .error .malformed
  | _ => .error .malformed

/-- A list, item by item. -/
def list (item : Decoder β) : Decoder (List β)
  | .array items closed =>
      match items.mapM item with
      | .error e => .error e
      | .ok xs => if closed then .ok xs else .error .malformed
  | _ => .error .malformed

/-- The value of a field, which may be given only once. -/
def once (seen : Option β) (decode : Decoder β) (v : Value) : Except DocumentError (Option β) :=
  match seen with
  | some _ => .error .malformed
  | none => (decode v).map some

/-- One member of a record of two fields. A name that is no field's is passed
over, whatever its value. -/
def member₂ (name₁ name₂ : String) (field₁ : Decoder β₁) (field₂ : Decoder β₂)
    (seen : Option β₁ × Option β₂) (member : Text × Value) :
    Except DocumentError (Option β₁ × Option β₂) :=
  match member with
  | (none, _) => .error .malformed
  | (some name, v) =>
      if name = name₁ then (once seen.1 field₁ v).map fun x => (x, seen.2)
      else if name = name₂ then (once seen.2 field₂ v).map fun x => (seen.1, x)
      else .ok seen

/-- A record of two fields: an object with its members in any order, or an
array of exactly its fields. -/
def record₂ (name₁ name₂ : String) (field₁ : Decoder β₁) (field₂ : Decoder β₂) :
    Decoder (β₁ × β₂)
  | .object members closed => do
      match ← members.foldlM (member₂ name₁ name₂ field₁ field₂) (none, none), closed with
      | (some x, some y), true => return (x, y)
      | _, _ => throw .malformed
  | .array (v₁ :: rest) closed => do
      let x ← field₁ v₁
      match rest with
      | [] => throw .malformed
      | v₂ :: rest =>
          let y ← field₂ v₂
          if rest.isEmpty && closed then return (x, y) else throw .malformed
  | _ => .error .malformed

/-- One member of a record of three fields. -/
def member₃ (name₁ name₂ name₃ : String) (field₁ : Decoder β₁) (field₂ : Decoder β₂)
    (field₃ : Decoder β₃) (seen : Option β₁ × Option β₂ × Option β₃) (member : Text × Value) :
    Except DocumentError (Option β₁ × Option β₂ × Option β₃) :=
  match member with
  | (none, _) => .error .malformed
  | (some name, v) =>
      if name = name₁ then (once seen.1 field₁ v).map fun x => (x, seen.2)
      else if name = name₂ then (once seen.2.1 field₂ v).map fun x => (seen.1, x, seen.2.2)
      else if name = name₃ then (once seen.2.2 field₃ v).map fun x => (seen.1, seen.2.1, x)
      else .ok seen

/-- Exactly three values in an array, as a record of three fields or a triple
has them. -/
def triple (field₁ : Decoder β₁) (field₂ : Decoder β₂) (field₃ : Decoder β₃) :
    Decoder (β₁ × β₂ × β₃)
  | .array (v₁ :: rest) closed => do
      let x ← field₁ v₁
      match rest with
      | [] => throw .malformed
      | v₂ :: rest =>
          let y ← field₂ v₂
          match rest with
          | [] => throw .malformed
          | v₃ :: rest =>
              let z ← field₃ v₃
              if rest.isEmpty && closed then return (x, y, z) else throw .malformed
  | _ => .error .malformed

/-- A record of three fields: an object with its members in any order, or an
array of exactly its fields. -/
def record₃ (name₁ name₂ name₃ : String) (field₁ : Decoder β₁) (field₂ : Decoder β₂)
    (field₃ : Decoder β₃) : Decoder (β₁ × β₂ × β₃)
  | .object members closed => do
      match ← members.foldlM (member₃ name₁ name₂ name₃ field₁ field₂ field₃) (none, none, none),
          closed with
      | (some x, some y, some z), true => return (x, y, z)
      | _, _ => throw .malformed
  | v => triple field₁ field₂ field₃ v

/-- One of several names: the name as a string, or an object whose only member
has that name and nothing for a value. -/
def oneOf (choices : List (String × β)) : Decoder β
  | .string (some name) | .object [(some name, .null)] true =>
      match choices.lookup name with
      | some x => .ok x
      | none => .error .malformed
  | _ => .error .malformed

/-- What building from complete data says about their document. -/
def DocumentError.ofBuildFailure : BuildFailure → DocumentError
  | .rejected e => .invalid e
  | .fault f => .fault f

/-- Data that are checked as soon as they are complete. -/
def checked (parts : Decoder π) (report : ε → DocumentError) (accept : π → Except ε β) :
    Decoder β := fun v =>
  match parts v with
  | .error e => .error e
  | .ok data => (accept data).mapError report

/-- Decodes a text. What follows the document is looked at last. -/
def decode (decoder : Decoder β) (text : String) : Except DocumentError β :=
  let parsed := read text
  match parsed.root with
  | none => .error .malformed
  | some v =>
      match decoder v with
      | .error e => .error e
      | .ok x => if parsed.complete then .ok x else .error .malformed

/-- The data of a text that are complete enough to be checked, if there are
any. -/
def checkable (parts : Decoder π) (text : String) : Option π :=
  (read text).root.bind fun v => (parts v).toOption

end TransposedViews.Json
