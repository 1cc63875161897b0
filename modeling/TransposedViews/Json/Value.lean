import TransposedViews.Element.Binary

/-!
Documents as trees. A tree records what a text says up to its first syntax
error: a list or an object that the text does not finish is kept with the
complete parts it has and is marked as unclosed. A finished document has no
such mark, and only finished ones are built in memory.
-/

namespace TransposedViews.Json

/-- A number of a document. One written without fraction and exponent is an
integer if a machine word holds it; every other one is a double, and an
infinite double stands for a number that is out of range. -/
inductive Number where
  | integer (n : Int)
  | real (x : Binary64)

/-- A string of a document. It has no text if it spells half of a surrogate
pair. -/
abbrev Text := Option String

inductive Value where
  | null
  | bool (b : Bool)
  | number (n : Number)
  | string (text : Text)
  | array (items : List Value) (closed : Bool)
  | object (members : List (Text × Value)) (closed : Bool)

namespace Value

def ofNat (n : Nat) : Value := .number (.integer n)

def ofString (text : String) : Value := .string (some text)

def list (items : List Value) : Value := .array items true

def record (fields : List (String × Value)) : Value :=
  .object (fields.map fun (name, v) => (some name, v)) true

end Value

def hexDigit (n : Nat) : Char := if n < 10 then .ofNat (48 + n) else .ofNat (87 + n)

/-- One character inside a quoted string. -/
def escape (c : Char) : String :=
  match c with
  | '"' => "\\\""
  | '\\' => "\\\\"
  | '\x08' => "\\b"
  | '\x0c' => "\\f"
  | '\n' => "\\n"
  | '\r' => "\\r"
  | '\t' => "\\t"
  | c =>
      if c.toNat < 32 then
        "\\u00" ++ String.ofList [hexDigit (c.toNat / 16), hexDigit (c.toNat % 16)]
      else c.toString

/-- A quoted string. Half of a surrogate pair stands for one without text. -/
def quote : Text → String
  | some text => "\"" ++ String.join (text.toList.map escape) ++ "\""
  | none => "\"\\ud800\""

mutual

/-- The compact text of a document, if it has no doubles. Fields keep their
order, and what is unclosed is written without its end. -/
def Value.text? : Value → Option String
  | .null => some "null"
  | .bool b => some (if b then "true" else "false")
  | .number (.integer n) => some (toString n)
  | .number (.real _) => none
  | .string text => some (quote text)
  | .array items closed =>
      (itemTexts? items).map fun texts =>
        "[" ++ ",".intercalate texts ++ (if closed then "]" else "")
  | .object members closed =>
      (memberTexts? members).map fun texts =>
        "\x7b" ++ ",".intercalate texts ++ (if closed then "\x7d" else "")

def itemTexts? : List Value → Option (List String)
  | [] => some []
  | v :: items => do
      let text ← v.text?
      let texts ← itemTexts? items
      return text :: texts

def memberTexts? : List (Text × Value) → Option (List String)
  | [] => some []
  | member :: members => do
      let text ← memberText? member
      let texts ← memberTexts? members
      return text :: texts

def memberText? : Text × Value → Option String
  | (name, v) => do
      let text ← v.text?
      return quote name ++ ":" ++ text

end

end TransposedViews.Json
