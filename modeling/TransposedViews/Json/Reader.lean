import TransposedViews.Json.Lexer

/-!
Trees from tokens. The containers that were begun and not yet ended are kept
on a stack, so that at the first token that does not belong they can be handed
over as far as they go.
-/

namespace TransposedViews.Json

/-- A container in progress, latest part first. A `member` is an object whose
last member has a name and no value yet. -/
inductive Frame where
  | array (items : List Value)
  | object (members : List (Text × Value))
  | member (members : List (Text × Value)) (name : Text)

/-- What may follow. -/
inductive Expected where
  | value
  | valueOrEnd
  | name
  | nameOrEnd
  | colon
  | separator

/-- A text read as a document: what it says, and whether it says nothing
else. -/
structure Parsed where
  root : Option Value
  complete : Bool

/-- Leaves all containers in progress unclosed. -/
def abandon : Option Value → List Frame → Option Value
  | inner, [] => inner
  | inner, .array items :: stack =>
      abandon (some (.array (inner.toList ++ items).reverse false)) stack
  | _, .object members :: stack => abandon (some (.object members.reverse false)) stack
  | inner, .member members name :: stack =>
      abandon (some (.object ((inner.map fun v => (name, v)).toList ++ members).reverse false)) stack

/-- Puts a value where it belongs in the innermost container. -/
def attach (v : Value) : List Frame → List Frame
  | .array items :: stack => .array (v :: items) :: stack
  | .member members name :: stack => .object ((name, v) :: members) :: stack
  | stack => stack

/-- What a token does to the containers in progress. -/
inductive Move where
  | go (expected : Expected) (stack : List Frame)
  | finish (v : Value) (stack : List Frame)
  | refuse

def move : Expected → List Frame → Token → Move
  | .value, stack, .scalar v | .valueOrEnd, stack, .scalar v => .finish v stack
  | .value, stack, .openArray | .valueOrEnd, stack, .openArray =>
      .go .valueOrEnd (.array [] :: stack)
  | .value, stack, .openObject | .valueOrEnd, stack, .openObject =>
      .go .nameOrEnd (.object [] :: stack)
  | .valueOrEnd, .array items :: stack, .closeArray
  | .separator, .array items :: stack, .closeArray => .finish (.array items.reverse true) stack
  | .nameOrEnd, .object members :: stack, .closeObject
  | .separator, .object members :: stack, .closeObject =>
      .finish (.object members.reverse true) stack
  | .name, .object members :: stack, .scalar (.string name)
  | .nameOrEnd, .object members :: stack, .scalar (.string name) =>
      .go .colon (.member members name :: stack)
  | .colon, stack, .colon => .go .value stack
  | .separator, .array items :: stack, .comma => .go .value (.array items :: stack)
  | .separator, .object members :: stack, .comma => .go .name (.object members :: stack)
  | _, _, _ => .refuse

/-- Reads tokens up to the end of the document or the first one that does not
belong. -/
def readTokens : List Token → Expected → List Frame → Parsed
  | [], _, stack => ⟨abandon none stack, false⟩
  | token :: rest, expected, stack =>
      match move expected stack token with
      | .go expected stack => readTokens rest expected stack
      | .finish v [] => ⟨some v, rest.isEmpty⟩
      | .finish v stack => readTokens rest .separator (attach v stack)
      | .refuse => ⟨abandon none stack, false⟩

def read (text : String) : Parsed := readTokens (tokens text.toList) .value []

end TransposedViews.Json
