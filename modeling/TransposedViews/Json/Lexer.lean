import TransposedViews.Json.Numeral

/-!
The tokens of a text. What no token can be made of becomes a `malformed` token
and ends the list, so that everything before it is still seen.
-/

namespace TransposedViews.Json

inductive Token where
  | openArray
  | closeArray
  | openObject
  | closeObject
  | colon
  | comma
  | scalar (v : Value)
  | malformed

def isBlank (c : Char) : Bool := c == ' ' || c == '\n' || c == '\t' || c == '\r'

def isNumeralChar (c : Char) : Bool :=
  c.isDigit || c == '-' || c == '+' || c == '.' || c == 'e' || c == 'E'

/-- A character of a string, or one of the code units that an escape gives. -/
inductive Unit16 where
  | char (c : Char)
  | unit (n : Nat)

def hexValue? (c : Char) : Option Nat :=
  if c.isDigit then some (c.toNat - 48)
  else if 'a' ≤ c ∧ c ≤ 'f' then some (c.toNat - 87)
  else if 'A' ≤ c ∧ c ≤ 'F' then some (c.toNat - 55)
  else none

/-- Splits a text after its opening quote at the closing one. An escaped
character is skipped over, and control characters are not allowed. -/
def splitQuoted : List Char → Option (List Char × List Char)
  | [] => none
  | '"' :: rest => some ([], rest)
  | '\\' :: c :: rest => (splitQuoted rest).map fun (body, rest) => ('\\' :: c :: body, rest)
  | c :: rest =>
      if c.toNat < 32 then none
      else (splitQuoted rest).map fun (body, rest) => (c :: body, rest)

/-- Replaces the escapes of a string body, unless one is malformed. -/
def unescape? : List Char → Option (List Unit16)
  | [] => some []
  | '\\' :: 'u' :: a :: b :: c :: d :: rest => do
      let a ← hexValue? a
      let b ← hexValue? b
      let c ← hexValue? c
      let d ← hexValue? d
      let units ← unescape? rest
      return .unit (((a * 16 + b) * 16 + c) * 16 + d) :: units
  | '\\' :: c :: rest => do
      let char ←
        match c with
        | '"' => some '"'
        | '\\' => some '\\'
        | '/' => some '/'
        | 'b' => some '\x08'
        | 'f' => some '\x0c'
        | 'n' => some '\n'
        | 'r' => some '\r'
        | 't' => some '\t'
        | _ => none
      let units ← unescape? rest
      return .char char :: units
  | ['\\'] => none
  | c :: rest => (unescape? rest).map (.char c :: ·)

def isHighSurrogate (n : Nat) : Bool := 0xD800 ≤ n && n < 0xDC00

def isLowSurrogate (n : Nat) : Bool := 0xDC00 ≤ n && n < 0xE000

/-- Joins surrogate pairs, if none stands alone. -/
def pairUnits? : List Unit16 → Option (List Char)
  | [] => some []
  | .char c :: units => (pairUnits? units).map (c :: ·)
  | .unit high :: .unit low :: units =>
      if isHighSurrogate high && isLowSurrogate low then
        (pairUnits? units).map
          (.ofNat (0x10000 + (high - 0xD800) * 0x400 + (low - 0xDC00)) :: ·)
      else if isHighSurrogate high || isLowSurrogate high then none
      else (pairUnits? (.unit low :: units)).map (.ofNat high :: ·)
  | .unit n :: units =>
      if isHighSurrogate n || isLowSurrogate n then none
      else (pairUnits? units).map (.ofNat n :: ·)

/-- The string that a body between quotes stands for. -/
def bodyText? (body : List Char) : Option Text :=
  (unescape? body).map fun units => (pairUnits? units).map String.ofList

theorem length_lt_of_splitQuoted {cs body rest : List Char}
    (h : splitQuoted cs = some (body, rest)) : rest.length < cs.length := by
  fun_induction splitQuoted cs generalizing body rest with
  | case1 => simp at h
  | case2 => simp at h; simp [h.2]
  | case3 c cs ih =>
      obtain ⟨⟨_, _⟩, hs, he⟩ := Option.map_eq_some_iff.1 h
      cases he
      have := ih hs
      simp only [List.length_cons]
      omega
  | case4 => simp at h
  | case5 c cs _ _ _ ih =>
      obtain ⟨⟨_, _⟩, hs, he⟩ := Option.map_eq_some_iff.1 h
      cases he
      have := ih hs
      simp only [List.length_cons]
      omega

theorem length_dropWhile_lt (p : Char → Bool) (c : Char) (cs : List Char) :
    (cs.dropWhile p).length < (c :: cs).length :=
  Nat.lt_succ_of_le (List.dropWhile_suffix p).length_le

/-- The word that a run of letters is. -/
def word? (letters : List Char) : Option Value :=
  if letters = "null".toList then some .null
  else if letters = "true".toList then some (.bool true)
  else if letters = "false".toList then some (.bool false)
  else none

def punctuation? : Char → Option Token
  | '[' => some .openArray
  | ']' => some .closeArray
  | '\x7b' => some .openObject
  | '\x7d' => some .closeObject
  | ':' => some .colon
  | ',' => some .comma
  | _ => none

/-- The tokens of a text. Runs of numeral characters and of letters are taken
as long as they last and then have to be a numeral or a word. -/
def tokens : List Char → List Token
  | [] => []
  | c :: cs =>
      if isBlank c then tokens cs
      else if c = '"' then
        match h : splitQuoted cs with
        | none => [.malformed]
        | some (body, rest) =>
            have : rest.length < cs.length := length_lt_of_splitQuoted h
            match bodyText? body with
            | none => [.malformed]
            | some text => .scalar (.string text) :: tokens rest
      else if c = '-' || c.isDigit then
        have := length_dropWhile_lt isNumeralChar c cs
        match Numeral.ofChars? (c :: cs.takeWhile isNumeralChar) with
        | none => [.malformed]
        | some n => .scalar (.number n.toNumber) :: tokens (cs.dropWhile isNumeralChar)
      else if c.isAlpha then
        have := length_dropWhile_lt Char.isAlpha c cs
        match word? (c :: cs.takeWhile Char.isAlpha) with
        | none => [.malformed]
        | some v => .scalar v :: tokens (cs.dropWhile Char.isAlpha)
      else
        match punctuation? c with
        | none => [.malformed]
        | some t => t :: tokens cs
termination_by cs => cs.length
decreasing_by
  all_goals
    simp only [List.length_cons] at *
    omega

end TransposedViews.Json
