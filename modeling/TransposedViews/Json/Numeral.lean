import TransposedViews.Element.Decimal
import TransposedViews.Json.Value
import TransposedViews.Validation

/-!
Numerals of documents. Digits are collected into one machine word; those that
no longer fit count as zeros before the decimal point and are ignored after
it.
-/

namespace TransposedViews.Json

/-- A numeral taken apart into its digits. The exponent counts as zero where
none is written; `scientific` says whether one is. -/
structure Numeral where
  negative : Bool
  whole : List Nat
  fraction : List Nat
  exponent : Int
  scientific : Bool

namespace Numeral

def digitValue (c : Char) : Nat := c.toNat - 48

def digits (cs : List Char) : List Nat := (cs.takeWhile Char.isDigit).map digitValue

def ofDigits (ds : List Nat) : Nat := ds.foldl (fun n d => 10 * n + d) 0

/-- The digits before the point: at least one, and no zero before another. -/
def whole? (cs : List Char) : Option (List Nat × List Char) :=
  match digits cs with
  | [] => none
  | 0 :: _ :: _ => none
  | ds => some (ds, cs.dropWhile Char.isDigit)

/-- The digits after a point, of which there is at least one, or none where
there is no point. -/
def fraction? : List Char → Option (List Nat × List Char)
  | '.' :: cs =>
      match digits cs with
      | [] => none
      | ds => some (ds, cs.dropWhile Char.isDigit)
  | cs => some ([], cs)

/-- The digits of an exponent, of which there is at least one, up to the end
of the numeral. -/
def exponentDigits? (cs : List Char) : Option Nat :=
  if cs.isEmpty || !cs.all Char.isDigit then none else some (ofDigits (digits cs))

/-- The exponent, up to the end of the numeral. -/
def exponent? : List Char → Option (Int × Bool)
  | [] => some (0, false)
  | e :: cs =>
      if e = 'e' ∨ e = 'E' then
        match cs with
        | '-' :: cs => (exponentDigits? cs).map fun n => (-(n : Int), true)
        | '+' :: cs => (exponentDigits? cs).map fun n => ((n : Int), true)
        | cs => (exponentDigits? cs).map fun n => ((n : Int), true)
      else none

def ofChars? (cs : List Char) : Option Numeral := do
  let (negative, cs) :=
    match cs with
    | '-' :: cs => (true, cs)
    | cs => (false, cs)
  let (whole, cs) ← whole? cs
  let (fraction, cs) ← fraction? cs
  let (exponent, scientific) ← exponent? cs
  return {negative, whole, fraction, exponent, scientific}

/-- Appends digits to a significand until the next one would not fit, and
returns the digits left over. -/
def absorb : List Nat → Nat → Nat × List Nat
  | [], significand => (significand, [])
  | d :: ds, significand =>
      if 10 * significand + d < wordLimit then absorb ds (10 * significand + d)
      else (significand, d :: ds)

/-- The number that a numeral stands for. An integer that no machine word
holds, and a negative zero, are doubles. -/
def toNumber (n : Numeral) : Number :=
  let (significand, excess) := absorb n.whole 0
  if n.fraction.isEmpty && !n.scientific && excess.isEmpty &&
      (!n.negative || (0 < significand && significand ≤ 9223372036854775808)) then
    .integer (if n.negative then -(significand : Int) else significand)
  else
    let (significand, ignored) := absorb n.fraction significand
    let shift : Int := excess.length - (n.fraction.length - ignored.length : Nat)
    .real (.ofDecimal n.negative significand (shift + n.exponent))

end Numeral

end TransposedViews.Json
