import TransposedViews.Element.Binary

/-!
Decimal numerals read as double precision numbers. The significand is kept in
one machine word and is scaled by one rounded power of ten, so a numeral of
many digits may end one unit away from the nearest double. Powers beyond the
last one that has a double are applied in several steps.
-/

namespace TransposedViews

/-- The largest power of ten that a double can hold. -/
def maxPowerOfTen : Nat := 308

/-- The double nearest to a power of ten. -/
def powerOfTen (e : Nat) : Nat := BinaryFormat.double.ofNat (Nat.pow 10 e)

/-- Multiplies a finite magnitude by a power of ten. An infinite result says
that the product is out of range. -/
def scaleByTen (magnitude : Nat) (exponent : Int) : Nat :=
  if exponent.natAbs ≤ maxPowerOfTen then
    if 0 ≤ exponent then BinaryFormat.double.mul magnitude (powerOfTen exponent.natAbs)
    else BinaryFormat.double.div magnitude (powerOfTen exponent.natAbs)
  else if magnitude = 0 then 0
  else if 0 ≤ exponent then BinaryFormat.double.infinity
  else
    scaleByTen (BinaryFormat.double.div magnitude (powerOfTen maxPowerOfTen))
      (exponent + maxPowerOfTen)
termination_by exponent.natAbs
decreasing_by simp only [maxPowerOfTen] at *; omega

/-- The double that stands for `± significand * 10 ^ exponent`. -/
def Binary64.ofDecimal (negative : Bool) (significand : Nat) (exponent : Int) : Binary64 :=
  ofPattern (BinaryFormat.double.signed negative
    (scaleByTen (BinaryFormat.double.ofNat significand) exponent))

end TransposedViews
