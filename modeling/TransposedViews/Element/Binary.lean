/-!
Binary floating-point numbers as bit patterns. A format says how many bits
hold the fraction and how many the exponent; the magnitude of a number is its
pattern without the sign bit. All arithmetic is exact on ratios of natural
numbers and is rounded once, to nearest with ties to the even pattern.
-/

namespace TransposedViews

structure BinaryFormat where
  fractionBits : Nat
  exponentBits : Nat
  deriving DecidableEq, Repr

/-- The quotient `num / den` rounded to the nearest natural number, a half
going to the even neighbour. -/
def roundHalfEven (num den : Nat) : Nat :=
  let quotient := num / den
  let twice := 2 * (num % den)
  if twice < den then quotient
  else if den < twice then quotient + 1
  else quotient + quotient % 2

namespace BinaryFormat

def single : BinaryFormat := ⟨23, 8⟩

def double : BinaryFormat := ⟨52, 11⟩

/-- The weight of the sign bit, which is also the number of magnitudes. -/
def signWeight (f : BinaryFormat) : Nat := 1 <<< (f.fractionBits + f.exponentBits)

/-- The magnitude of the infinities. Larger ones belong to no number. -/
def infinity (f : BinaryFormat) : Nat := ((1 <<< f.exponentBits) - 1) <<< f.fractionBits

/-- The pattern that stands for every result that is no number. -/
def quietNaN (f : BinaryFormat) : Nat := f.infinity + (1 <<< (f.fractionBits - 1))

/-- The smallest positive number is two to this power, and every finite
number is a multiple of it. -/
def leastExponent (f : BinaryFormat) : Int :=
  2 - ((1 <<< (f.exponentBits - 1) : Nat) : Int) - f.fractionBits

/-- A finite magnitude as `(m, k)`, standing for `m` units of weight
`2 ^ (k + leastExponent)`. -/
def units (f : BinaryFormat) (magnitude : Nat) : Nat × Nat :=
  let fraction := magnitude % (1 <<< f.fractionBits)
  match magnitude >>> f.fractionBits with
  | 0 => (fraction, 0)
  | k + 1 => (fraction + (1 <<< f.fractionBits), k)

/-- The value `m * 2 ^ e` as a numerator and a denominator. -/
def scaledRatio (m : Nat) (e : Int) : Nat × Nat :=
  match e with
  | .ofNat n => (m <<< n, 1)
  | .negSucc n => (m, 1 <<< (n + 1))

/-- The value of a finite magnitude, as a numerator and a denominator. -/
def ratio (f : BinaryFormat) (magnitude : Nat) : Nat × Nat :=
  let (m, k) := f.units magnitude
  scaledRatio m (k + f.leastExponent)

/-- `num / den` counted in units of weight `2 ^ (k + leastExponent)`, as a
numerator and a denominator. -/
def inUnits (f : BinaryFormat) (num den k : Nat) : Nat × Nat :=
  match k + f.leastExponent with
  | .ofNat n => (num, den <<< n)
  | .negSucc n => (num <<< (n + 1), den)

/-- The magnitude nearest to `num / den`. The unit is the one that leaves one
bit more than the fraction has, or the smallest of all where the number is too
small for that; a carry out of the fraction moves the exponent on by itself. -/
def roundRatio (f : BinaryFormat) (num den : Nat) : Nat :=
  if num = 0 then 0
  else
    let estimate : Int := (Nat.log2 num : Int) - Nat.log2 den - f.fractionBits - f.leastExponent
    let high := estimate.toNat
    let (n, d) := f.inUnits num den high
    let k := if n / d < (1 <<< f.fractionBits) then high - 1 else high
    let (n, d) := f.inUnits num den k
    min ((k <<< f.fractionBits) + roundHalfEven n d) f.infinity

def ofNat (f : BinaryFormat) (n : Nat) : Nat := f.roundRatio n 1

/-- The rounded product of two finite magnitudes. -/
def mul (f : BinaryFormat) (a b : Nat) : Nat :=
  let (na, da) := f.ratio a
  let (nb, db) := f.ratio b
  f.roundRatio (na * nb) (da * db)

/-- The rounded quotient of two finite magnitudes, the second not zero. -/
def div (f : BinaryFormat) (a b : Nat) : Nat :=
  let (na, da) := f.ratio a
  let (nb, db) := f.ratio b
  f.roundRatio (na * db) (da * nb)

/-- Whether a whole pattern has the sign bit set. -/
def isNegative (f : BinaryFormat) (bits : Nat) : Bool := f.signWeight ≤ bits

/-- A whole pattern without its sign bit. -/
def magnitude (f : BinaryFormat) (bits : Nat) : Nat := bits % f.signWeight

def isNaN (f : BinaryFormat) (bits : Nat) : Bool := f.infinity < f.magnitude bits

def isFinite (f : BinaryFormat) (bits : Nat) : Bool := f.magnitude bits < f.infinity

/-- A whole pattern from a sign and a magnitude. -/
def signed (f : BinaryFormat) (negative : Bool) (magnitude : Nat) : Nat :=
  if negative then f.signWeight + magnitude else magnitude

/-- The comparison that numbers use: a result that is no number equals
nothing, and the two zeros are equal. -/
def numericEq (f : BinaryFormat) (a b : Nat) : Bool :=
  !f.isNaN a && !f.isNaN b && (a == b || (f.magnitude a == 0 && f.magnitude b == 0))

/-- The pattern in format `g` nearest to a pattern in format `f`. -/
def convert (f g : BinaryFormat) (bits : Nat) : Nat :=
  if f.isNaN bits then g.quietNaN
  else if f.isFinite bits then
    let (n, d) := f.ratio (f.magnitude bits)
    g.signed (f.isNegative bits) (g.roundRatio n d)
  else g.signed (f.isNegative bits) g.infinity

end BinaryFormat

/-- A single precision number, known by its bits. -/
structure Binary32 where
  bits : UInt32
  deriving Repr

/-- A double precision number, known by its bits. -/
structure Binary64 where
  bits : UInt64
  deriving Repr

instance : BEq Binary32 where
  beq a b := BinaryFormat.single.numericEq a.bits.toNat b.bits.toNat

instance : BEq Binary64 where
  beq a b := BinaryFormat.double.numericEq a.bits.toNat b.bits.toNat

namespace Binary32

def ofPattern (pattern : Nat) : Binary32 := ⟨pattern.toUInt32⟩

def isNaN (x : Binary32) : Bool := BinaryFormat.single.isNaN x.bits.toNat

/-- The nearest single precision number to an integer. -/
def ofInt (n : Int) : Binary32 :=
  ofPattern (BinaryFormat.single.signed (n < 0) (BinaryFormat.single.ofNat n.natAbs))

/-- The same number in double precision, which holds it exactly. -/
def widen (x : Binary32) : Binary64 :=
  ⟨(BinaryFormat.single.convert BinaryFormat.double x.bits.toNat).toUInt64⟩

end Binary32

namespace Binary64

def ofPattern (pattern : Nat) : Binary64 := ⟨pattern.toUInt64⟩

def isNaN (x : Binary64) : Bool := BinaryFormat.double.isNaN x.bits.toNat

def isFinite (x : Binary64) : Bool := BinaryFormat.double.isFinite x.bits.toNat

/-- The nearest double precision number to an integer. -/
def ofInt (n : Int) : Binary64 :=
  ofPattern (BinaryFormat.double.signed (n < 0) (BinaryFormat.double.ofNat n.natAbs))

/-- The nearest single precision number. -/
def narrow (x : Binary64) : Binary32 :=
  ⟨(BinaryFormat.double.convert BinaryFormat.single x.bits.toNat).toUInt32⟩

end Binary64

end TransposedViews
