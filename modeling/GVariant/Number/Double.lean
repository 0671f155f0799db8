import GVariant.Number.Power

/-
  Doubles as 64 bits, and the exact numbers they denote.

  A finite double is `± significand * 2 ^ exponent` with
  natural significand and integer exponent. Two doubles are
  equal here when their bits are; `Double.agrees` is the
  comparison of numbers, for which the zeros agree and a
  NaN agrees with nothing.

  Key definitions include:
    * `Double`
    * `Double.significand`
    * `Double.exponent`
    * `Double.agrees`
-/

------------------------------------------------------------
-- Bits
------------------------------------------------------------

namespace GVariant

/- A floating point number of 64 bits. -/
structure Double where
  bits : UInt64
  deriving DecidableEq, Repr, Inhabited

namespace Double

/- The weight of the sign bit. -/
def signWeight : Nat :=
  0x8000000000000000

/-
  The number of fractions, which is the weight of the
  leading bit in front of a fraction.
-/
def fractionCount : Nat :=
  0x10000000000000

/- Whether the sign bit is set. -/
def isNegative (x : Double) : Bool :=
  x.bits.toNat / signWeight == 1

/- The eleven bits of the biased exponent. -/
def exponentField (x : Double) : Nat :=
  x.bits.toNat / fractionCount % 2048

/- The 52 bits of the fraction. -/
def fraction (x : Double) : Nat :=
  x.bits.toNat % fractionCount

/- Whether the value is a number other than infinity. -/
def isFinite (x : Double) : Bool :=
  x.exponentField != 2047

/- Whether the value is not a number. -/
def isNaN (x : Double) : Bool :=
  x.exponentField == 2047 && x.fraction != 0

/- The significand of a finite double, as a natural. -/
def significand (x : Double) : Nat :=
  if x.exponentField = 0 then
    x.fraction
  else
    fractionCount + x.fraction

/- The exponent that goes with `significand`. -/
def exponent (x : Double) : Int :=
  if x.exponentField = 0 then
    -1074
  else
    (x.exponentField : Int) - 1075

/-
  The double of a sign and the remaining 63 bits, read as a
  natural number.
-/
def ofSignAndMagnitude
    (negative : Bool)
    (magnitude : Nat) : Double :=
  ⟨UInt64.ofNat
    ((if negative then signWeight else 0) + magnitude)⟩

/- The magnitude of the infinities. -/
def infinityMagnitude : Nat :=
  2047 * fractionCount

/- The zero of a sign. -/
def zero (negative : Bool) : Double :=
  ofSignAndMagnitude negative 0

/- The infinity of a sign. -/
def infinity (negative : Bool) : Double :=
  ofSignAndMagnitude negative infinityMagnitude

/- The usual NaN, with a sign. -/
def nan (negative : Bool) : Double :=
  ofSignAndMagnitude negative
    (infinityMagnitude + fractionCount / 2)

end Double

end GVariant

------------------------------------------------------------
-- Equality
------------------------------------------------------------

namespace GVariant

namespace Double

/-
  Equality of numbers: the zeros agree, and a NaN agrees
  with no double.
-/
def agrees (x y : Double) : Bool :=
  !x.isNaN && !y.isNaN &&
    (x.bits == y.bits ||
      (x.significand == 0 && y.significand == 0))

end Double

end GVariant
