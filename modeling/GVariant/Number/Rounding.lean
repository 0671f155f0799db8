import GVariant.Number.Double

/-
  Rounding of exact quotients to binary formats.

  A quotient of naturals is rounded to the nearest multiple
  of a power of two, a tie to the even multiple. The power
  is the one that leaves the precision of the format, but
  never less than the format's least unit. Every operation
  on doubles here is one exact quotient, rounded once.

  Key definitions include:
    * `roundQuotient`
    * `BinaryFormat`
    * `BinaryFormat.round`
    * `Double.ofRatio`
    * `Double.ofInt`
    * `Double.toSingle`
-/

------------------------------------------------------------
-- Rounding A Quotient
------------------------------------------------------------

namespace GVariant

/- The nearest integer to a quotient, a tie to even. -/
def roundQuotient (num den : Nat) : Nat :=
  let whole := num / den
  let rest := num % den
  if 2 * rest < den then
    whole
  else if den < 2 * rest then
    whole + 1
  else if whole % 2 = 0 then
    whole
  else
    whole + 1

/-
  The integer part of the binary logarithm of a positive
  quotient.
-/
def floorLog2Ratio (num den : Nat) : Int :=
  let guess : Int := (num.log2 : Int) - (den.log2 : Int)
  let reached : Bool :=
    den * power 2 guess ≤ num * power 2 (-guess)
  if reached then guess else guess - 1

/-
  A format with a number of significant bits and a least
  unit `2 ^ minExponent`.
-/
structure BinaryFormat where
  precision : Nat
  minExponent : Int

namespace BinaryFormat

/- The format of doubles. -/
def double : BinaryFormat :=
  ⟨53, -1074⟩

/- The format with half the width of doubles. -/
def single : BinaryFormat :=
  ⟨24, -149⟩

/-
  A positive quotient as a count of units and the exponent
  of the unit. The count has at most `precision` bits, or
  is the next power of two.
-/
def round
    (format : BinaryFormat)
    (num den : Nat) : Nat × Int :=
  let unit :=
    max
      (floorLog2Ratio num den - (format.precision - 1))
      format.minExponent
  (roundQuotient
      (num * power 2 (-unit))
      (den * power 2 unit),
    unit)

end BinaryFormat

end GVariant

------------------------------------------------------------
-- Operations On Doubles
------------------------------------------------------------

namespace GVariant

namespace Double

/-
  The double nearest to a quotient with a sign. The bits of
  consecutive magnitudes count upwards, so the count of
  units is added to the exponent field and a carry is right
  by itself.
-/
def ofRatio
    (negative : Bool)
    (num den : Nat) : Double :=
  if num = 0 then
    zero negative
  else
    let (units, unit) := BinaryFormat.double.round num den
    let magnitude := units + (unit + 1074).toNat * fractionCount
    if infinityMagnitude ≤ magnitude then
      infinity negative
    else
      ofSignAndMagnitude negative magnitude

/- The double nearest to `± n * 2 ^ exponent`. -/
def ofScaled
    (negative : Bool)
    (n : Nat)
    (exponent : Int) : Double :=
  ofRatio negative
    (n * power 2 exponent) (power 2 (-exponent))

/- The double nearest to an integer. -/
def ofInt (n : Int) : Double :=
  ofRatio (n < 0) n.natAbs 1

/-
  Rounding to a number of 32 bits. A NaN stays one: it
  becomes quiet and keeps its leading fraction bits.
-/
def toSingle (x : Double) : Double :=
  if x.isNaN then
    ofSignAndMagnitude x.isNegative
      (infinityMagnitude + fractionCount / 2 +
        x.fraction % (fractionCount / 2) / power 2 29 *
          power 2 29)
  else if x.isFinite && x.significand != 0 then
    let (units, unit) :=
      BinaryFormat.single.round
        (x.significand * power 2 x.exponent)
        (power 2 (-x.exponent))
    if power 2 128 ≤ units * power 2 unit then
      infinity x.isNegative
    else
      ofScaled x.isNegative units unit
  else
    x

end Double

end GVariant
