import GVariant.Number.Double
import GVariant.TypeClass

/-
  Doubles beside integers: comparing doubles, telling those
  without a fractional part, and casting them.

  A double is the quotient of an integer and a power of two,
  so a comparison of doubles is one of integers. The fields
  of an infinity are those of a number beyond every finite
  one, which is how infinities compare. A cast to an integer
  kind drops the fraction and goes to the nearest integer of
  the kind, if the number is out of its range.

  Key definitions include:
    * `Double.numerator`
    * `Double.denominator`
    * `Double.isWhole`
    * `Double.less`
    * `Double.lessEq`
    * `Double.cast`
-/

------------------------------------------------------------
-- Quotients
------------------------------------------------------------

namespace GVariant

namespace Double

/- The integer above the power of two. -/
def numerator (x : Double) : Int :=
  let magnitude : Int :=
    (x.significand * power 2 x.exponent : Nat)
  if x.isNegative then -magnitude else magnitude

/- The power of two below the integer. -/
def denominator (x : Double) : Nat :=
  power 2 (-x.exponent)

/- Whether a finite double has no fractional part. -/
def isWhole (x : Double) : Bool :=
  x.isFinite && x.numerator % x.denominator == 0

end Double

end GVariant

------------------------------------------------------------
-- Order
------------------------------------------------------------

namespace GVariant

namespace Double

/- Whether a number is less than another; a NaN is not. -/
def less (x y : Double) : Bool :=
  !x.isNaN && !y.isNaN &&
    x.numerator * y.denominator < y.numerator * x.denominator

/- Whether a number is at most another; a NaN is not. -/
def lessEq (x y : Double) : Bool :=
  !x.isNaN && !y.isNaN &&
    x.numerator * y.denominator ≤ y.numerator * x.denominator

end Double

end GVariant

------------------------------------------------------------
-- Casts
------------------------------------------------------------

namespace GVariant

namespace Double

/- The integer part of a double. -/
def truncate (x : Double) : Int :=
  x.numerator.tdiv x.denominator

/-
  The integer of a kind that is nearest to the integer part,
  and zero for a NaN.
-/
def cast (kind : IntKind) (x : Double) : Int :=
  if x.isNaN then
    0
  else
    max kind.minValue (min kind.maxValue x.truncate)

end Double

end GVariant
