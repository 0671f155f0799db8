import GVariant.Number.Rounding

/-
  Decimals, and the shortest one that reads back.

  The reals that round to a double form an interval: from
  halfway to the neighbour below to halfway to the neighbour
  above, ends included exactly when the significand is even.
  Below a power of two the neighbour is half as far. Of the
  decimals in the interval the one with the fewest digits is
  taken, of those the nearest, and of two equally near the
  larger.

  Key definitions include:
    * `Decimal`
    * `Double.ofDecimal`
    * `Double.readsBack`
    * `Double.shortest`
-/

------------------------------------------------------------
-- Decimals
------------------------------------------------------------

namespace GVariant

/- The number `digits * 10 ^ exponent`. -/
structure Decimal where
  digits : Nat
  exponent : Int
  deriving DecidableEq, Repr

namespace Decimal

/- Comparison with `n * 2 ^ exponent`, exactly. -/
def compareScaled
    (d : Decimal)
    (n : Nat)
    (exponent : Int) : Ordering :=
  compare
    (d.digits * power 10 d.exponent * power 2 (-exponent))
    (n * power 2 exponent * power 10 (-d.exponent))

/- The same number without trailing zeros in `digits`. -/
def trim (d : Decimal) : Decimal :=
  if d.digits ≠ 0 ∧ d.digits % 10 = 0 then
    trim ⟨d.digits / 10, d.exponent + 1⟩
  else
    d
termination_by d.digits
decreasing_by
  exact Nat.div_lt_self (by omega) (by omega)

end Decimal

namespace Double

/-
  The double nearest to a decimal with a sign. Exponents
  beyond every double are decided without computing the
  power: a decimal has at most as many digits as bits.
-/
def ofDecimal
    (negative : Bool)
    (d : Decimal) : Double :=
  if d.digits = 0 then
    zero negative
  else if 400 < d.exponent then
    infinity negative
  else if (d.digits.log2 : Int) + 1200 < -3 * d.exponent then
    zero negative
  else
    ofRatio negative
      (d.digits * power 10 d.exponent)
      (power 10 (-d.exponent))

end Double

end GVariant

------------------------------------------------------------
-- Shortest Decimals
------------------------------------------------------------

namespace GVariant

namespace Double

/- Whether the gap below is half the gap above. -/
def narrowBelow (x : Double) : Bool :=
  x.fraction == 0 && 1 < x.exponentField

/-
  Whether a decimal lies in the interval of the reals that
  round to the magnitude of a finite double.
-/
def readsBack (x : Double) (d : Decimal) : Bool :=
  let low :=
    4 * x.significand - (if x.narrowBelow then 1 else 2)
  let high := 4 * x.significand + 2
  let closed := x.significand % 2 == 0
  let atLow := d.compareScaled low (x.exponent - 2)
  let atHigh := d.compareScaled high (x.exponent - 2)
  (atLow == .gt || (closed && atLow == .eq)) &&
    (atHigh == .lt || (closed && atHigh == .eq))

/-
  The least `k` such that the magnitude is below `10 ^ k`.
  The binary logarithm gives it up to two steps.
-/
def decimalScale (x : Double) : Int :=
  let log := (x.significand.log2 : Int) + x.exponent
  let guess := Int.fdiv (log * 30103) 100000
  let below (k : Int) : Bool :=
    Decimal.compareScaled ⟨1, k⟩
      x.significand x.exponent == .gt
  if below guess then
    guess
  else if below (guess + 1) then
    guess + 1
  else
    guess + 2

/- The integer part of the magnitude over `10 ^ exponent`. -/
def floorOnGrid (x : Double) (exponent : Int) : Nat :=
  x.significand * power 2 x.exponent *
      power 10 (-exponent) /
    (power 2 (-x.exponent) * power 10 exponent)

/-
  The decimal on the grid `10 ^ exponent` that reads back:
  one of the two neighbours of the magnitude, the nearer if
  both do, and the upper one at a tie.
-/
def onGrid? (x : Double) (exponent : Int) :
    Option Decimal :=
  let floor := x.floorOnGrid exponent
  let lower : Decimal := ⟨floor, exponent⟩
  let upper : Decimal := ⟨floor + 1, exponent⟩
  match x.readsBack lower, x.readsBack upper with
  | true, true =>
      let middle : Decimal := ⟨2 * floor + 1, exponent⟩
      if middle.compareScaled
          (2 * x.significand) x.exponent == .gt then
        some lower
      else
        some upper
  | true, false => some lower
  | false, true => some upper
  | false, false => none

/- The magnitude of a finite double as a decimal. -/
def exactDecimal (x : Double) : Decimal :=
  if 0 ≤ x.exponent then
    ⟨x.significand * power 2 x.exponent, 0⟩
  else
    ⟨x.significand * power 5 (-x.exponent), x.exponent⟩

/-
  The shortest decimal that reads back as the magnitude of
  a finite double other than zero. Seventeen digits are
  enough for every double.
-/
def shortest (x : Double) : Decimal :=
  let scale := x.decimalScale
  let found? :=
    (List.range 17).findSome? fun n =>
      x.onGrid? (scale - (n + 1 : Nat))
  (found?.getD x.exactDecimal).trim

end Double

end GVariant
