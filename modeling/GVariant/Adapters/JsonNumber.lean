import GVariant.Json.Basic
import GVariant.Number.Text

/-
  The numbers of JSON texts.

  An integer that fits 64 bits, with or without a sign, is
  one; minus zero is not an integer. Any other number is the
  double nearest to its decimal, and none if it is beyond
  every double.

  This module stands for a package that reads JSON texts.
  The model does not use it and no result is about it; it
  serves programs that run the model on documents.

  Key definitions include:
    * `Json.Numeral`
    * `Json.Numeral.digits`
    * `Json.Numeral.decimal`
    * `Json.Numeral.value?`
-/

------------------------------------------------------------
-- Numerals
------------------------------------------------------------

namespace GVariant

namespace Json

/-
  The parts of a number: its sign, the digits before and
  behind the point, and the exponent. A part that is not
  written is absent.
-/
structure Numeral where
  negative : Bool
  whole : List Char
  fraction : Option (List Char)
  exponent : Option Int
  deriving DecidableEq, Repr

namespace Numeral

/- The most significant digits that are told apart. -/
def maxDigits : Nat :=
  768

/-
  The digits behind the point without zeros at their end.
-/
def fractionDigits (numeral : Numeral) : List Char :=
  let fraction := numeral.fraction.getD []
  (fraction.reverse.dropWhile (· = '0')).reverse

/- The digits from the first one other than zero on. -/
def digits (numeral : Numeral) : List Char :=
  (numeral.whole ++ numeral.fractionDigits).dropWhile
    (· = '0')

/-
  The number without its sign. Digits beyond the leading
  `maxDigits` count as a single one, also the zeros at the
  end of a whole number: a real halfway between two doubles
  has no more than `maxDigits` digits, so a number that goes
  on is taken to be above it.
-/
def decimal (numeral : Numeral) : Decimal :=
  let exponent :=
    numeral.exponent.getD 0 - numeral.fractionDigits.length
  let excess := numeral.digits.length - maxDigits
  if excess = 0 then
    ⟨GVariant.Numeral.value numeral.digits, exponent⟩
  else
    let kept := numeral.digits.take maxDigits ++ ['1']
    ⟨GVariant.Numeral.value kept, exponent + excess - 1⟩

/- The number as a double. -/
def double? (numeral : Numeral) : Option Double :=
  let x := Double.ofDecimal numeral.negative numeral.decimal
  if x.isFinite then some x else none

/- The number as an integer, if it is written as one. -/
def integer? (numeral : Numeral) : Option Int :=
  if numeral.fraction = none ∧ numeral.exponent = none then
    let n : Int := GVariant.Numeral.value numeral.whole
    if numeral.negative then
      if n ≠ 0 ∧ IntKind.InRange .int64 (-n) then
        some (-n)
      else
        none
    else if IntKind.InRange .uint64 n then
      some n
    else
      none
  else
    none

/- The tree of the number. -/
def value? (numeral : Numeral) : Option Json :=
  match numeral.integer? with
  | some n => some (.integer n)
  | none => numeral.double?.map Json.float

end Numeral

end Json

end GVariant
