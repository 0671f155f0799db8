import GVariant.Number.Integral
import GVariant.Value.Text

/-
  Host values as scalars, and scalars as keys.

  An integer is taken from any value that denotes exactly
  that integer, a double without fractional part included,
  if it lies in the range asked for. Keys of maps are texts;
  a scalar is written as one and read back by its type.

  Key definitions include:
    * `Value.toInteger`
    * `Value.packBasic`
    * `Value.parseKey`
    * `Scalar.toValue`
    * `Scalar.keyText`
-/

------------------------------------------------------------
-- Conversions
------------------------------------------------------------

namespace GVariant

namespace Value

/- The failure of a number to lie in the range of a kind. -/
def outOfRange (value : Value) (kind : IntKind) : Error :=
  .outOfRange value.toText kind.char

/- The boolean that a value must be. -/
def toBool (value : Value) : Except Error Bool :=
  match value with
  | .bool b => .ok b
  | _ => .error (value.mismatch "a boolean")

/- An integer of a value, if it is in the range of a kind. -/
def takeInteger
    (value : Value)
    (kind : IntKind)
    (n : Int) : Except Error Int :=
  if kind.InRange n then
    .ok n
  else
    .error (value.outOfRange kind)

theorem takeInteger_eq_ok_iff
    {value : Value}
    {kind : IntKind}
    {n m : Int} :
    value.takeInteger kind n = .ok m ↔
      kind.InRange n ∧ m = n := by
  unfold takeInteger
  split <;> simp_all [eq_comm]

theorem takeInteger_eq_error_iff
    {value : Value}
    {kind : IntKind}
    {n : Int}
    {e : Error} :
    value.takeInteger kind n = .error e ↔
      ¬ kind.InRange n ∧ e = value.outOfRange kind := by
  unfold takeInteger
  split <;> simp_all [eq_comm]

/-
  The integer of a kind that a value must denote. A double
  is first cast to 64 bits: with a sign if it is below the
  greatest such integer, and otherwise without one, by the
  same rule. As a double the greatest integer is rounded up.
-/
def toInteger
    (value : Value)
    (kind : IntKind) : Except Error Int :=
  match value with
  | .int n => value.takeInteger kind n.toInt
  | .uint n => value.takeInteger kind n.toNat
  | .double x =>
      if x.isWhole then
        if (Double.ofInt (IntKind.minValue .int64)).lessEq x ∧
            x.less
              (Double.ofInt (IntKind.maxValue .int64)) then
          value.takeInteger kind (x.cast .int64)
        else if (Double.zero false).lessEq x ∧
            x.less
              (Double.ofInt (IntKind.maxValue .uint64)) then
          value.takeInteger kind (x.cast .uint64)
        else
          .error (value.outOfRange kind)
      else
        .error (value.outOfRange kind)
  | _ => .error (value.mismatch "an integer")

/- The number that a value must be, as a double. -/
def toDouble (value : Value) : Except Error Double :=
  match value.double? with
  | some x => .ok x
  | none => .error (value.mismatch "a number")

/- The string that a value must be. -/
def toString (value : Value) : Except Error String :=
  match value with
  | .string text => .ok text
  | _ => .error (value.mismatch "a string")

/- The items of the array that a value must be. -/
def toItems
    (value : Value)
    (expected : String) : Except Error (List Value) :=
  match value with
  | .array items => .ok items
  | _ => .error (value.mismatch expected)

/- A value as a variant of a basic type. -/
def packBasic
    (value : Value)
    (type : BasicType) : Except Error Variant :=
  match type with
  | .boolean => value.toBool.map Variant.boolean
  | .int kind => (value.toInteger kind).map (Variant.int kind)
  | .double => value.toDouble.map Variant.double
  | .text kind =>
      match value.toString with
      | .error e => .error e
      | .ok text => Variant.text kind text

end Value

end GVariant

------------------------------------------------------------
-- Keys
------------------------------------------------------------

namespace GVariant

namespace Value

/- The failure of a key to be the text of a basic type. -/
def keyMismatch (key : String) (type : BasicType) : Error :=
  .typeMismatch
    s!"a dictionary key of type '{type.char}'"
    s!"'{key}'"

/-
  The value of an integer key. Keys of the widest unsigned
  kind have no minus sign; other keys fit 64 bits with a
  sign, whatever the kind.
-/
def parseIntKey?
    (kind : IntKind)
    (key : String) : Option Value :=
  match kind with
  | .uint64 =>
      (Numeral.readUnsigned? key.toList).bind fun n =>
        if IntKind.InRange .uint64 n then
          some (.uint (UInt64.ofNat n))
        else
          none
  | _ =>
      (Numeral.readInt? key.toList).bind fun n =>
        if IntKind.InRange .int64 n then
          some (.int (Int64.ofInt n))
        else
          none

/- The value of a key that is meant for a basic type. -/
def parseKey
    (key : String)
    (type : BasicType) : Except Error Value :=
  let value? : Option Value :=
    match type with
    | .text _ => some (.string key)
    | .boolean =>
        if key = "true" then
          some (.bool true)
        else if key = "false" then
          some (.bool false)
        else
          none
    | .int kind => parseIntKey? kind key
    | .double =>
        (Numeral.readDouble? key.toList).map Value.double
  match value? with
  | some value => .ok value
  | none => .error (keyMismatch key type)

end Value

namespace Scalar

/- A scalar as a host value. -/
def toValue : Scalar → Value
| .boolean value => .bool value
| .int .uint64 word => .ofNat word.toNat
| .int kind word => .ofInt (kind.value word)
| .double value => .double value
| .text _ value => .string value

/- A scalar as the key of a map. -/
def keyText : Scalar → String
| .boolean value => if value then "true" else "false"
| .int kind word => ToString.toString (kind.value word)
| .double value => NumberStyle.positional.render value
| .text _ value => value

end Scalar

end GVariant
