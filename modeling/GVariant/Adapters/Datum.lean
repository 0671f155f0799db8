import GVariant.Value.Basic

/-
  Host values from the data of other formats.

  A self-describing format hands over a datum and says what
  it is. Host values take integers of up to 64 bits, of
  either sign, and widen numbers of 32 bits. What has no
  counterpart among the host values is refused.

  This module stands for a package through which formats
  hand over their data. The model does not use it and no
  result is about it; it serves programs that run the model
  on such data.

  Key definitions include:
    * `Datum`
    * `Datum.refusal`
    * `Value.ofDatum`
-/

------------------------------------------------------------
-- Data
------------------------------------------------------------

namespace GVariant

/- A datum of a self-describing format. -/
inductive Datum
  | bool (value : Bool)
  | signed (value : Int64)
  | unsigned (value : UInt64)
  | wide (value : Int)
  | single (value : Double)
  | double (value : Double)
  | char (value : Char)
  | text (value : String)
  | bytes (content : List UInt8)
  | absent
  | present (content : Datum)
  | wrapper (content : Datum)
  deriving Repr

namespace Datum

/- The failure to make a host value of a kind of datum. -/
def refusal (kind : String) : String :=
  s!"invalid type: {kind}, expected any value"

end Datum

end GVariant

------------------------------------------------------------
-- Values
------------------------------------------------------------

namespace GVariant

namespace Value

/- The host value of a datum, or why there is none. -/
def ofDatum : Datum → Except String Value
| .bool value => .ok (.bool value)
| .signed value => .ok (.int value)
| .unsigned value => .ok (.ofNat value.toNat)
| .wide value =>
    .error (Datum.refusal s!"integer `{value}` as i128")
| .single value => .ok (.double value.toSingle)
| .double value => .ok (.double value)
| .char value => .ok (.string (String.singleton value))
| .text value => .ok (.string value)
| .bytes content => .ok (.bytes content)
| .absent => .ok .null
| .present content => ofDatum content
| .wrapper _ => .error (Datum.refusal "newtype struct")

end Value

end GVariant
