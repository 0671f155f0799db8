import GVariant.Entries
import GVariant.Number.Rounding
import GVariant.Variant.Basic

/-
  Host values: dynamically typed data.

  A host value is what is packed into a variant, and what a
  variant unpacks to. Integers that fit 64 bits with a sign
  are signed; an unsigned integer is meant for those that do
  not. A map holds its entries sorted by key.

  Key definitions include:
    * `Value`
    * `Value.kind`
    * `Value.ofNat`
    * `Value.agrees`
-/

------------------------------------------------------------
-- Host Values
------------------------------------------------------------

namespace GVariant

/- A dynamically typed value of the host. -/
inductive Value
  | null
  | bool (value : Bool)
  | int (value : Int64)
  | uint (value : UInt64)
  | double (value : Double)
  | string (value : String)
  | bytes (content : List UInt8)
  | array (items : List Value)
  | map (entries : List (String × Value))
  | variant (value : Variant)
  deriving Repr

namespace Value

/- The value that stands for the absence of one. -/
instance : Inhabited Value :=
  ⟨.null⟩

/- The name of the kind of a value in messages. -/
def kind : Value → String
| .null => "null"
| .bool _ => "a boolean"
| .int _ | .uint _ => "an integer"
| .double _ => "a number"
| .string _ => "a string"
| .bytes _ => "a byte buffer"
| .array _ => "an array"
| .map _ => "an object"
| .variant _ => "a variant"

/- The failure of a value to be what was expected. -/
def mismatch (value : Value) (expected : String) : Error :=
  .typeMismatch expected value.kind

/- A map with the given entries, the last of a key winning. -/
def ofEntries (entries : List (String × Value)) : Value :=
  .map (Entries.ofList entries)

end Value

end GVariant

------------------------------------------------------------
-- Integers
------------------------------------------------------------

namespace GVariant

namespace Value

/-
  The integer as a signed one if it fits, otherwise as an
  unsigned one.
-/
def ofNat (n : Nat) : Value :=
  if IntKind.InRange .int64 n then
    .int (Int64.ofNat n)
  else
    .uint (UInt64.ofNat n)

/- A signed integer that fits 64 bits. -/
def ofInt (n : Int) : Value :=
  .int (Int64.ofInt n)

end Value

end GVariant

------------------------------------------------------------
-- Accessors
------------------------------------------------------------

namespace GVariant

namespace Value

/- Whether the value is absent. -/
def isNull : Value → Bool
| .null => true
| _ => false

/- The boolean. -/
def bool? : Value → Option Bool
| .bool value => some value
| _ => none

/- The integer, whatever its sign. -/
def integer? : Value → Option Int
| .int value => some value.toInt
| .uint value => some value.toNat
| _ => none

/- The integer, if it fits 64 bits with a sign. -/
def int? (value : Value) : Option Int :=
  value.integer?.filter fun n => IntKind.InRange .int64 n

/- The integer, if it is not negative. -/
def uint? (value : Value) : Option Int :=
  value.integer?.filter fun n => 0 ≤ n

/- Any number as a double. -/
def double? : Value → Option Double
| .double value => some value
| value => value.integer?.map Double.ofInt

/- The string. -/
def string? : Value → Option String
| .string value => some value
| _ => none

/- The byte buffer. -/
def bytes? : Value → Option (List UInt8)
| .bytes content => some content
| _ => none

/- The items of an array. -/
def items? : Value → Option (List Value)
| .array items => some items
| _ => none

/- The entries of a map. -/
def entries? : Value → Option (List (String × Value))
| .map entries => some entries
| _ => none

/- The variant. -/
def variant? : Value → Option Variant
| .variant value => some value
| _ => none

end Value

end GVariant

------------------------------------------------------------
-- Equality
------------------------------------------------------------

namespace GVariant

namespace Value

mutual

/-
  Equality of values of the same kind: doubles are compared
  as numbers.
-/
def agrees : Value → Value → Bool
| .null, .null => true
| .bool a, .bool b => a == b
| .int a, .int b => a == b
| .uint a, .uint b => a == b
| .double a, .double b => a.agrees b
| .string a, .string b => a == b
| .bytes a, .bytes b => a == b
| .array as, .array bs => agreesAll as bs
| .map as, .map bs => agreesEntries as bs
| .variant a, .variant b => a.agrees b
| _, _ => false

/- Equality of lists of values. -/
def agreesAll : List Value → List Value → Bool
| [], [] => true
| a :: as, b :: bs => a.agrees b && agreesAll as bs
| _, _ => false

/- Equality of the entries of two maps. -/
def agreesEntries :
    List (String × Value) → List (String × Value) → Bool
| [], [] => true
| (j, a) :: as, (k, b) :: bs =>
    j == k && a.agrees b && agreesEntries as bs
| _, _ => false

end

end Value

end GVariant
