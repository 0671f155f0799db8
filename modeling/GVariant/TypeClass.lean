/-
  The classification of types by their leading character.

  A basic type is a boolean, one of eight integer kinds, a
  double, or one of three kinds of text. Every other type
  is a container. Integer kinds carry their width and sign,
  so that one rule serves all of them.

  Key definitions include:
    * `IntKind`
    * `IntKind.size`
    * `IntKind.signed`
    * `IntKind.InRange`
    * `TextKind`
    * `BasicType`
    * `TypeClass`
    * `TypeClass.ofChar?`
    * `TypeClass.char`

  The characters identify the classes:
    * `TypeClass.ofChar?_char`
    * `TypeClass.char_of_ofChar?`
-/

------------------------------------------------------------
-- Integer Kinds
------------------------------------------------------------

namespace GVariant

/-
  The integer types. A handle is an index into a list of
  file descriptors that travels beside the message.
-/
inductive IntKind
  | byte
  | int16
  | uint16
  | int32
  | uint32
  | int64
  | uint64
  | handle
  deriving DecidableEq, Repr

namespace IntKind

/- The serialised size in bytes. -/
def size : IntKind → Nat
| .byte => 1
| .int16 | .uint16 => 2
| .int32 | .uint32 | .handle => 4
| .int64 | .uint64 => 8

/- The width in bits. -/
def width (kind : IntKind) : Nat :=
  8 * kind.size

/- Whether the kind has negative values. -/
def signed : IntKind → Bool
| .int16 | .int32 | .int64 | .handle => true
| .byte | .uint16 | .uint32 | .uint64 => false

/- The least value of the kind. -/
def minValue (kind : IntKind) : Int :=
  if kind.signed then
    (BitVec.intMin kind.width).toInt
  else
    0

/- The greatest value of the kind. -/
def maxValue (kind : IntKind) : Int :=
  if kind.signed then
    (BitVec.intMax kind.width).toInt
  else
    (BitVec.allOnes kind.width).toNat

/- The integers that the kind can hold. -/
def InRange (kind : IntKind) (n : Int) : Prop :=
  kind.minValue ≤ n ∧ n ≤ kind.maxValue

instance (kind : IntKind) (n : Int) :
    Decidable (kind.InRange n) := by
  unfold InRange
  infer_instance

/- The type character. -/
def char : IntKind → Char
| .byte => 'y'
| .int16 => 'n'
| .uint16 => 'q'
| .int32 => 'i'
| .uint32 => 'u'
| .int64 => 'x'
| .uint64 => 't'
| .handle => 'h'

/- The integer that a word of the kind stands for. -/
def value
    (kind : IntKind)
    (word : BitVec kind.width) : Int :=
  if kind.signed then word.toInt else word.toNat

/- The word of the kind that stands for an integer. -/
def word
    (kind : IntKind)
    (n : Int) : BitVec kind.width :=
  BitVec.ofInt kind.width n

end IntKind

end GVariant

------------------------------------------------------------
-- Text Kinds And Basic Types
------------------------------------------------------------

namespace GVariant

/- The types whose values are texts. -/
inductive TextKind
  | string
  | objectPath
  | signature
  deriving DecidableEq, Repr

namespace TextKind

/- The type character. -/
def char : TextKind → Char
| .string => 's'
| .objectPath => 'o'
| .signature => 'g'

end TextKind

/- The types without members. -/
inductive BasicType
  | boolean
  | int (kind : IntKind)
  | double
  | text (kind : TextKind)
  deriving DecidableEq, Repr

namespace BasicType

/- The type character. -/
def char : BasicType → Char
| .boolean => 'b'
| .int kind => kind.char
| .double => 'd'
| .text kind => kind.char

end BasicType

end GVariant

------------------------------------------------------------
-- Type Classes
------------------------------------------------------------

namespace GVariant

/- A basic type, or the kind of a container. -/
inductive TypeClass
  | basic (type : BasicType)
  | variant
  | maybe
  | array
  | tuple
  | dictEntry
  deriving DecidableEq, Repr

namespace TypeClass

/- The class that a leading type character announces. -/
def ofChar? : Char → Option TypeClass
| 'b' => some (.basic .boolean)
| 'y' => some (.basic (.int .byte))
| 'n' => some (.basic (.int .int16))
| 'q' => some (.basic (.int .uint16))
| 'i' => some (.basic (.int .int32))
| 'u' => some (.basic (.int .uint32))
| 'x' => some (.basic (.int .int64))
| 't' => some (.basic (.int .uint64))
| 'h' => some (.basic (.int .handle))
| 'd' => some (.basic .double)
| 's' => some (.basic (.text .string))
| 'o' => some (.basic (.text .objectPath))
| 'g' => some (.basic (.text .signature))
| 'v' => some .variant
| 'm' => some .maybe
| 'a' => some .array
| '(' => some .tuple
| '{' => some .dictEntry
| _ => none

/- The leading type character. -/
def char : TypeClass → Char
| .basic type => type.char
| .variant => 'v'
| .maybe => 'm'
| .array => 'a'
| .tuple => '('
| .dictEntry => '{'

/- Whether the class is a basic type. -/
def isBasic : TypeClass → Bool
| .basic _ => true
| _ => false

/- Whether values of the class hold other values. -/
def isContainer (cls : TypeClass) : Bool :=
  !cls.isBasic

/- The name of the class in English. -/
def name : TypeClass → String
| .basic .boolean => "Boolean"
| .basic (.int .byte) => "Byte"
| .basic (.int .int16) => "Int16"
| .basic (.int .uint16) => "UInt16"
| .basic (.int .int32) => "Int32"
| .basic (.int .uint32) => "UInt32"
| .basic (.int .int64) => "Int64"
| .basic (.int .uint64) => "UInt64"
| .basic (.int .handle) => "Handle"
| .basic .double => "Double"
| .basic (.text .string) => "String"
| .basic (.text .objectPath) => "ObjectPath"
| .basic (.text .signature) => "Signature"
| .variant => "Variant"
| .maybe => "Maybe"
| .array => "Array"
| .tuple => "Tuple"
| .dictEntry => "DictEntry"

/- Every class is found again by its character. -/
theorem ofChar?_char
    (cls : TypeClass) :
    ofChar? cls.char = some cls := by
  cases cls with
  | basic type =>
      cases type with
      | int kind => cases kind <;> rfl
      | text kind => cases kind <;> rfl
      | _ => rfl
  | _ => rfl

/- A character announces only the class it belongs to. -/
theorem char_of_ofChar?
    {c : Char}
    {cls : TypeClass}
    (hClass : ofChar? c = some cls) :
    cls.char = c := by
  unfold ofChar? at hClass
  split at hClass <;>
    first
    | (cases hClass; rfl)
    | cases hClass

end TypeClass

end GVariant
