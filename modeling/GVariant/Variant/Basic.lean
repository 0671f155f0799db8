import GVariant.ObjectPath
import GVariant.Signature.Basic
import GVariant.Number.Double

/-
  Typed values as trees.

  A scalar is a value of a basic type. A variant is a
  scalar, a boxed variant, or a container. Each node holds
  what is needed to compute its type, so `Variant.type` is a
  function of the tree; an array keeps its element type for
  the case that it is empty, and so does an empty maybe. A
  byte array is one buffer.

  The checked constructors refuse what would not be a value
  of its type: wrong texts, and members of the wrong type.

  `FlatVariant` is the form that keeps a type beside what is
  held, where nothing but the constructors makes them agree.

  Key definitions include:
    * `Scalar`
    * `Variant`
    * `Variant.type`
    * `Variant.string` and the other constructors
    * `Variant.array`
-/

------------------------------------------------------------
-- Scalars
------------------------------------------------------------

namespace GVariant

/- A value of a basic type. -/
inductive Scalar
  | boolean (value : Bool)
  | int (kind : IntKind) (word : BitVec kind.width)
  | double (value : Double)
  | text (kind : TextKind) (value : String)
  deriving DecidableEq, Repr

namespace Scalar

/- The type of a scalar. -/
def type : Scalar → BasicType
| .boolean _ => .boolean
| .int kind _ => .int kind
| .double _ => .double
| .text kind _ => .text kind

/-
  Equality of scalars as values: doubles are compared as
  numbers.
-/
def agrees : Scalar → Scalar → Bool
| .double x, .double y => x.agrees y
| a, b => a == b

end Scalar

end GVariant

------------------------------------------------------------
-- Variants
------------------------------------------------------------

namespace GVariant

/- A value together with its type. -/
inductive Variant
  | scalar (value : Scalar)
  | boxed (child : Variant)
  | nothing (element : Ty)
  | just (child : Variant)
  | bytes (content : List UInt8)
  | arrayOf (element : Ty) (children : List Variant)
  | tuple (children : List Variant)
  | entry (key : Scalar) (value : Variant)
  deriving Repr

namespace Variant

instance : Inhabited Variant :=
  ⟨.tuple []⟩

mutual

/- The type of a variant. -/
def type : Variant → Ty
| .scalar value => .basic value.type
| .boxed _ => .variant
| .nothing element => .maybe element
| .just child => .maybe child.type
| .bytes _ => .byteString
| .arrayOf element _ => .array element
| .tuple children => .tuple (typeAll children)
| .entry key value => .dictEntry key.type value.type

/- The types of several variants. -/
def typeAll : List Variant → List Ty
| [] => []
| child :: children => child.type :: typeAll children

end

theorem typeAll_eq_map
    (children : List Variant) :
    typeAll children = children.map type := by
  induction children with
  | nil => rfl
  | cons child children ih => simp [typeAll, ih]

/- The class of the type of a variant. -/
def cls (v : Variant) : TypeClass :=
  v.type.cls

mutual

/-
  Equality of variants as values: of the same type and
  shape, with scalars that agree.
-/
def agrees : Variant → Variant → Bool
| .scalar a, .scalar b => a.agrees b
| .boxed a, .boxed b => a.agrees b
| .nothing s, .nothing t => s == t
| .just a, .just b => a.agrees b
| .bytes a, .bytes b => a == b
| .arrayOf s as, .arrayOf t bs => s == t && agreesAll as bs
| .tuple as, .tuple bs => agreesAll as bs
| .entry j a, .entry k b => j.agrees k && a.agrees b
| _, _ => false

/- Equality of lists of variants as values. -/
def agreesAll : List Variant → List Variant → Bool
| [], [] => true
| a :: as, b :: bs => a.agrees b && agreesAll as bs
| _, _ => false

end

end Variant

end GVariant

------------------------------------------------------------
-- Constructors Of Scalars
------------------------------------------------------------

namespace GVariant

namespace Variant

/- A boolean. -/
def boolean (value : Bool) : Variant :=
  .scalar (.boolean value)

/- The integer of a kind, modulo the range of the kind. -/
def int (kind : IntKind) (value : Int) : Variant :=
  .scalar (.int kind (kind.word value))

/- A double. -/
def double (value : Double) : Variant :=
  .scalar (.double value)

/- A byte. -/
def byte (value : UInt8) : Variant :=
  .scalar (.int .byte value.toBitVec)

/- A string, which must have no NUL. -/
def string (value : String) : Except Error Variant :=
  if value.toList.contains '\x00' then
    .error (.invalidString value)
  else
    .ok (.scalar (.text .string value))

/- An object path. -/
def objectPath (value : String) : Except Error Variant :=
  if isObjectPath value then
    .ok (.scalar (.text .objectPath value))
  else
    .error (.invalidObjectPath value)

/- A signature. -/
def signature (value : String) : Except Error Variant :=
  if isSignature value then
    .ok (.scalar (.text .signature value))
  else
    .error (.invalidSignatureString value)

/- A text of a kind. -/
def text
    (kind : TextKind)
    (value : String) : Except Error Variant :=
  match kind with
  | .string => string value
  | .objectPath => objectPath value
  | .signature => signature value

end Variant

end GVariant

------------------------------------------------------------
-- Constructors Of Containers
------------------------------------------------------------

namespace GVariant

namespace Variant

/- A type between quotes, as messages show it. -/
def quotedType (v : Variant) : String :=
  s!"'{v.type.signature}'"

/- A maybe of an element type. -/
def maybe
    (element : Ty)
    (child : Option Variant) : Except Error Variant :=
  match child with
  | none => .ok (.nothing element)
  | some child =>
      if child.type = element then
        .ok (.just child)
      else
        .error
          (.typeMismatch
            s!"maybe of type '{element.signature}'"
            child.quotedType)

/- The byte that a variant holds. -/
def byte? : Variant → Option UInt8
| .scalar (.int .byte word) => some ⟨word⟩
| _ => none

/-
  An array. All children must have the element type; bytes
  are put into one buffer.
-/
def array
    (element : Ty)
    (children : List Variant) : Except Error Variant :=
  match children.find? fun child => child.type != element with
  | some child =>
      .error
        (.typeMismatch
          s!"array elements of type '{element.signature}'"
          child.quotedType)
  | none =>
      if element = .byte then
        .ok (.bytes (children.filterMap byte?))
      else
        .ok (.arrayOf element children)

/- An array of strings. -/
def strings (values : List String) : Except Error Variant :=
  match values.mapM string with
  | .error e => .error e
  | .ok children => .ok (.arrayOf .string children)

/- A dictionary entry. Its key must be a scalar. -/
def dictEntry
    (key value : Variant) : Except Error Variant :=
  match key with
  | .scalar key => .ok (.entry key value)
  | _ =>
      .error (.simpleTypeExpected key.cls.char 1)

end Variant

end GVariant
