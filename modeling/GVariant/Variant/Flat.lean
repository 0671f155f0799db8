import GVariant.Ty.Flat
import GVariant.Variant.Basic

/-
  Variants kept as a type and a content.

  A variant can be kept as its type, which is a text, beside
  what it holds. Nothing makes the two agree: any content
  can be put under any type, and a content says little of
  its type. Three kinds of text share one content, and so do
  all lists of members. It is the constructors that put
  contents under types that they are of, and each of them
  checks what it is given for that.

  Key definitions include:
    * `Content`
    * `FlatVariant`
    * `FlatVariant.string` and the other constructors
    * `FlatVariant.array`
    * `FlatVariant.child?`
-/

------------------------------------------------------------
-- Types And Contents
------------------------------------------------------------

namespace GVariant

/- What a variant holds, apart from its type. -/
inductive Content (V : Type)
  | boolean (value : Bool)
  | int (kind : IntKind) (word : BitVec kind.width)
  | double (value : Double)
  | text (value : String)
  | boxed (child : V)
  | maybe (child : Option V)
  | bytes (content : List UInt8)
  | container (children : List V)
  deriving Repr

/- A type, and a content that need not be of that type. -/
structure FlatVariant where
  ofParts ::
  type : FlatType
  content : Content FlatVariant
  deriving Repr

end GVariant

------------------------------------------------------------
-- Constructors Of Scalars
------------------------------------------------------------

namespace GVariant

namespace FlatVariant

/- A boolean. -/
def boolean (value : Bool) : FlatVariant :=
  ofParts Ty.boolean.flat (.boolean value)

/- The integer of a kind, modulo the range of the kind. -/
def int (kind : IntKind) (value : Int) : FlatVariant :=
  ofParts (Ty.int kind).flat (.int kind (kind.word value))

/- A double. -/
def double (value : Double) : FlatVariant :=
  ofParts Ty.double.flat (.double value)

/- A byte. -/
def byte (value : UInt8) : FlatVariant :=
  ofParts Ty.byte.flat (.int .byte value.toBitVec)

/- A string, which must have no NUL. -/
def string (value : String) : Except Error FlatVariant :=
  if value.toList.contains '\x00' then
    .error (.invalidString value)
  else
    .ok (ofParts Ty.string.flat (.text value))

/- An object path. -/
def objectPath (value : String) : Except Error FlatVariant :=
  if isObjectPath value then
    .ok (ofParts (Ty.text .objectPath).flat (.text value))
  else
    .error (.invalidObjectPath value)

/- A signature. -/
def signature (value : String) : Except Error FlatVariant :=
  if isSignature value then
    .ok (ofParts (Ty.text .signature).flat (.text value))
  else
    .error (.invalidSignatureString value)

/- A text of a kind. -/
def text
    (kind : TextKind)
    (value : String) : Except Error FlatVariant :=
  match kind with
  | .string => string value
  | .objectPath => objectPath value
  | .signature => signature value

end FlatVariant

end GVariant

------------------------------------------------------------
-- Constructors Of Containers
------------------------------------------------------------

namespace GVariant

namespace FlatVariant

/- The class of the type of a variant. -/
def cls (v : FlatVariant) : TypeClass :=
  v.type.cls

/- A type between quotes, as messages show it. -/
def quotedType (v : FlatVariant) : String :=
  s!"'{v.type.signature}'"

/- A variant in a box. -/
def boxed (child : FlatVariant) : FlatVariant :=
  ofParts Ty.variant.flat (.boxed child)

/- A maybe of an element type. -/
def maybe
    (element : FlatType)
    (child : Option FlatVariant) : Except Error FlatVariant :=
  match child with
  | none => .ok (ofParts element.maybe (.maybe none))
  | some child =>
      if child.type = element then
        .ok (ofParts element.maybe (.maybe (some child)))
      else
        .error
          (.typeMismatch
            s!"maybe of type '{element.signature}'"
            child.quotedType)

/- A maybe that is present. -/
def just (child : FlatVariant) : FlatVariant :=
  ofParts child.type.maybe (.maybe (some child))

/- A maybe that is empty. -/
def nothing (element : FlatType) : FlatVariant :=
  ofParts element.maybe (.maybe none)

/- The byte that a variant holds. -/
def byte? (v : FlatVariant) : Option UInt8 :=
  match v.content with
  | .int .byte word => some ⟨word⟩
  | _ => none

/-
  An array. All children must have the element type; bytes
  are put into one buffer.
-/
def array
    (element : FlatType)
    (children : List FlatVariant) : Except Error FlatVariant :=
  match children.find? fun child => child.type != element with
  | some child =>
      .error
        (.typeMismatch
          s!"array elements of type '{element.signature}'"
          child.quotedType)
  | none =>
      if element.cls = .basic (.int .byte) then
        .ok
          (ofParts element.array
            (.bytes (children.filterMap byte?)))
      else
        .ok (ofParts element.array (.container children))

/- An array of strings. -/
def strings
    (values : List String) : Except Error FlatVariant :=
  match values.mapM string with
  | .error e => .error e
  | .ok children =>
      .ok (ofParts Ty.strings.flat (.container children))

/- A byte array. -/
def bytes (content : List UInt8) : FlatVariant :=
  ofParts Ty.byteString.flat (.bytes content)

/- A tuple. -/
def tuple (children : List FlatVariant) : FlatVariant :=
  ofParts (.tuple (children.map type)) (.container children)

/- A dictionary entry. The type of its key must be basic. -/
def dictEntry
    (key value : FlatVariant) : Except Error FlatVariant :=
  match FlatType.entry key.type value.type with
  | .error e => .error e
  | .ok type => .ok (ofParts type (.container [key, value]))

end FlatVariant

end GVariant

------------------------------------------------------------
-- Children
------------------------------------------------------------

namespace GVariant

namespace FlatVariant

/- The child at an index. -/
def child?
    (v : FlatVariant)
    (index : Nat) : Option FlatVariant :=
  match v.content with
  | .boxed child => [child][index]?
  | .maybe child => child.toList[index]?
  | .bytes content => content[index]?.map byte
  | .container children => children[index]?
  | _ => none

end FlatVariant

end GVariant
