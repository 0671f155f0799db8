import GVariant.Entries
import GVariant.Binary.Decode
import GVariant.Json.Basic
import GVariant.Value.Scalar

/-
  JSON data of a fixed schema as variants.

  A schema describes data whose shape is known in advance.
  Each schema has one type of variants, and both directions
  follow the schema. A single character is a string of its
  own kind: it shares the type of strings, but holds exactly
  one character. Data without a schema carry nothing, and
  their signature is empty.

  Data become a variant by way of their serialised form:
  they are written without further checks, and reading the
  bytes refuses what no variant holds, such as a NUL within
  a text. What is written differs from the serialised form
  of a variant in two points: an array whose elements take
  no bytes takes none itself, so it is read as empty; and
  the offset behind a key is only as wide as the rest of the
  entry demands.

  This module stands for a package that turns native data
  into serialised form and back. The model does not use it
  and no result is about it; it serves programs that run the
  model on such data.

  Key definitions include:
    * `Schema`
    * `Schema.type`
    * `Schema.write`
    * `Schema.unpack`
    * `Json.toVariant`
    * `Json.ofVariant`
-/

------------------------------------------------------------
-- Schemas
------------------------------------------------------------

namespace GVariant

/- The schema of data that can be the keys of a map. -/
inductive AtomSchema
  | boolean
  | int (kind : IntKind)
  | double
  | string
  | character
  deriving DecidableEq, Repr

/- The shape of data. -/
inductive Schema
  | atom (schema : AtomSchema)
  | list (item : Schema)
  | tuple (members : List Schema)
  | map (key : AtomSchema) (value : Schema)
  deriving Repr

namespace AtomSchema

/- The type of an atom. -/
def type : AtomSchema → BasicType
| .boolean => .boolean
| .int kind => .int kind
| .double => .double
| .string => .text .string
| .character => .text .string

end AtomSchema

namespace Schema

mutual

/- The type of the data of a schema. -/
def type : Schema → Ty
| .atom schema => .basic schema.type
| .list item => .array item.type
| .tuple members => .tuple (memberTypes members)
| .map key value => .array (.dictEntry key.type value.type)

/- The types of the members of a tuple. -/
def memberTypes : List Schema → List Ty
| [] => []
| member :: members => member.type :: memberTypes members

end

end Schema

end GVariant

------------------------------------------------------------
-- Atoms
------------------------------------------------------------

namespace GVariant

namespace AtomSchema

/- The failure of data to fit an atom. -/
def misfit (schema : AtomSchema) : Error :=
  .conversion s!"no data of type '{schema.type.char}'"

/- An integer in the range of its kind. -/
def integer
    (schema : AtomSchema)
    (kind : IntKind)
    (n : Int) : Except Error Scalar :=
  if kind.InRange n then
    .ok (.int kind (kind.word n))
  else
    .error schema.misfit

/- The scalar of an atom. A text may still have a NUL. -/
def scalar
    (schema : AtomSchema)
    (data : Json) : Except Error Scalar :=
  match schema, data with
  | .boolean, .bool value => .ok (.boolean value)
  | .int kind, .integer n => schema.integer kind n
  | .double, .float value => .ok (.double value)
  | .double, .integer n => .ok (.double (Double.ofInt n))
  | .string, .string value => .ok (.text .string value)
  | .character, .string value =>
      if value.length = 1 then
        .ok (.text .string value)
      else
        .error schema.misfit
  | _, _ => .error schema.misfit

/- The data whose text is the name of a member. -/
def ofName? (schema : AtomSchema) (name : String) :
    Option Json :=
  match schema with
  | .boolean =>
      if name = "true" then
        some (.bool true)
      else if name = "false" then
        some (.bool false)
      else
        none
  | .int _ =>
      (Numeral.readInt? name.toList).map Json.integer
  | .double => none
  | .string => some (.string name)
  | .character => some (.string name)

/- The scalar that the name of a member stands for. -/
def nameScalar
    (schema : AtomSchema)
    (name : String) : Except Error Scalar :=
  match schema.ofName? name with
  | some data => schema.scalar data
  | none => .error schema.misfit

/- The atom that a scalar holds. -/
def unpack
    (schema : AtomSchema)
    (value : Scalar) : Except Error Json :=
  match schema, value with
  | .boolean, .boolean value => .ok (.bool value)
  | .int _, .int kind word =>
      .ok (.integer (kind.value word))
  | .double, .double value => .ok (.ofDouble value)
  | .string, .text _ value => .ok (.string value)
  | .character, .text _ value =>
      if value.length = 1 then
        .ok (.string value)
      else
        .error schema.misfit
  | _, _ => .error schema.misfit

end AtomSchema

namespace Scalar

/-
  The order of keys: texts by code points, integers by
  value, and false before true.
-/
def precedes : Scalar → Scalar → Bool
| .boolean a, .boolean b => !a && b
| .int kind a, .int kind' b => kind.value a < kind'.value b
| .text _ a, .text _ b => a < b
| _, _ => false

/-
  Add a key and a value to a list in the order of the keys,
  in place of an equal key.
-/
def insertByKey
    {α : Type}
    (key : Scalar)
    (value : α) :
    List (Scalar × α) → List (Scalar × α)
| [] => [(key, value)]
| (key', value') :: entries =>
    if key.precedes key' then
      (key, value) :: (key', value') :: entries
    else if key'.precedes key then
      (key', value') :: insertByKey key value entries
    else
      (key, value) :: entries

end Scalar

end GVariant

------------------------------------------------------------
-- Data As Variants
------------------------------------------------------------

namespace GVariant

namespace Schema

/- The failure of data to fit a schema. -/
def misfit (schema : Schema) : Error :=
  .conversion s!"no data of type '{schema.type.signature}'"

/- Members with their names as keys, in the order of keys. -/
def sortMembers
    (key : AtomSchema)
    (members : List (String × Json)) :
    Except Error (List (Scalar × Json)) :=
  members.foldlM
    (fun entries member =>
      match key.nameScalar member.1 with
      | .error e => .error e
      | .ok name =>
          .ok (Scalar.insertByKey name member.2 entries))
    []

/-
  The bytes of an array whose elements have the given
  layout. Elements without bytes leave no offsets behind.
-/
def writeArray
    (element : Layout)
    (items : List (List UInt8)) : List UInt8 :=
  if items.all List.isEmpty then
    []
  else
    Framing.encodeArray element items

/-
  The bytes of a dictionary entry. The offset behind a key
  of no fixed size takes the width for the size of the entry
  without it.
-/
def writeEntry (key value : Framing.Part) : List UInt8 :=
  if key.layout.isFixed then
    Framing.encodeTuple
      (.tuple [key.layout, value.layout]) [key, value]
  else
    let content := Framing.body [key, value]
    content ++
      Bytes.littleEndian (Framing.widthOf content.length)
        key.bytes.length

/-
  The bytes of a member whose value has a type and is
  written by a function.
-/
def writeMember
    (type : Ty)
    (writeValue : Json → Except Error (List UInt8))
    (member : Scalar × Json) : Except Error (List UInt8) :=
  match writeValue member.2 with
  | .error e => .error e
  | .ok bytes =>
      .ok
        (writeEntry (member.1.part .little)
          ⟨type.layout, bytes⟩)

mutual

/- The bytes of the data of a schema. -/
def write : Schema → Json → Except Error (List UInt8)
| .atom schema, data =>
    (schema.scalar data).map fun value =>
      value.encode .little
| .list item, .array items =>
    (items.mapM (write item)).map
      (writeArray item.type.layout)
| .tuple members, .array items =>
    (writeParts members items).map
      (Framing.encodeTuple (type (.tuple members)).layout)
| .map key value, .object members =>
    match sortMembers key members with
    | .error e => .error e
    | .ok entries =>
        (entries.mapM
          (writeMember value.type (write value))).map
          (writeArray
            (.tuple [key.type.layout, value.type.layout]))
| schema, _ => .error schema.misfit

/- The members of a tuple, ready to be placed. -/
def writeParts :
    List Schema → List Json →
      Except Error (List Framing.Part)
| [], [] => .ok []
| member :: members, item :: items =>
    match write member item with
    | .error e => .error e
    | .ok bytes =>
        match writeParts members items with
        | .error e => .error e
        | .ok parts =>
            .ok (⟨member.type.layout, bytes⟩ :: parts)
| members, _ => .error (misfit (.tuple members))

end

end Schema

end GVariant

------------------------------------------------------------
-- Data From Variants
------------------------------------------------------------

namespace GVariant

namespace Schema

/- A member that unpacks its value by a function. -/
def unpackEntry
    (key : AtomSchema)
    (unpackValue : Variant → Except Error Json)
    (table : List (String × Json)) :
    Variant → Except Error (List (String × Json))
| .entry name value =>
    match key.unpack name with
    | .error e => .error e
    | .ok _ =>
        match unpackValue value with
        | .error e => .error e
        | .ok value =>
            .ok (Entries.insert name.keyText value table)
| _ => .error key.misfit

mutual

/- The data that a variant of the type of a schema holds. -/
def unpack : Schema → Variant → Except Error Json
| .atom schema, .scalar value => schema.unpack value
| .list _, .bytes content => .ok (.ofBytes content)
| .list item, .arrayOf _ children =>
    (children.mapM (unpack item)).map Json.array
| .tuple members, .tuple children =>
    (unpackMembers members children).map Json.array
| .map key value, .arrayOf _ children =>
    (children.foldlM (unpackEntry key (unpack value)) []).map
      Json.object
| schema, _ => .error schema.misfit

/- The data that the members of a tuple hold. -/
def unpackMembers :
    List Schema → List Variant → Except Error (List Json)
| [], [] => .ok []
| member :: members, child :: children =>
    match unpack member child with
    | .error e => .error e
    | .ok item =>
        match unpackMembers members children with
        | .error e => .error e
        | .ok items => .ok (item :: items)
| members, _ => .error (misfit (.tuple members))

end

end Schema

namespace Json

/- The signature of data, empty without a schema. -/
def schemaSignature (schema : Option Schema) : String :=
  (schema.map fun schema => schema.type.signature).getD ""

/- The variant of data of a schema. -/
def toVariant
    (schema : Option Schema)
    (data : Json) : Except Error Variant :=
  match schema with
  | none => .error .emptySignature
  | some schema =>
      match schema.write data with
      | .error e => .error e
      | .ok bytes => Variant.decode schema.type bytes .little

/-
  The data that a variant holds. The type of the variant
  must be that of the schema.
-/
def ofVariant
    (schema : Option Schema)
    (v : Variant) : Except Error Json :=
  match schema.filter fun schema => schema.type == v.type with
  | some schema => schema.unpack v
  | none =>
      .error
        (.typeMismatch
          s!"type '{schemaSignature schema}'"
          v.quotedType)

end Json

end GVariant
