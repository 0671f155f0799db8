import GVariant.Binary.Decode
import GVariant.Variant.Flat

/-
  Writing and reading variants kept as a type and a content.

  What is written follows the content, and the class of the
  type where several classes share a content. What is read
  follows the type, whose parts are read from its text; the
  content that was read is put under that type as it is. So
  the type of what is read is the type that was asked for,
  and it is the reading that makes the content be of it.

  Key definitions include:
    * `FlatVariant.encode`
    * `FlatVariant.decodeLevels`
    * `FlatVariant.decode`
    * `FlatVariant.byteswap`
-/

------------------------------------------------------------
-- Writing
------------------------------------------------------------

namespace GVariant

namespace FlatType

/- The layout of the elements of an array type. -/
def elementLayout (type : FlatType) : Layout :=
  match type.element? with
  | some element => element.layout
  | none => .varying 1

end FlatType

namespace FlatVariant

mutual

/- The serialised form of a variant. -/
def encode (order : ByteOrder) : FlatVariant → List UInt8
| ⟨_, .boolean value⟩ => [if value then 1 else 0]
| ⟨_, .int kind word⟩ =>
    Bytes.ofNat order kind.size word.toNat
| ⟨_, .double value⟩ => Bytes.ofNat order 8 value.bits.toNat
| ⟨_, .text value⟩ => Utf8.encode value ++ [0]
| ⟨_, .boxed child⟩ =>
    child.encode order ++
      0 :: Utf8.encode child.type.signature
| ⟨_, .maybe none⟩ => []
| ⟨_, .maybe (some child)⟩ =>
    if child.type.isFixedSize then
      child.encode order
    else
      child.encode order ++ [0]
| ⟨_, .bytes content⟩ => content
| ⟨type, .container children⟩ =>
    match type.cls with
    | .array =>
        Framing.encodeArray type.elementLayout
          (encodeAll order children)
    | _ =>
        Framing.encodeTuple type.layout
          (partAll order children)

/- The serialised forms of several variants. -/
def encodeAll (order : ByteOrder) :
    List FlatVariant → List (List UInt8)
| [] => []
| child :: children =>
    child.encode order :: encodeAll order children

/- Several variants with the layouts of their types. -/
def partAll (order : ByteOrder) :
    List FlatVariant → List Framing.Part
| [] => []
| child :: children =>
    ⟨child.type.layout, child.encode order⟩ ::
      partAll order children

end

end FlatVariant

end GVariant

------------------------------------------------------------
-- Reading Scalars
------------------------------------------------------------

namespace GVariant

namespace FlatVariant

/- The failure of data to have the size of a type. -/
def wrongSize
    (type : FlatType)
    (data : List UInt8) : DataFault :=
  .wrongSize data.length type.signature

/- A boolean is a byte of zero or one. -/
def decodeBoolean
    (type : FlatType)
    (data : List UInt8) : Except DataFault FlatVariant :=
  match data with
  | [byte] =>
      if byte = 0 then
        .ok (ofParts type (.boolean false))
      else if byte = 1 then
        .ok (ofParts type (.boolean true))
      else
        .error (.invalidBoolean byte)
  | _ => .error (wrongSize type data)

/- The word of an integer kind. -/
def decodeInt
    (order : ByteOrder)
    (type : FlatType)
    (kind : IntKind)
    (data : List UInt8) : Except DataFault FlatVariant :=
  if data.length = kind.size then
    .ok
      (ofParts type
        (.int kind (BitVec.ofNat _ (Bytes.toNat order data))))
  else
    .error (wrongSize type data)

/- The bits of a double. -/
def decodeDouble
    (order : ByteOrder)
    (type : FlatType)
    (data : List UInt8) : Except DataFault FlatVariant :=
  if data.length = 8 then
    .ok
      (ofParts type
        (.double ⟨UInt64.ofNat (Bytes.toNat order data)⟩))
  else
    .error (wrongSize type data)

/- A text without its final NUL, and without any other. -/
def decodeText
    (type : FlatType)
    (data : List UInt8) : Except Error String :=
  match Bytes.splitLast? data with
  | some (before, 0) =>
      match Utf8.decode before with
      | .error fault => .error (.data (.invalidText fault))
      | .ok value =>
          if value.toList.contains '\x00' then
            .error (.invalidString value)
          else
            .ok value
  | _ => .error (.data (.unterminated type.signature))

/- A fault in the data is an error. -/
def ofFault
    {α : Type}
    (result : Except DataFault α) : Except Error α :=
  match result with
  | .error fault => .error (.data fault)
  | .ok a => .ok a

/-
  A value of a type of a basic class. Texts are made by the
  constructor of their kind.
-/
def decodeBasic
    (order : ByteOrder)
    (type : FlatType)
    (basic : BasicType)
    (data : List UInt8) : Except Error FlatVariant :=
  match basic with
  | .boolean => ofFault (decodeBoolean type data)
  | .int kind => ofFault (decodeInt order type kind data)
  | .double => ofFault (decodeDouble order type data)
  | .text kind =>
      match decodeText type data with
      | .error e => .error e
      | .ok value => text kind value

end FlatVariant

end GVariant

------------------------------------------------------------
-- Reading Variants
------------------------------------------------------------

namespace GVariant

namespace FlatVariant

/- The bytes of the content of a maybe that is present. -/
def openMaybe
    (element : FlatType)
    (data : List UInt8) : Except DataFault (List UInt8) :=
  if element.isFixedSize then
    .ok data
  else
    match Bytes.splitLast? data with
    | some (content, 0) => .ok content
    | _ => .error .unterminatedMaybe

/- The element type that a type must have. -/
def elementOf (type : FlatType) : Except Error FlatType :=
  match type.element? with
  | some element => .ok element
  | none =>
      .error
        (.assertion
          (.other
            s!"Type '{type.signature}' has no element type"))

/- The elements of an array that is no byte array. -/
def decodeArray
    (decodeOne :
      FlatType → List UInt8 → Except Error FlatVariant)
    (element : FlatType)
    (data : List UInt8) : Except Error (List FlatVariant) :=
  match Framing.arraySlices element.layout data with
  | .error fault => .error (.data fault)
  | .ok slices =>
      Variant.decodeSlices decodeOne
        (slices.map fun _ => element) slices

/- The members of a tuple or a dictionary entry. -/
def decodeMembers
    (decodeOne :
      FlatType → List UInt8 → Except Error FlatVariant)
    (type : FlatType)
    (data : List UInt8) : Except Error (List FlatVariant) :=
  let slices :=
    Framing.tupleSlices (type.items.map FlatType.layout) data
  match type.layout.fixedSize with
  | some size =>
      if data.length ≠ size then
        .error (.data (wrongSize type data))
      else
        Variant.decodeSlices decodeOne type.items slices
  | none => Variant.decodeSlices decodeOne type.items slices

/-
  Read a value that may have as many levels as given,
  itself included.
-/
def decodeLevels
    (order : ByteOrder)
    (limit : Nat) :
    (levels : Nat) → FlatType → List UInt8 →
      Except Error FlatVariant
| 0, _, _ => .error (.maxNestingExceeded limit)
| levels + 1, type, data =>
    match type.cls with
    | .basic basic => decodeBasic order type basic data
    | .variant =>
        match Variant.openBox limit levels data with
        | .error e => .error e
        | .ok (inner, content) =>
            match decodeLevels order limit levels inner.flat
                content with
            | .error e => .error e
            | .ok child => .ok (ofParts type (.boxed child))
    | .maybe =>
        match elementOf type with
        | .error e => .error e
        | .ok element =>
            if data.isEmpty then
              .ok (ofParts type (.maybe none))
            else
              match openMaybe element data with
              | .error fault => .error (.data fault)
              | .ok content =>
                  match decodeLevels order limit levels
                      element content with
                  | .error e => .error e
                  | .ok child =>
                      .ok (ofParts type (.maybe (some child)))
    | .array =>
        match elementOf type with
        | .error e => .error e
        | .ok element =>
            if element.cls = .basic (.int .byte) then
              .ok (ofParts type (.bytes data))
            else
              match decodeArray
                  (decodeLevels order limit levels)
                  element data with
              | .error e => .error e
              | .ok children =>
                  .ok (ofParts type (.container children))
    | .tuple | .dictEntry =>
        match decodeMembers (decodeLevels order limit levels)
            type data with
        | .error e => .error e
        | .ok children =>
            .ok (ofParts type (.container children))

/-
  Read a value of a type from serialised data. Containers
  may be nested up to a limit.
-/
def decode
    (type : FlatType)
    (data : List UInt8)
    (order : ByteOrder)
    (limit : Nat := defaultMaxDepth) :
    Except Error FlatVariant :=
  decodeLevels order limit (limit + 1) type data

/-
  The value that the data of a variant stands for when it
  is read in the wrong byte order.
-/
def byteswap
    (v : FlatVariant) : Except Error FlatVariant :=
  decode v.type (v.encode .little) .big

end FlatVariant

end GVariant
