import GVariant.Binary.Encode

/-
  Reading variants from serialised data.

  Data is untrusted: every slice is checked before it is
  read, and containers nested deeper than a limit are
  refused, boxes included. `Variant.decodeLevels` recurs on
  the levels of nesting that are left, so the limit is what
  ends it.

  Key definitions include:
    * `Variant.decodeBasic`
    * `Variant.decodeLevels`
    * `Variant.decode`
    * `Variant.byteswap`
-/

------------------------------------------------------------
-- Scalars
------------------------------------------------------------

namespace GVariant

namespace Scalar

/- A boolean is a byte of zero or one. -/
def decodeBoolean (data : List UInt8) :
    Except DataFault Scalar :=
  match data with
  | [byte] =>
      if byte = 0 then
        .ok (.boolean false)
      else if byte = 1 then
        .ok (.boolean true)
      else
        .error (.invalidBoolean byte)
  | _ => .error (.wrongSize data.length Ty.boolean.signature)

/- The word of an integer kind. -/
def decodeInt
    (order : ByteOrder)
    (kind : IntKind)
    (data : List UInt8) : Except DataFault Scalar :=
  if data.length = kind.size then
    .ok (.int kind (BitVec.ofNat _ (Bytes.toNat order data)))
  else
    .error (.wrongSize data.length (Ty.int kind).signature)

/- The bits of a double. -/
def decodeDouble
    (order : ByteOrder)
    (data : List UInt8) : Except DataFault Scalar :=
  if data.length = 8 then
    .ok (.double ⟨UInt64.ofNat (Bytes.toNat order data)⟩)
  else
    .error (.wrongSize data.length Ty.double.signature)

/- A text without its final NUL, and without any other. -/
def decodeText
    (kind : TextKind)
    (data : List UInt8) : Except Error String :=
  match Bytes.splitLast? data with
  | some (before, 0) =>
      match Utf8.decode before with
      | .error fault => .error (.data (.invalidText fault))
      | .ok value =>
          if value.toList.contains '\x00' then
            .error (.invalidString value)
          else
            .ok value
  | _ =>
      .error (.data (.unterminated (Ty.text kind).signature))

end Scalar

end GVariant

------------------------------------------------------------
-- Variants
------------------------------------------------------------

namespace GVariant

namespace Variant

/- A value of a basic type. -/
def decodeBasic
    (order : ByteOrder)
    (type : BasicType)
    (data : List UInt8) : Except Error Variant :=
  let ofScalar (result : Except DataFault Scalar) :
      Except Error Variant :=
    match result with
    | .error fault => .error (.data fault)
    | .ok value => .ok (.scalar value)
  match type with
  | .boolean => ofScalar (Scalar.decodeBoolean data)
  | .int kind => ofScalar (Scalar.decodeInt order kind data)
  | .double => ofScalar (Scalar.decodeDouble order data)
  | .text kind =>
      match Scalar.decodeText kind data with
      | .error e => .error e
      | .ok value => text kind value

/-
  The type string of a box and the bytes of its content.
  The type may nest as deep as the content may.
-/
def openBox
    (limit levels : Nat)
    (data : List UInt8) : Except Error (Ty × List UInt8) :=
  match Bytes.splitAtLastZero? data with
  | none => .error (.data .noTypeString)
  | some (content, typeBytes) =>
      match Utf8.decode typeBytes with
      | .error fault =>
          .error (.data (.invalidTypeString fault))
      | .ok typeString =>
          match (Reader.ofString typeString limit).read
              levels with
          | (.error e, _) => .error e
          | (.ok type, r) =>
              match r.expectEnd with
              | .error e => .error e
              | .ok () => .ok (type, content)

/- The bytes of the content of a maybe that is present. -/
def openMaybe
    (element : Ty)
    (data : List UInt8) : Except DataFault (List UInt8) :=
  if element.isFixedSize then
    .ok data
  else
    match Bytes.splitLast? data with
    | some (content, 0) => .ok content
    | _ => .error .unterminatedMaybe

/- Decode slices one by one, up to the first fault. -/
def decodeSlices
    {T V : Type}
    (decodeOne : T → List UInt8 → Except Error V) :
    List T → List Framing.Slice → Except Error (List V)
| type :: types, slice :: slices =>
    match slice with
    | .error fault => .error (.data fault)
    | .ok content =>
        match decodeOne type content with
        | .error e => .error e
        | .ok child =>
            match decodeSlices decodeOne types slices with
            | .error e => .error e
            | .ok children => .ok (child :: children)
| _, _ => .ok []

/- The members of a tuple or a dictionary entry. -/
def decodeMembers
    (decodeOne : Ty → List UInt8 → Except Error Variant)
    (type : Ty)
    (data : List UInt8) : Except Error (List Variant) :=
  let slices :=
    Framing.tupleSlices (Ty.layoutAll type.items) data
  match type.layout.fixedSize with
  | some size =>
      if data.length ≠ size then
        .error (.data (.wrongSize data.length type.signature))
      else
        decodeSlices decodeOne type.items slices
  | none => decodeSlices decodeOne type.items slices

/-
  Read a value that may have as many levels as given,
  itself included.
-/
def decodeLevels
    (order : ByteOrder)
    (limit : Nat) :
    (levels : Nat) → Ty → List UInt8 → Except Error Variant
| 0, _, _ => .error (.maxNestingExceeded limit)
| levels + 1, type, data =>
    match type with
    | .basic type => decodeBasic order type data
    | .variant =>
        match openBox limit levels data with
        | .error e => .error e
        | .ok (type, content) =>
            match decodeLevels order limit levels
                type content with
            | .error e => .error e
            | .ok child => .ok (.boxed child)
    | .maybe element =>
        if data.isEmpty then
          .ok (.nothing element)
        else
          match openMaybe element data with
          | .error fault => .error (.data fault)
          | .ok content =>
              match decodeLevels order limit levels
                  element content with
              | .error e => .error e
              | .ok child => .ok (.just child)
    | .array element =>
        if element = .byte then
          .ok (.bytes data)
        else
          match Framing.arraySlices element.layout data with
          | .error fault => .error (.data fault)
          | .ok slices =>
              match decodeSlices
                  (decodeLevels order limit levels)
                  (slices.map fun _ => element) slices with
              | .error e => .error e
              | .ok children =>
                  .ok (.arrayOf element children)
    | .tuple items =>
        match decodeMembers
            (decodeLevels order limit levels)
            (.tuple items) data with
        | .error e => .error e
        | .ok children => .ok (.tuple children)
    | .dictEntry key value =>
        match decodeMembers
            (decodeLevels order limit levels)
            (.dictEntry key value) data with
        | .error e => .error e
        | .ok [.scalar key, value] => .ok (.entry key value)
        | .ok _ =>
            .error
              (.assertion
                (.wrongContent (.dictEntry key value)))

/-
  Read a value of a type from serialised data. Containers
  may be nested up to a limit.
-/
def decode
    (type : Ty)
    (data : List UInt8)
    (order : ByteOrder)
    (limit : Nat := defaultMaxDepth) :
    Except Error Variant :=
  decodeLevels order limit (limit + 1) type data

/-
  The value that the data of a variant stands for when it
  is read in the wrong byte order.
-/
def byteswap (v : Variant) : Except Error Variant :=
  decode v.type (v.encode .little) .big

end Variant

end GVariant
