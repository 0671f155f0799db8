import GVariant.Entries
import GVariant.Conversion.Basic
import GVariant.Variant.Access

/-
  Unpacking variants to host values.

  A shallow unpacking takes off one level and leaves the
  children as variants. A deep one goes on through all
  containers; with `recursive` it opens boxes, too, so that
  no type is left in the result. The recursion is on the
  levels of nesting that are left.

  `Conversion.unpackByClass` is the same in single steps: it
  looks at the class of a variant, asks the accessor of the
  class, and fails if there is no answer.

  Key definitions include:
    * `Conversion.unpackLevels`
    * `Conversion.unpackVariant`
    * `Conversion.unpack`
    * `Conversion.deepUnpack`
    * `Conversion.recursiveUnpack`
    * `Conversion.unpackByClass`
    * `Value.openWith`
-/

------------------------------------------------------------
-- Dictionaries
------------------------------------------------------------

namespace GVariant

namespace Conversion

/-
  Add an entry to a map. Its key becomes the text of the
  scalar, and takes a level like any other child, whether
  the values are unpacked or not.
-/
def unpackEntry
    (conv : Conversion)
    (levels : Nat)
    (unpackChild : Variant → Except Error Value)
    (table : List (String × Value)) :
    Variant → Except Error (List (String × Value))
| .entry key value =>
    if levels = 0 then
      .error conv.nestingError
    else
      match unpackChild value with
      | .error e => .error e
      | .ok value =>
          .ok (Entries.insert key.keyText value table)
| other => .error (.assertion (.wrongContent other.type))

/-
  The map of the entries of a dictionary, the last of a key
  winning.
-/
def unpackEntries
    (conv : Conversion)
    (levels : Nat)
    (unpackChild : Variant → Except Error Value)
    (entries : List Variant) : Except Error Value :=
  match entries.foldlM
      (conv.unpackEntry levels unpackChild) [] with
  | .error e => .error e
  | .ok table => .ok (.map table)

/- The array of unpacked children. -/
def unpackItems
    (unpackChild : Variant → Except Error Value)
    (children : List Variant) : Except Error Value :=
  match children.mapM unpackChild with
  | .error e => .error e
  | .ok items => .ok (.array items)

end Conversion

end GVariant

------------------------------------------------------------
-- Unpacking
------------------------------------------------------------

namespace GVariant

namespace Conversion

/- Unpack a variant that may have as many levels as given. -/
def unpackLevels
    (conv : Conversion)
    (deep recursive : Bool) :
    (levels : Nat) → Variant → Except Error Value
| 0, _ => .error conv.nestingError
| levels + 1, v =>
    let unpackChild (child : Variant) :=
      if deep then
        unpackLevels conv deep recursive levels child
      else
        .ok (.variant child)
    match v with
    | .scalar value => .ok value.toValue
    | .boxed child =>
        if deep && recursive then
          unpackLevels conv deep recursive levels child
        else
          .ok (.variant child)
    | .nothing _ => .ok .null
    | .just child => unpackChild child
    | .bytes content => .ok (conv.codec.valueOfBytes content)
    | .arrayOf (.dictEntry _ _) entries =>
        conv.unpackEntries levels unpackChild entries
    | .arrayOf _ children => unpackItems unpackChild children
    | .tuple children => unpackItems unpackChild children
    | .entry key value =>
        unpackItems unpackChild [.scalar key, value]

/- Unpack a variant within the limit of the conversion. -/
def unpackVariant
    (conv : Conversion)
    (v : Variant)
    (deep recursive : Bool) : Except Error Value :=
  conv.unpackLevels deep recursive (conv.maxDepth + 1) v

/- Take off one level. Children stay variants. -/
def unpack
    (conv : Conversion)
    (v : Variant) : Except Error Value :=
  conv.unpackVariant v false false

/- Take off all levels outside of boxes. -/
def deepUnpack
    (conv : Conversion)
    (v : Variant) : Except Error Value :=
  conv.unpackVariant v true false

/- Take off all levels, boxes included. -/
def recursiveUnpack
    (conv : Conversion)
    (v : Variant) : Except Error Value :=
  conv.unpackVariant v true true

end Conversion

end GVariant

------------------------------------------------------------
-- Unpacking By Class And Accessors
------------------------------------------------------------

namespace GVariant

/-
  What an accessor found in a variant. If it found nothing,
  the variant contradicts its type.
-/
def Variant.held
    {α : Type}
    (v : Variant)
    (found : Option α) : Except Error α :=
  match found with
  | some part => .ok part
  | none => .error (.assertion (.wrongContent v.type))

/- The text of a value that was unpacked from a key. -/
def Value.toKeyText : Value → Except Error String
| .string text => .ok text
| .bool value => .ok (if value then "true" else "false")
| .int value => .ok (ToString.toString value.toInt)
| .uint value => .ok (ToString.toString value.toNat)
| .double value => .ok (NumberStyle.positional.render value)
| value =>
    .error
      (.assertion
        (.other s!"dictionary key unpacked to {value.kind}"))

namespace Conversion

/- The value that the accessor of a basic type finds. -/
def unpackBasic
    (type : BasicType)
    (v : Variant) : Except Error Value :=
  match type with
  | .boolean => (v.held v.bool?).map .bool
  | .int .uint64 =>
      (v.held (v.int? .uint64)).map fun n => .ofNat n.toNat
  | .int kind => (v.held (v.int? kind)).map .ofInt
  | .double => (v.held v.double?).map .double
  | .text _ => (v.held v.text?).map .string

/-
  Add what the accessor of entries finds to a map. The key
  is unpacked before the value.
-/
def unpackPair
    (unpackKey unpackChild : Variant → Except Error Value)
    (table : List (String × Value))
    (entry : Variant) :
    Except Error (List (String × Value)) := do
  let (key, value) ← entry.held entry.entry?
  let unpackedKey ← unpackKey (.scalar key)
  let name ← unpackedKey.toKeyText
  let unpacked ← unpackChild value
  return Entries.insert name unpacked table

/-
  Unpack a variant by the accessors that its class and its
  type ask for. Keys are always unpacked, since their texts
  are the keys of the map.
-/
def unpackByClass
    (conv : Conversion)
    (recursive : Bool) :
    (levels : Nat) → (deep : Bool) → Variant →
      Except Error Value
| 0, _, _ => .error conv.nestingError
| levels + 1, deep, v =>
    let unpackChild (child : Variant) :=
      if deep then
        unpackByClass conv recursive levels deep child
      else
        .ok (.variant child)
    match v.cls with
    | .basic type => unpackBasic type v
    | .variant => do
        let child ← v.held v.boxed?
        if deep && recursive then
          unpackByClass conv recursive levels deep child
        else
          return .variant child
    | .maybe => do
        match ← v.held v.maybe? with
        | none => return .null
        | some child => unpackChild child
    | .array =>
        match ArrayKind.of? v.type with
        | some .bytes => do
            let content ← v.held v.bytes?
            return conv.codec.valueOfBytes content
        | some .dictionary => do
            let entries ← v.held v.members?
            let table ←
              entries.foldlM
                (unpackPair
                  (unpackByClass conv recursive levels true)
                  unpackChild)
                []
            return .map table
        | _ => do
            let children ← v.held v.members?
            unpackItems unpackChild children
    | .tuple | .dictEntry => do
        let children ← v.held v.members?
        unpackItems unpackChild children

end Conversion

end GVariant

------------------------------------------------------------
-- Variants In Host Values
------------------------------------------------------------

namespace GVariant

namespace Value

mutual

/-
  A host value with each variant in it replaced by what a
  function makes of the variant.
-/
def openWith
    (unpackVariant : Variant → Except Error Value) :
    Value → Except Error Value
| .array items =>
    match openItemsWith unpackVariant items with
    | .error e => .error e
    | .ok items => .ok (.array items)
| .map entries =>
    match openEntriesWith unpackVariant entries with
    | .error e => .error e
    | .ok entries => .ok (.map entries)
| .variant v => unpackVariant v
| value => .ok value

/- Items with each variant in them replaced. -/
def openItemsWith
    (unpackVariant : Variant → Except Error Value) :
    List Value → Except Error (List Value)
| [] => .ok []
| item :: items =>
    match item.openWith unpackVariant with
    | .error e => .error e
    | .ok item =>
        match openItemsWith unpackVariant items with
        | .error e => .error e
        | .ok items => .ok (item :: items)

/- Entries with each variant in their values replaced. -/
def openEntriesWith
    (unpackVariant : Variant → Except Error Value) :
    List (String × Value) →
      Except Error (List (String × Value))
| [] => .ok []
| (key, value) :: entries =>
    match value.openWith unpackVariant with
    | .error e => .error e
    | .ok value =>
        match openEntriesWith unpackVariant entries with
        | .error e => .error e
        | .ok entries => .ok ((key, value) :: entries)

end

end Value

end GVariant
