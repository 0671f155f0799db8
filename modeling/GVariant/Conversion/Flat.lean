import GVariant.Binary.Flat
import GVariant.Conversion.Packing

/-
  Packing into variants kept as a type and a content.

  Host values hold such variants, and are packed against the
  types that a reader stands at. The types that are read are
  kept as texts, and their parts are read from these again:
  the key type of the entries of a dictionary, and the
  element type that each element is packed by. Arrays of
  bytes and of strings, empty maybes and tuples get their
  type without a look at what they hold.

  Key definitions include:
    * `FlatValue`
    * `FlatValue.outline`
    * `FlatVariant.packBasic`
    * `FlatVariant.packPlainArray`
    * `FlatVariant.pack`
    * `FlatVariant.packAs`
    * `FlatVariant.ofEntries`
-/

------------------------------------------------------------
-- Host Values
------------------------------------------------------------

namespace GVariant

/- A host value whose variants are a type and a content. -/
inductive FlatValue
  | null
  | bool (value : Bool)
  | int (value : Int64)
  | uint (value : UInt64)
  | double (value : Double)
  | string (value : String)
  | bytes (content : List UInt8)
  | array (items : List FlatValue)
  | map (entries : List (String × FlatValue))
  | variant (value : FlatVariant)
  deriving Repr

namespace FlatValue

mutual

/-
  A value without what its variants hold, which is nothing
  that a conversion of the value looks at.
-/
def outline : FlatValue → Value
| .null => .null
| .bool value => .bool value
| .int value => .int value
| .uint value => .uint value
| .double value => .double value
| .string value => .string value
| .bytes content => .bytes content
| .array items => .array (outlineAll items)
| .map entries => .map (outlineEntries entries)
| .variant _ => .variant default

/- Several values without what their variants hold. -/
def outlineAll : List FlatValue → List Value
| [] => []
| item :: items => item.outline :: outlineAll items

/- Entries without what the variants in them hold. -/
def outlineEntries :
    List (String × FlatValue) → List (String × Value)
| [] => []
| (key, value) :: entries =>
    (key, value.outline) :: outlineEntries entries

end

end FlatValue

end GVariant

------------------------------------------------------------
-- Basic Types
------------------------------------------------------------

namespace GVariant

namespace FlatVariant

/- A value as a variant of a basic type. -/
def packBasic
    (value : Value)
    (type : BasicType) : Except Error FlatVariant :=
  match type with
  | .boolean => value.toBool.map boolean
  | .int kind => (value.toInteger kind).map (int kind)
  | .double => value.toDouble.map double
  | .text kind =>
      match value.toString with
      | .error e => .error e
      | .ok value => text kind value

/-
  The value of a key that is meant for a type of a class.
  Only a basic type has keys.
-/
def parseKey
    (key : String)
    (cls : TypeClass) : Except Error Value :=
  match cls with
  | .basic type => Value.parseKey key type
  | _ => .error (.simpleTypeExpected cls.char 0)

/- The bytes that a value stands for as a byte array. -/
def packBytes
    (conv : Conversion)
    (value : Value) : Except Error FlatVariant :=
  match value with
  | .bytes content => .ok (bytes content)
  | .string text => .ok (bytes (conv.codec.bytesOfText text))
  | .array items =>
      match items.mapM fun item => item.toInteger .byte with
      | .error e => .error e
      | .ok numbers =>
          .ok (bytes
            (numbers.map fun n => UInt8.ofNat n.toNat))
  | _ =>
      .error
        (value.mismatch "a byte buffer, string or array")

/- An array of strings. All items are checked first. -/
def packStrings (value : Value) : Except Error FlatVariant :=
  match value.toItems "an array of strings" with
  | .error e => .error e
  | .ok items =>
      match items.mapM Value.toString with
      | .error e => .error e
      | .ok texts => strings texts

/-
  A value as an array that is not packed item by item, by
  the class of its element type.
-/
def packPlainArray
    (conv : Conversion)
    (element : FlatType)
    (value : Value) : Except Error FlatVariant :=
  match element.cls with
  | .basic (.int .byte) => packBytes conv value
  | .basic (.text .string) => packStrings value
  | .dictEntry =>
      .error (value.mismatch "an object for a dictionary")
  | _ => .error (value.mismatch "an array")

end FlatVariant

namespace FlatType

/-
  Whether an array of items as elements of the type is not
  packed item by item.
-/
def isPackedWhole (element : FlatType) : Bool :=
  element.cls = .basic (.int .byte) ∨
    element.cls = .basic (.text .string) ∨
    element.cls = .dictEntry

/-
  A reader behind the opening brace of an entry type, for
  packing at a depth.
-/
def openEntry
    (type : FlatType)
    (limit depth : Nat) : Except Error Reader :=
  if limit < depth then
    .error (.maxNestingExceeded limit)
  else
    .ok (Reader.ofChars type.chars limit).pop.2

/- The key type that the type of the entries must have. -/
def keyOf (type : FlatType) : Except Error FlatType :=
  match type.key? with
  | some key => .ok key
  | none =>
      .error
        (.assertion
          (.other s!"'{type.signature}' has no key type"))

end FlatType

end GVariant

------------------------------------------------------------
-- Steps Of Packing
------------------------------------------------------------

namespace GVariant

namespace FlatVariant

/-
  Pack the key of an entry at a depth, whose opening brace
  is taken. It is one level deeper than the entry.
-/
def packEntryKey
    (key : Value)
    (depth : Nat)
    (r : Reader) : Step FlatVariant :=
  match r.expectKey with
  | .error e => (.error e, r)
  | .ok _ =>
      match r.readHead false (depth + 1) with
      | (.error e, r') => (.error e, r')
      | (.ok (_, .basic type), r') => (packBasic key type, r')
      | (.ok _, r') =>
          (.error (.simpleTypeExpected '}' r.position), r')

/-
  Pack a value that has no items where the class asks for
  something else than an array.
-/
def packSingle
    (value : FlatValue)
    (cls : TypeClass)
    (depth : Nat)
    (r : Reader) : Step FlatVariant :=
  match cls with
  | .basic type => (packBasic value.outline type, r)
  | .variant =>
      match value with
      | .variant child => (.ok (boxed child), r)
      | _ => (.error (value.outline.mismatch "a variant"), r)
  | .maybe =>
      match r.readAt (depth + 1) with
      | (.error e, r') => (.error e, r')
      | (.ok element, r') => (.ok (nothing element.flat), r')
  | .tuple =>
      (.error
        (value.outline.mismatch "an array of tuple members"),
        r)
  | .dictEntry =>
      (.error
        (value.outline.mismatch "a [key, value] pair"), r)
  | .array => (.error (value.outline.mismatch "an array"), r)

/-
  Pack a value that has no items of its own. As an array it
  can only be a byte buffer.
-/
def packLeaf
    (conv : Conversion)
    (value : FlatValue)
    (cls : TypeClass)
    (depth : Nat)
    (r : Reader) : Step FlatVariant :=
  match cls with
  | .array =>
      match r.readAt (depth + 1) with
      | (.error e, r') => (.error e, r')
      | (.ok element, r') =>
          (packPlainArray conv element.flat value.outline, r')
  | _ => packSingle value cls depth r

/- A variant in a number of maybes. -/
def justs : (count : Nat) → FlatVariant → FlatVariant
| 0, v => v
| count + 1, v => just (justs count v)

/- The result of a step in a number of maybes. -/
def wrapMaybes
    (count : Nat)
    (result : Step FlatVariant) : Step FlatVariant :=
  match result with
  | (.error e, r) => (.error e, r)
  | (.ok v, r) => (.ok (v.justs count), r)

/-
  Pack an entry at a depth, whose opening brace is taken:
  its key, then its value by a function, and then take the
  closing brace.
-/
def packEntryWith
    (packValue : Reader → Step FlatVariant)
    (key : Value)
    (depth : Nat)
    (r : Reader) : Step FlatVariant :=
  match packEntryKey key depth r with
  | (.error e, r') => (.error e, r')
  | (.ok key, r') =>
      match packValue r' with
      | (.error e, r'') => (.error e, r'')
      | (.ok value, r'') =>
          match r''.closeEntry with
          | (.error e, s) => (.error e, s)
          | (.ok (), s) => (dictEntry key value, s)

/- The tuple of the members that a step packed. -/
def tupleOf
    (result : Step (List FlatVariant)) : Step FlatVariant :=
  match result with
  | (.error e, r) => (.error e, r)
  | (.ok children, r) => (.ok (tuple children), r)

/-
  Read the element type of an array at a depth and pack a
  value as such an array. The function packs the elements
  one by one, where that is how the elements are packed.
-/
def packArray
    (conv : Conversion)
    (value : FlatValue)
    (packEach : FlatType → Except Error (List FlatVariant))
    (depth : Nat)
    (r : Reader) : Step FlatVariant :=
  match r.readAt (depth + 1) with
  | (.error e, r') => (.error e, r')
  | (.ok element, r') =>
      if element.flat.isPackedWhole then
        (packPlainArray conv element.flat value.outline, r')
      else
        match packEach element.flat with
        | .error e => (.error e, r')
        | .ok children => (array element.flat children, r')

/-
  Read the element type of an array at a depth and pack a
  map as such an array, which must be a dictionary. The
  function packs the entries one by one, by the class of
  their key type.
-/
def packDictionary
    (conv : Conversion)
    (value : FlatValue)
    (packEach :
      TypeClass → FlatType → Except Error (List FlatVariant))
    (depth : Nat)
    (r : Reader) : Step FlatVariant :=
  match r.readAt (depth + 1) with
  | (.error e, r') => (.error e, r')
  | (.ok element, r') =>
      if element.flat.cls = .dictEntry then
        match element.flat.keyOf with
        | .error e => (.error e, r')
        | .ok key =>
            match packEach key.cls element.flat with
            | .error e => (.error e, r')
            | .ok children => (array element.flat children, r')
      else
        (packPlainArray conv element.flat value.outline, r')

end FlatVariant

end GVariant

------------------------------------------------------------
-- Packing
------------------------------------------------------------

namespace GVariant

namespace FlatVariant

mutual

/- Pack a value at a depth. -/
def pack
    (conv : Conversion) :
    FlatValue → (depth : Nat) → Reader → Step FlatVariant
| .array items, depth, r =>
    match r.readHead true depth with
    | (.error e, r') => (.error e, r')
    | (.ok (count, cls), r') =>
        let depth' := depth + count
        wrapMaybes count <|
          match cls with
          | .tuple =>
              tupleOf (packMembers conv items (depth' + 1) r')
          | .dictEntry => packPair conv items depth' r'
          | .array =>
              packArray conv (.array items)
                (fun element =>
                  packElements conv items element (depth' + 1))
                depth' r'
          | cls => packSingle (.array items) cls depth' r'
| .map entries, depth, r =>
    match r.readHead true depth with
    | (.error e, r') => (.error e, r')
    | (.ok (count, cls), r') =>
        let depth' := depth + count
        wrapMaybes count <|
          match cls with
          | .array =>
              packDictionary conv (.map entries)
                (fun key element =>
                  packEntries conv entries key element
                    (depth' + 1))
                depth' r'
          | cls => packSingle (.map entries) cls depth' r'
| .null, depth, r =>
    match r.readHead false depth with
    | (.error e, r') => (.error e, r')
    | (.ok (_, cls), r') => packLeaf conv .null cls depth r'
| value, depth, r =>
    match r.readHead true depth with
    | (.error e, r') => (.error e, r')
    | (.ok (count, cls), r') =>
        wrapMaybes count
          (packLeaf conv value cls (depth + count) r')
termination_by structural value => value

/- Pack items as the members of a tuple. -/
def packMembers
    (conv : Conversion) :
    List FlatValue → (depth : Nat) → Reader →
      Step (List FlatVariant)
| [], depth, r =>
    match r.peek? with
    | none => (.error .unterminatedTuple, r)
    | some ')' => (.ok [], r.pop.2)
    | some _ => (.error (Conversion.missingMember depth r), r)
| item :: items, depth, r =>
    match r.peek? with
    | none => (.error .unterminatedTuple, r)
    | some ')' => (.ok [], r.pop.2)
    | some _ =>
        match pack conv item depth r with
        | (.error e, r') => (.error e, r')
        | (.ok child, r') =>
            match packMembers conv items depth r' with
            | (.error e, r'') => (.error e, r'')
            | (.ok children, r'') =>
                (.ok (child :: children), r'')
termination_by structural items => items

/- Pack two items as a dictionary entry. -/
def packPair
    (conv : Conversion) :
    List FlatValue → (depth : Nat) → Reader →
      Step FlatVariant
| [key, value], depth, r =>
    packEntryWith (pack conv value (depth + 1)) key.outline
      depth r
| items, _, r =>
    (.error
      ((FlatValue.array items).outline.mismatch
        "a [key, value] pair"), r)
termination_by structural items => items

/- Pack items as the elements of an array. -/
def packElements
    (conv : Conversion) :
    List FlatValue → (element : FlatType) →
      (depth : Nat) → Except Error (List FlatVariant)
| [], _, _ => .ok []
| item :: items, element, depth =>
    match (pack conv item depth
        (Reader.ofChars element.chars conv.maxDepth)).1 with
    | .error e => .error e
    | .ok child =>
        match packElements conv items element depth with
        | .error e => .error e
        | .ok children => .ok (child :: children)
termination_by structural items => items

/- Pack the entries of a map as dictionary entries. -/
def packEntries
    (conv : Conversion) :
    List (String × FlatValue) → (key : TypeClass) →
      (element : FlatType) → (depth : Nat) →
      Except Error (List FlatVariant)
| [], _, _, _ => .ok []
| (name, value) :: entries, key, element, depth =>
    match parseKey name key with
    | .error e => .error e
    | .ok name =>
        match element.openEntry conv.maxDepth depth with
        | .error e => .error e
        | .ok r =>
            match (packEntryWith
                (pack conv value (depth + 1))
                name depth r).1 with
            | .error e => .error e
            | .ok child =>
                match packEntries conv entries key element
                    depth with
                | .error e => .error e
                | .ok children => .ok (child :: children)
termination_by structural entries => entries

end

/-
  Pack a value by the single complete type at which a reader
  stands, and leave the rest of the signature in the reader.
-/
def packNext
    (conv : Conversion)
    (value : FlatValue)
    (r : Reader) : Step FlatVariant :=
  pack conv value 0 r

/-
  Pack a value by a signature of one single complete type.
  The signature is checked before the value is looked at.
-/
def packAs
    (conv : Conversion)
    (signature : String)
    (value : FlatValue) : Except Error FlatVariant := do
  let r := Reader.ofString signature conv.maxDepth
  let (checked, rest) := r.readType false
  let _ ← checked
  rest.expectEnd
  let (result, rest) := packNext conv value r
  let packed ← result
  rest.expectEnd
  return packed

end FlatVariant

end GVariant

------------------------------------------------------------
-- Ending A Dictionary
------------------------------------------------------------

namespace GVariant

namespace FlatVariant

/- The dictionary entry of a key and its boxed value. -/
def boxedEntry
    (entry : String × FlatVariant) :
    Except Error FlatVariant :=
  match string entry.1 with
  | .error e => .error e
  | .ok key => dictEntry key (boxed entry.2)

/-
  Keys with values as a dictionary of boxed values. No key
  may have a NUL.
-/
def ofEntries
    (entries : List (String × FlatVariant)) :
    Except Error FlatVariant :=
  match entries.mapM boxedEntry with
  | .error e => .error e
  | .ok children => array Ty.vardictEntry.flat children

end FlatVariant

end GVariant
