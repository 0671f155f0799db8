import GVariant.Conversion.Basic

/-
  Packing host values by a signature.

  A value is packed against the next type that a reader
  stands at. The recursion follows the value; the leading
  maybes of a type, which take no part of the value, are
  read in one go. The elements of an array are packed from
  readers over the element type that start anew, with the
  limit of the conversion, while their depth counts on.

  Key definitions include:
    * `Reader.readHead`
    * `Reader.expectKey`
    * `Conversion.packPlainArray`
    * `Conversion.packEntryWith`
    * `Conversion.packArray`
    * `Conversion.packDictionary`
    * `Conversion.pack`
    * `Conversion.packNext`
    * `Conversion.packAs`
-/

------------------------------------------------------------
-- Type Characters
------------------------------------------------------------

namespace GVariant

namespace Reader

/-
  Take the leading characters of a type that is packed at
  a depth: any number of maybes, if `maybes` is set, and
  then the class of what is in them. The number of maybes
  is returned with it, and is the number of levels that
  they nest.
-/
def readHeadFrom
    (limit : Nat)
    (maybes : Bool) :
    (rest : List Char) → (position depth count : Nat) →
      Step (Nat × TypeClass)
| [], position, depth, _ =>
    if limit < depth then
      (.error (.maxNestingExceeded limit),
        ⟨[], position, limit⟩)
    else
      (.error .emptySignature, ⟨[], position, limit⟩)
| c :: rest, position, depth, count =>
    if limit < depth then
      (.error (.maxNestingExceeded limit),
        ⟨c :: rest, position, limit⟩)
    else
      let position' := position + c.utf8Size
      match TypeClass.ofChar? c with
      | none =>
          (.error (.unexpectedCharacter c position),
            ⟨rest, position', limit⟩)
      | some cls =>
          if cls = .maybe ∧ maybes then
            readHeadFrom limit maybes rest position'
              (depth + 1) (count + 1)
          else
            (.ok (count, cls), ⟨rest, position', limit⟩)

/-
  The head of the next type for a value. An absent value
  is an empty maybe, so the first maybe is its type.
-/
def readHead
    (r : Reader)
    (maybes : Bool)
    (depth : Nat) : Step (Nat × TypeClass) :=
  readHeadFrom r.maxDepth maybes r.rest r.position depth 0

/-
  Check that the next type can be the key of an entry. It
  stays unread. The closing brace stands for the end of the
  signature.
-/
def expectKey (r : Reader) : Except Error Unit :=
  let c := r.peek?.getD '}'
  match TypeClass.ofChar? c with
  | some (.basic _) => .ok ()
  | _ => .error (.simpleTypeExpected c r.position)

end Reader

namespace Ty

/-
  A reader behind the opening brace of an entry type, for
  packing at a depth.
-/
def openEntry
    (type : Ty)
    (limit depth : Nat) : Except Error Reader :=
  if limit < depth then
    .error (.maxNestingExceeded limit)
  else
    .ok (Reader.ofChars type.chars limit).pop.2

/-
  Whether an array of items as elements of the type is not
  packed item by item.
-/
def isPackedWhole (element : Ty) : Bool :=
  element = .byte ∨ element = .string ∨
    element.cls = .dictEntry

end Ty

namespace Variant

/- A variant in a number of maybes. -/
def justs : (count : Nat) → Variant → Variant
| 0, v => v
| count + 1, v => .just (justs count v)

end Variant

end GVariant

------------------------------------------------------------
-- Arrays Of Basic Types
------------------------------------------------------------

namespace GVariant

namespace Conversion

/- The bytes that a value stands for as a byte array. -/
def packBytes
    (conv : Conversion)
    (value : Value) : Except Error Variant :=
  match value with
  | .bytes content => .ok (.bytes content)
  | .string text => .ok (.bytes (conv.codec.bytesOfText text))
  | .array items =>
      match items.mapM fun item => item.toInteger .byte with
      | .error e => .error e
      | .ok numbers =>
          .ok (.bytes
            (numbers.map fun n => UInt8.ofNat n.toNat))
  | _ =>
      .error
        (value.mismatch "a byte buffer, string or array")

/- An array of strings. All items are checked first. -/
def packStrings (value : Value) : Except Error Variant :=
  match value.toItems "an array of strings" with
  | .error e => .error e
  | .ok items =>
      match items.mapM Value.toString with
      | .error e => .error e
      | .ok texts => Variant.strings texts

/-
  A value as an array that is not packed item by item: bytes
  and strings are taken as a whole, and no other array can
  be made of it.
-/
def packPlainArray
    (conv : Conversion)
    (element : Ty)
    (value : Value) : Except Error Variant :=
  if element = .byte then
    conv.packBytes value
  else if element = .string then
    packStrings value
  else if element.cls = .dictEntry then
    .error (value.mismatch "an object for a dictionary")
  else
    .error (value.mismatch "an array")

end Conversion

end GVariant

------------------------------------------------------------
-- Packing
------------------------------------------------------------

namespace GVariant

namespace Conversion

/-
  Pack the key of an entry at a depth, whose opening brace
  is taken. It is one level deeper than the entry.
-/
def packEntryKey
    (key : Value)
    (depth : Nat)
    (r : Reader) : Step Variant :=
  match r.expectKey with
  | .error e => (.error e, r)
  | .ok _ =>
      match r.readHead false (depth + 1) with
      | (.error e, r') => (.error e, r')
      | (.ok (_, .basic type), r') => (key.packBasic type, r')
      | (.ok _, r') =>
          (.error (.simpleTypeExpected '}' r.position), r')

/-
  Pack a value that has no items where the class asks for
  something else than an array.
-/
def packFlat
    (value : Value)
    (cls : TypeClass)
    (depth : Nat)
    (r : Reader) : Step Variant :=
  match cls with
  | .basic type => (value.packBasic type, r)
  | .variant =>
      match value with
      | .variant child => (.ok (.boxed child), r)
      | _ => (.error (value.mismatch "a variant"), r)
  | .maybe =>
      match r.readAt (depth + 1) with
      | (.error e, r') => (.error e, r')
      | (.ok element, r') => (.ok (.nothing element), r')
  | .tuple =>
      (.error (value.mismatch "an array of tuple members"), r)
  | .dictEntry =>
      (.error (value.mismatch "a [key, value] pair"), r)
  | .array => (.error (value.mismatch "an array"), r)

/-
  Pack a value that has no items of its own. As an array it
  can only be a byte buffer.
-/
def packLeaf
    (conv : Conversion)
    (value : Value)
    (cls : TypeClass)
    (depth : Nat)
    (r : Reader) : Step Variant :=
  match cls with
  | .array =>
      match r.readAt (depth + 1) with
      | (.error e, r') => (.error e, r')
      | (.ok element, r') =>
          (conv.packPlainArray element value, r')
  | _ => packFlat value cls depth r

/- The result of a step in a number of maybes. -/
def wrapMaybes
    (count : Nat)
    (result : Step Variant) : Step Variant :=
  match result with
  | (.error e, r) => (.error e, r)
  | (.ok v, r) => (.ok (v.justs count), r)

/-
  The failure of a tuple that has more members than the
  value has items. It names the type of the first member
  without item.
-/
def missingMember (depth : Nat) (r : Reader) : Error :=
  match (r.readAt depth).1 with
  | .error e => e
  | .ok member =>
      .typeMismatch
        s!"a tuple member of type '{member.signature}'"
        "end of array"

/-
  Pack an entry at a depth, whose opening brace is taken:
  its key, then its value by a function, and then take the
  closing brace.
-/
def packEntryWith
    (packValue : Reader → Step Variant)
    (key : Value)
    (depth : Nat)
    (r : Reader) : Step Variant :=
  match packEntryKey key depth r with
  | (.error e, r') => (.error e, r')
  | (.ok key, r') =>
      match packValue r' with
      | (.error e, r'') => (.error e, r'')
      | (.ok value, r'') =>
          match r''.closeEntry with
          | (.error e, s) => (.error e, s)
          | (.ok (), s) => (Variant.dictEntry key value, s)

/- The tuple of the members that a step packed. -/
def tupleOf (result : Step (List Variant)) : Step Variant :=
  match result with
  | (.error e, r) => (.error e, r)
  | (.ok children, r) => (.ok (.tuple children), r)

/-
  Read the element type of an array at a depth and pack a
  value as such an array. The function packs the elements
  one by one, where that is how the elements are packed.
-/
def packArray
    (conv : Conversion)
    (value : Value)
    (packEach : Ty → Except Error (List Variant))
    (depth : Nat)
    (r : Reader) : Step Variant :=
  match r.readAt (depth + 1) with
  | (.error e, r') => (.error e, r')
  | (.ok element, r') =>
      if element.isPackedWhole then
        (conv.packPlainArray element value, r')
      else
        match packEach element with
        | .error e => (.error e, r')
        | .ok children => (Variant.array element children, r')

/-
  Read the element type of an array at a depth and pack a
  map as such an array, which must be a dictionary. The
  function packs the entries one by one.
-/
def packDictionary
    (conv : Conversion)
    (value : Value)
    (packEach : BasicType → Ty → Except Error (List Variant))
    (depth : Nat)
    (r : Reader) : Step Variant :=
  match r.readAt (depth + 1) with
  | (.error e, r') => (.error e, r')
  | (.ok (.dictEntry key type), r') =>
      match packEach key (.dictEntry key type) with
      | .error e => (.error e, r')
      | .ok children =>
          (Variant.array (.dictEntry key type) children, r')
  | (.ok element, r') => (conv.packPlainArray element value, r')

mutual

/- Pack a value at a depth. -/
def pack
    (conv : Conversion) :
    Value → (depth : Nat) → Reader → Step Variant
| .array items, depth, r =>
    match r.readHead true depth with
    | (.error e, r') => (.error e, r')
    | (.ok (count, cls), r') =>
        let depth' := depth + count
        wrapMaybes count <|
          match cls with
          | .tuple =>
              tupleOf (packMembers conv items (depth' + 1) r')
          | .dictEntry => packPair conv items depth' r'
          | .array =>
              packArray conv (.array items)
                (fun element =>
                  packElements conv items element (depth' + 1))
                depth' r'
          | cls => packFlat (.array items) cls depth' r'
| .map entries, depth, r =>
    match r.readHead true depth with
    | (.error e, r') => (.error e, r')
    | (.ok (count, cls), r') =>
        let depth' := depth + count
        wrapMaybes count <|
          match cls with
          | .array =>
              packDictionary conv (.map entries)
                (fun key element =>
                  packEntries conv entries key element
                    (depth' + 1))
                depth' r'
          | cls => packFlat (.map entries) cls depth' r'
| .null, depth, r =>
    match r.readHead false depth with
    | (.error e, r') => (.error e, r')
    | (.ok (_, cls), r') => packLeaf conv .null cls depth r'
| value, depth, r =>
    match r.readHead true depth with
    | (.error e, r') => (.error e, r')
    | (.ok (count, cls), r') =>
        wrapMaybes count
          (packLeaf conv value cls (depth + count) r')
termination_by structural value => value

/- Pack items as the members of a tuple. -/
def packMembers
    (conv : Conversion) :
    List Value → (depth : Nat) → Reader →
      Step (List Variant)
| [], depth, r =>
    match r.peek? with
    | none => (.error .unterminatedTuple, r)
    | some ')' => (.ok [], r.pop.2)
    | some _ => (.error (missingMember depth r), r)
| item :: items, depth, r =>
    match r.peek? with
    | none => (.error .unterminatedTuple, r)
    | some ')' => (.ok [], r.pop.2)
    | some _ =>
        match pack conv item depth r with
        | (.error e, r') => (.error e, r')
        | (.ok child, r') =>
            match packMembers conv items depth r' with
            | (.error e, r'') => (.error e, r'')
            | (.ok children, r'') =>
                (.ok (child :: children), r'')
termination_by structural items => items

/- Pack two items as a dictionary entry. -/
def packPair
    (conv : Conversion) :
    List Value → (depth : Nat) → Reader → Step Variant
| [key, value], depth, r =>
    packEntryWith (pack conv value (depth + 1)) key depth r
| items, _, r =>
    (.error
      ((Value.array items).mismatch "a [key, value] pair"), r)
termination_by structural items => items

/- Pack items as the elements of an array. -/
def packElements
    (conv : Conversion) :
    List Value → (element : Ty) → (depth : Nat) →
      Except Error (List Variant)
| [], _, _ => .ok []
| item :: items, element, depth =>
    match (pack conv item depth
        (Reader.ofChars element.chars conv.maxDepth)).1 with
    | .error e => .error e
    | .ok child =>
        match packElements conv items element depth with
        | .error e => .error e
        | .ok children => .ok (child :: children)
termination_by structural items => items

/- Pack the entries of a map as dictionary entries. -/
def packEntries
    (conv : Conversion) :
    List (String × Value) → (key : BasicType) →
      (element : Ty) → (depth : Nat) →
      Except Error (List Variant)
| [], _, _, _ => .ok []
| (name, value) :: entries, key, element, depth =>
    match Value.parseKey name key with
    | .error e => .error e
    | .ok name =>
        match element.openEntry conv.maxDepth depth with
        | .error e => .error e
        | .ok r =>
            match (packEntryWith
                (pack conv value (depth + 1))
                name depth r).1 with
            | .error e => .error e
            | .ok child =>
                match packEntries conv entries key element
                    depth with
                | .error e => .error e
                | .ok children => .ok (child :: children)
termination_by structural entries => entries

end

/-
  Pack a value by the single complete type at which a reader
  stands, and leave the rest of the signature in the reader.
-/
def packNext
    (conv : Conversion)
    (value : Value)
    (r : Reader) : Step Variant :=
  pack conv value 0 r

/-
  Pack a value by a signature of one single complete type.
  The signature is checked before the value is looked at.
-/
def packAs
    (conv : Conversion)
    (signature : String)
    (value : Value) : Except Error Variant := do
  let r := Reader.ofString signature conv.maxDepth
  let (checked, rest) := r.readType false
  let _ ← checked
  rest.expectEnd
  let (result, rest) := conv.packNext value r
  let packed ← result
  rest.expectEnd
  return packed

end Conversion

end GVariant
