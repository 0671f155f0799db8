import GVariant.Binary.Decode

/-
  The decoder as a machine runs it.

  Numbers are words up to a greatest one, and each step that
  a machine does not survive is a trap: a slice beyond the
  data, a negative difference, a division by zero, a number
  that is no word. Everything that the decoder computes of
  offsets, positions, alignments and sizes is checked here,
  and all layouts are computed anew from the types.

  A difference or a slice that the decoder looks at before
  it is taken is no trap but an error by its text. A framing
  offset that is not there, or is no word, would be such an
  error too; it is a trap here, since these branches are
  never taken.

  Key definitions include:
    * `Trap`
    * `Checked`
    * `Checked.alignUp`
    * `Checked.layout`
    * `Checked.offsetWidth`
    * `Checked.decodeArray`
    * `Checked.decodeTuple`
    * `Checked.decode`
-/

------------------------------------------------------------
-- Traps
------------------------------------------------------------

namespace GVariant

/- What a machine does not survive. -/
inductive Trap
  | outOfBounds
  | negative
  | zeroDivisor
  | overflow
  | unreachable
  deriving DecidableEq, Repr

/-
  A computation that traps, or fails with an error, or has a
  result.
-/
abbrev Checked (α : Type) :=
  ExceptT Error (Except Trap) α

namespace Checked

variable {α : Type}

/- A computation that traps. -/
def trap (cause : Trap) : Checked α :=
  ExceptT.mk (.error cause)

/- A computation that does not trap. -/
def ofResult (result : Except Error α) : Checked α :=
  ExceptT.mk (.ok result)

/- One that fails only for a fault in the data. -/
def ofSlice (result : Except DataFault α) : Checked α :=
  match result with
  | .error fault => throw (.data fault)
  | .ok a => pure a

end Checked

end GVariant

------------------------------------------------------------
-- Words And Slices
------------------------------------------------------------

namespace GVariant

namespace Checked

/- The sum of two words. -/
def add (most a b : Nat) : Checked Nat :=
  if a + b ≤ most then pure (a + b) else trap .overflow

/- The product of two words. -/
def mul (most a b : Nat) : Checked Nat :=
  if a * b ≤ most then pure (a * b) else trap .overflow

/- The difference of two words. -/
def sub (a b : Nat) : Checked Nat :=
  if b ≤ a then pure (a - b) else trap .negative

/- The quotient of two words. -/
def div (a b : Nat) : Checked Nat :=
  if b = 0 then trap .zeroDivisor else pure (a / b)

/- The remainder of two words. -/
def rem (a b : Nat) : Checked Nat :=
  if b = 0 then trap .zeroDivisor else pure (a % b)

/- The data from a position on. -/
def sliceFrom
    (data : List UInt8)
    (start : Nat) : Checked (List UInt8) :=
  if start ≤ data.length then
    pure (data.drop start)
  else
    trap .outOfBounds

/- The data up to a position. -/
def sliceTo
    (data : List UInt8)
    (stop : Nat) : Checked (List UInt8) :=
  if stop ≤ data.length then
    pure (data.take stop)
  else
    trap .outOfBounds

/- The data between two positions. -/
def sliceBetween
    (data : List UInt8)
    (start stop : Nat) : Checked (List UInt8) :=
  if start ≤ stop ∧ stop ≤ data.length then
    pure ((data.drop start).take (stop - start))
  else
    trap .outOfBounds

/- All whole pieces of a size. -/
def chunks
    (size : Nat)
    (data : List UInt8) : Checked (List (List UInt8)) :=
  if size = 0 then
    trap .zeroDivisor
  else
    pure (Framing.chunks size data)

/- The number in the first bytes, of which a word has eight. -/
def readOffset
    (most : Nat)
    (data : List UInt8)
    (size : Nat) : Checked Nat :=
  if 8 < size then
    trap .outOfBounds
  else if size ≤ data.length then
    let offset := Bytes.ofLittleEndian (data.take size)
    if offset ≤ most then pure offset else trap .unreachable
  else
    trap .unreachable

/- The position of the last zero byte. -/
def lastZero? : List UInt8 → Option Nat
| [] => none
| byte :: bytes =>
    match lastZero? bytes with
    | some position => some (position + 1)
    | none => if byte = 0 then some 0 else none

end Checked

end GVariant

------------------------------------------------------------
-- Layouts
------------------------------------------------------------

namespace GVariant

namespace Checked

/- The next multiple of an alignment. -/
def alignUp (most offset alignment : Nat) : Checked Nat := do
  let excess ← rem offset alignment
  if excess = 0 then
    pure offset
  else
    let raised ← add most offset alignment
    sub raised excess

/- The layout of members, extended by that of one more. -/
def extend
    (most : Nat)
    (whole member : Layout) : Checked Layout :=
  let alignment := max whole.alignment member.alignment
  match whole.fixedSize, member.fixedSize with
  | some size, some memberSize => do
      let start ← alignUp most size member.alignment
      let stop ← add most start memberSize
      pure ⟨alignment, some stop⟩
  | _, _ => pure ⟨alignment, none⟩

/- The layout of a complete tuple. -/
def close (most : Nat) (whole : Layout) : Checked Layout :=
  match whole.fixedSize with
  | some 0 => pure (.fixed 1)
  | some size => do
      let rounded ← alignUp most size whole.alignment
      pure ⟨whole.alignment, some rounded⟩
  | none => pure (.varying whole.alignment)

mutual

/- The layout of the values of a type. -/
def layout (most : Nat) : Ty → Checked Layout
| .basic type => pure type.layout
| .variant => pure (.varying 8)
| .maybe element => do
    let info ← layout most element
    pure (.varying info.alignment)
| .array element => do
    let info ← layout most element
    pure (.varying info.alignment)
| .tuple items => do
    let whole ← layoutItems most ⟨1, some 0⟩ items
    close most whole
| .dictEntry key value => do
    let whole ← extend most ⟨1, some 0⟩ key.layout
    let member ← layout most value
    let whole ← extend most whole member
    close most whole

/- A layout extended by those of the items of a tuple. -/
def layoutItems
    (most : Nat)
    (whole : Layout) : List Ty → Checked Layout
| [] => pure whole
| item :: items => do
    let member ← layout most item
    let whole ← extend most whole member
    layoutItems most whole items

end

end Checked

end GVariant

------------------------------------------------------------
-- Widths Of Offsets
------------------------------------------------------------

namespace GVariant

namespace Checked

/-
  The width of the offsets of a container with `body` bytes
  of members and `count` offsets. A size is computed only if
  no smaller one was enough.
-/
def offsetWidth
    (most body count : Nat) : Checked Nat :=
  if count = 0 then
    pure 0
  else do
    let narrow ← add most body count
    if narrow ≤ 0xFF then
      pure 1
    else do
      let pairs ← mul most 2 count
      let medium ← add most body pairs
      if medium ≤ 0xFFFF then
        pure 2
      else do
        let fours ← mul most 4 count
        let wide ← add most body fours
        if wide ≤ 0xFFFFFFFF then
          pure 4
        else
          pure 8

end Checked

end GVariant

------------------------------------------------------------
-- Boxes And Maybes
------------------------------------------------------------

namespace GVariant

namespace Checked

/- The type of a box and the bytes of its content. -/
def openBox
    (most limit depth : Nat)
    (data : List UInt8) : Checked (Ty × List UInt8) :=
  match lastZero? data with
  | none => throw (.data .noTypeString)
  | some separator => do
      let behind ← add most separator 1
      let typeBytes ← sliceFrom data behind
      match Utf8.decode typeBytes with
      | .error fault =>
          throw (.data (.invalidTypeString fault))
      | .ok typeString => do
          let deeper ← add most depth 1
          match (Reader.ofString typeString limit).readAt
              deeper with
          | (.error e, _) => throw e
          | (.ok type, r) => do
              ofResult r.expectEnd
              let content ← sliceTo data separator
              pure (type, content)

/- The bytes of the content of a maybe that is present. -/
def openMaybe
    (most : Nat)
    (element : Ty)
    (data : List UInt8) : Checked (List UInt8) := do
  let info ← layout most element
  if info.isFixed then
    pure data
  else
    match Bytes.splitLast? data with
    | some (content, 0) => pure content
    | _ => throw (.data .unterminatedMaybe)

end Checked

end GVariant

------------------------------------------------------------
-- Arrays
------------------------------------------------------------

namespace GVariant

namespace Checked

/- Decode pieces of a fixed size one by one. -/
def decodePieces
    (decodeOne : List UInt8 → Checked Variant) :
    List (List UInt8) → Checked (List Variant)
| [] => pure []
| piece :: pieces => do
    let child ← decodeOne piece
    let children ← decodePieces decodeOne pieces
    pure (child :: children)

/-
  Decode the elements that end at the offsets of a table,
  from a position on and up to where the table starts.
-/
def decodeElements
    (most : Nat)
    (decodeOne : List UInt8 → Checked Variant)
    (alignment width : Nat)
    (data : List UInt8)
    (tableStart : Nat) :
    (position : Nat) → (offsets : List (List UInt8)) →
      Checked (List Variant)
| _, [] => pure []
| position, offset :: offsets => do
    let stop ← readOffset most offset width
    let start ← alignUp most position alignment
    if stop < start ∨ tableStart < stop then
      throw (.data (.elementDisorder start stop))
    else
      let content ← sliceBetween data start stop
      let child ← decodeOne content
      let children ←
        decodeElements most decodeOne alignment width data
          tableStart stop offsets
      pure (child :: children)

/- The elements of an array that has a table. -/
def decodeVarying
    (most : Nat)
    (decodeOne : List UInt8 → Checked Variant)
    (alignment : Nat)
    (data : List UInt8) : Checked (List Variant) := do
  let width := Framing.widthOf data.length
  let lastOffset ← sub data.length width
  let lastBytes ← sliceFrom data lastOffset
  let tableStart ← readOffset most lastBytes width
  let table ←
    ofSlice (Framing.slice data tableStart data.length)
  let excess ← rem table.length width
  if excess ≠ 0 then
    throw (.data (.unevenTable table.length width))
  else
    let _count ← div table.length width
    let offsets ← chunks width table
    decodeElements most decodeOne alignment width data
      tableStart 0 offsets

/- The elements of an array. -/
def decodeArray
    (most : Nat)
    (decodeOne : List UInt8 → Checked Variant)
    (element : Ty)
    (data : List UInt8) : Checked (List Variant) := do
  let info ← layout most element
  match info.fixedSize with
  | some size => do
      let excess ← rem data.length size
      if excess ≠ 0 then
        throw (.data (.unevenArray data.length size))
      else
        let pieces ← chunks size data
        decodePieces decodeOne pieces
  | none =>
      if data.isEmpty then
        pure []
      else
        decodeVarying most decodeOne info.alignment data

end Checked

end GVariant

------------------------------------------------------------
-- Tuples
------------------------------------------------------------

namespace GVariant

namespace Checked

/-
  Where a member that starts at a position ends, and the
  number of offsets read after it.
-/
def memberEnd
    (most : Nat)
    (data : List UInt8)
    (width used start : Nat)
    (member : Layout)
    (isLast : Bool) : Checked (Nat × Nat) :=
  match member.fixedSize with
  | some size => do
      let stop ← add most start size
      pure (stop, used)
  | none =>
      if isLast then do
        let table ← mul most width used
        if table ≤ data.length then
          pure (data.length - table, used)
        else
          throw (.data .tableTooLarge)
      else do
        let used ← add most used 1
        let table ← mul most width used
        if table ≤ data.length then
          let rest ← sliceFrom data (data.length - table)
          let stop ← readOffset most rest width
          pure (stop, used)
        else
          throw (.data .tableTooLarge)

/- Decode the members of a tuple from a position on. -/
def decodeMembers
    (most : Nat)
    (decodeOne : Ty → List UInt8 → Checked Variant)
    (data : List UInt8)
    (width : Nat) :
    (used position : Nat) → List Ty → Checked (List Variant)
| _, _, [] => pure []
| used, position, item :: items => do
    let info ← layout most item
    let start ← alignUp most position info.alignment
    let (stop, used) ←
      memberEnd most data width used start info items.isEmpty
    let content ← ofSlice (Framing.slice data start stop)
    let child ← decodeOne item content
    let children ←
      decodeMembers most decodeOne data width used stop items
    pure (child :: children)

/- The members of a tuple or a dictionary entry. -/
def decodeTuple
    (most : Nat)
    (decodeOne : Ty → List UInt8 → Checked Variant)
    (type : Ty)
    (data : List UInt8) : Checked (List Variant) := do
  let info ← layout most type
  if info.fixedSize.any fun size => data.length ≠ size then
    throw (.data (.wrongSize data.length type.signature))
  else
    decodeMembers most decodeOne data
      (Framing.widthOf data.length) 0 0 type.items

end Checked

end GVariant

------------------------------------------------------------
-- Variants
------------------------------------------------------------

namespace GVariant

namespace Checked

/-
  Read a value at a depth that may have as many levels as
  given, itself included. The depth and the levels make up
  one more than the limit.
-/
def decodeLevels
    (most : Nat)
    (order : ByteOrder)
    (limit : Nat) :
    (levels depth : Nat) → Ty → List UInt8 → Checked Variant
| 0, _, _, _ => throw (.maxNestingExceeded limit)
| levels + 1, depth, type, data =>
    let decodeOne (type : Ty) (content : List UInt8) :
        Checked Variant := do
      let deeper ← add most depth 1
      decodeLevels most order limit levels deeper type content
    match type with
    | .basic type =>
        ofResult (Variant.decodeBasic order type data)
    | .variant => do
        let (type, content) ← openBox most limit depth data
        let child ← decodeOne type content
        pure (.boxed child)
    | .maybe element =>
        if data.isEmpty then
          pure (.nothing element)
        else do
          let content ← openMaybe most element data
          let child ← decodeOne element content
          pure (.just child)
    | .array element =>
        if element = .byte then
          pure (.bytes data)
        else do
          let children ←
            decodeArray most (decodeOne element) element data
          pure (.arrayOf element children)
    | .tuple items => do
        let children ←
          decodeTuple most decodeOne (.tuple items) data
        pure (.tuple children)
    | .dictEntry key value => do
        let children ←
          decodeTuple most decodeOne (.dictEntry key value)
            data
        match children with
        | [.scalar key, value] => pure (.entry key value)
        | _ =>
            throw
              (.assertion
                (.wrongContent (.dictEntry key value)))

/- Read a value of a type from serialised data. -/
def decode
    (most : Nat)
    (type : Ty)
    (data : List UInt8)
    (order : ByteOrder)
    (limit : Nat) : Checked Variant :=
  decodeLevels most order limit (limit + 1) 0 type data

end Checked

end GVariant
