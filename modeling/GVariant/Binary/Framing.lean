import GVariant.Ty.Layout
import GVariant.Error
import GVariant.Binary.Bytes

/-
  Placing members in a container, and finding them again.

  Members are placed at multiples of their alignment. The
  ends of members of no fixed size are recorded in a table
  of framing offsets at the end of the container, little
  endian and as wide as the size of the container demands.
  An array of such members records all ends in order; a
  tuple records them in reverse order and leaves out its
  last member.

  Finding members gives a list of slices. The list stops at
  the first slice that does not exist, with the fault in its
  place.

  Key definitions include:
    * `Framing.offsetWidth`
    * `Framing.widthOf`
    * `Framing.Part`
    * `Framing.encodeArray`
    * `Framing.encodeTuple`
    * `Framing.slice`
    * `Framing.arraySlices`
    * `Framing.tupleSlices`
-/

------------------------------------------------------------
-- Offset Widths
------------------------------------------------------------

namespace GVariant

namespace Framing

/-
  The width of the offsets of a container with `body` bytes
  of members and `count` offsets: the least that can hold
  the size of the whole.
-/
def offsetWidth (body count : Nat) : Nat :=
  if count = 0 then
    0
  else if body + count ≤ 0xFF then
    1
  else if body + 2 * count ≤ 0xFFFF then
    2
  else if body + 4 * count ≤ 0xFFFFFFFF then
    4
  else
    8

/- The width of the offsets in a container of `length` bytes. -/
def widthOf (length : Nat) : Nat :=
  if length = 0 then
    0
  else if length ≤ 0xFF then
    1
  else if length ≤ 0xFFFF then
    2
  else if length ≤ 0xFFFFFFFF then
    4
  else
    8

end Framing

end GVariant

------------------------------------------------------------
-- Placing Members
------------------------------------------------------------

namespace GVariant

namespace Framing

/- A serialised member and the layout of its type. -/
structure Part where
  layout : Layout
  bytes : List UInt8

/- Zeros up to the next multiple of an alignment. -/
def padding (position alignment : Nat) : List UInt8 :=
  List.replicate (alignUp position alignment - position) 0

/-
  The members placed one after another from a position on,
  as chunks of bytes, and the position where each ends.
-/
def place :
    (position : Nat) → List Part →
      List (List UInt8) × List Nat
| _, [] => ([], [])
| position, part :: parts =>
    let pad := padding position part.layout.alignment
    let stop := position + pad.length + part.bytes.length
    let (chunks, stops) := place stop parts
    (pad :: part.bytes :: chunks, stop :: stops)

/- The members placed from the start of their container. -/
def body (parts : List Part) : List UInt8 :=
  (place 0 parts).1.flatten

/- The positions where the members end. -/
def ends (parts : List Part) : List Nat :=
  (place 0 parts).2

/- A body followed by its table of offsets. -/
def withTable
    (content : List UInt8)
    (offsets : List Nat) : List UInt8 :=
  let width := offsetWidth content.length offsets.length
  content ++ offsets.flatMap (Bytes.littleEndian width)

/- An array whose elements have the given layout. -/
def encodeArray
    (element : Layout)
    (items : List (List UInt8)) : List UInt8 :=
  if element.isFixed then
    items.flatten
  else
    let parts := items.map (Part.mk element)
    withTable (body parts) (ends parts)

/-
  The ends that a tuple records: those of the members of no
  fixed size except the last member.
-/
def recordedEnds : List Part → List Nat → List Nat
| part :: parts@(_ :: _), stop :: stops =>
    if part.layout.isFixed then
      recordedEnds parts stops
    else
      stop :: recordedEnds parts stops
| _, _ => []

/- A tuple or dictionary entry of the given layout. -/
def encodeTuple
    (whole : Layout)
    (parts : List Part) : List UInt8 :=
  let content := body parts
  match whole.fixedSize with
  | some size =>
      content ++ List.replicate (size - content.length) 0
  | none =>
      withTable content
        (recordedEnds parts (ends parts)).reverse

end Framing

end GVariant

------------------------------------------------------------
-- Slices
------------------------------------------------------------

namespace GVariant

namespace Framing

/- Bytes that were found, or why they do not exist. -/
abbrev Slice :=
  Except DataFault (List UInt8)

/- The bytes from `start` up to but not at `stop`. -/
def slice
    (data : List UInt8)
    (start stop : Nat) : Slice :=
  if start ≤ stop ∧ stop ≤ data.length then
    .ok ((data.drop start).take (stop - start))
  else
    .error (.childOutside start stop data.length)

/- The offset of a width at a position. -/
def readOffset
    (data : List UInt8)
    (position width : Nat) : Except DataFault Nat :=
  if position + width ≤ data.length then
    .ok (Bytes.ofLittleEndian
      ((data.drop position).take width))
  else
    .error .offsetOutOfRange

/- Bytes cut into pieces of a positive size. -/
def chunksFrom (size : Nat) :
    (count : Nat) → List UInt8 → List (List UInt8)
| 0, _ => []
| count + 1, data =>
    data.take size :: chunksFrom size count (data.drop size)

/- All whole pieces of a size. -/
def chunks
    (size : Nat)
    (data : List UInt8) : List (List UInt8) :=
  chunksFrom size (data.length / size) data

end Framing

end GVariant

------------------------------------------------------------
-- Finding The Elements Of An Array
------------------------------------------------------------

namespace GVariant

namespace Framing

/-
  The elements that end at the given offsets. `data` holds
  the bytes from `start` on, and no element may reach beyond
  `limit`.
-/
def elementSlices
    (alignment limit : Nat) :
    (data : List UInt8) → (start : Nat) →
      (offsets : List Nat) → List Slice
| _, _, [] => []
| data, start, stop :: offsets =>
    let begin := alignUp start alignment
    if stop < begin ∨ limit < stop then
      [.error (.elementDisorder begin stop)]
    else
      let rest := data.drop (begin - start)
      .ok (rest.take (stop - begin)) ::
        elementSlices alignment limit
          (rest.drop (stop - begin)) stop offsets

/- The elements of an array of no fixed size. -/
def varyingSlices
    (alignment : Nat)
    (data : List UInt8) : Except DataFault (List Slice) :=
  let width := widthOf data.length
  match readOffset data (data.length - width) width with
  | .error fault => .error fault
  | .ok last =>
      match slice data last data.length with
      | .error fault => .error fault
      | .ok table =>
          if table.length % width ≠ 0 then
            .error (.unevenTable table.length width)
          else
            let offsets :=
              (chunks width table).map Bytes.ofLittleEndian
            .ok (elementSlices alignment last data 0 offsets)

/- The elements of an array with the given layout. -/
def arraySlices
    (element : Layout)
    (data : List UInt8) : Except DataFault (List Slice) :=
  match element.fixedSize with
  | some size =>
      if data.length % size ≠ 0 then
        .error (.unevenArray data.length size)
      else
        .ok ((chunks size data).map .ok)
  | none =>
      if data.isEmpty then
        .ok []
      else
        varyingSlices element.alignment data

end Framing

end GVariant

------------------------------------------------------------
-- Finding The Members Of A Tuple
------------------------------------------------------------

namespace GVariant

namespace Framing

/-
  Where a member ends, and the number of offsets read after
  it. `used` offsets have been read before.
-/
def memberEnd
    (data : List UInt8)
    (width used position : Nat)
    (member : Layout)
    (isLast : Bool) : Except DataFault (Nat × Nat) :=
  match member.fixedSize with
  | some size => .ok (position + size, used)
  | none =>
      if isLast then
        if width * used ≤ data.length then
          .ok (data.length - width * used, used)
        else
          .error .tableTooLarge
      else if width * (used + 1) ≤ data.length then
        match readOffset data
            (data.length - width * (used + 1)) width with
        | .error fault => .error fault
        | .ok stop => .ok (stop, used + 1)
      else
        .error .tableTooLarge

/- The members of a tuple from a position on. -/
def memberSlices
    (data : List UInt8)
    (width : Nat) :
    (used position : Nat) → List Layout → List Slice
| _, _, [] => []
| used, position, member :: members =>
    let start := alignUp position member.alignment
    match memberEnd data width used start member
        members.isEmpty with
    | .error fault => [.error fault]
    | .ok (stop, used') =>
        match slice data start stop with
        | .error fault => [.error fault]
        | .ok bytes =>
            .ok bytes ::
              memberSlices data width used' stop members

/- The members of a tuple with the given layouts. -/
def tupleSlices
    (members : List Layout)
    (data : List UInt8) : List Slice :=
  memberSlices data (widthOf data.length) 0 0 members

end Framing

end GVariant
