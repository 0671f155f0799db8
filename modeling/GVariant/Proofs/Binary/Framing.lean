import GVariant.Proofs.Binary.Bytes

/-
  Members that were placed in a container are found again.

  The members of a container are placed from a position on.
  Each ends where the next one is looked for, and the end of
  the last one is the size of the body. The width of the
  offsets follows from the size of the whole as it did from
  body and count, so the table is read back offset by
  offset. An array finds every end in the table; a tuple
  computes the ends of its fixed members and of its last
  member, and reads the others from the end of the table
  backwards.

  Key definitions include:
    * `Framing.partEnd`
    * `Framing.bodyFrom`
    * `Framing.endsFrom`
    * `Framing.maxLength`

  Main declarations:
    * `Framing.widthOf_offsetWidth`
    * `Framing.readOffset_table`
    * `Framing.chunks_flatten`
    * `Framing.arraySlices_encodeArray`
    * `Framing.tupleSlices_encodeTuple`
-/

------------------------------------------------------------
-- Placed Members
------------------------------------------------------------

namespace GVariant

namespace Framing

/- The position where a member placed at a position ends. -/
def partEnd (position : Nat) (part : Part) : Nat :=
  alignUp position part.layout.alignment + part.bytes.length

/- The bytes of members placed from a position on. -/
def bodyFrom (position : Nat) (parts : List Part) :
    List UInt8 :=
  (place position parts).1.flatten

/- The ends of members placed from a position on. -/
def endsFrom (position : Nat) (parts : List Part) :
    List Nat :=
  (place position parts).2

@[simp] theorem bodyFrom_nil
    (position : Nat) :
    bodyFrom position [] = [] := rfl

@[simp] theorem endsFrom_nil
    (position : Nat) :
    endsFrom position [] = [] := rfl

/- Padding reaches the next multiple of the alignment. -/
theorem add_length_padding
    (position alignment : Nat) :
    position + (padding position alignment).length =
      alignUp position alignment := by
  have hLe := le_alignUp position alignment
  simp only [padding, List.length_replicate]
  omega

theorem place_cons
    (position : Nat)
    (part : Part)
    (parts : List Part) :
    place position (part :: parts) =
      (padding position part.layout.alignment ::
          part.bytes ::
          (place (partEnd position part) parts).1,
        partEnd position part ::
          (place (partEnd position part) parts).2) := by
  have hPad :=
    add_length_padding position part.layout.alignment
  simp only [place, hPad, partEnd]

@[simp] theorem bodyFrom_cons
    (position : Nat)
    (part : Part)
    (parts : List Part) :
    bodyFrom position (part :: parts) =
      padding position part.layout.alignment ++
        (part.bytes ++
          bodyFrom (partEnd position part) parts) := by
  simp [bodyFrom, place_cons]

@[simp] theorem endsFrom_cons
    (position : Nat)
    (part : Part)
    (parts : List Part) :
    endsFrom position (part :: parts) =
      partEnd position part ::
        endsFrom (partEnd position part) parts := by
  simp [endsFrom, place_cons]

@[simp] theorem length_endsFrom
    (position : Nat)
    (parts : List Part) :
    (endsFrom position parts).length = parts.length := by
  induction parts generalizing position with
  | nil => rfl
  | cons part parts ih => simp [ih]

/- A body starts with its first member, padded and placed. -/
theorem add_length_bodyFrom_cons
    (position : Nat)
    (part : Part)
    (parts : List Part) :
    position + (bodyFrom position (part :: parts)).length =
      partEnd position part +
        (bodyFrom (partEnd position part) parts).length := by
  have hPad :=
    add_length_padding position part.layout.alignment
  simp only [bodyFrom_cons, List.length_append, partEnd]
  omega

/- No member ends beyond the body. -/
theorem le_of_mem_endsFrom
    {position stop : Nat}
    {parts : List Part}
    (hMem : stop ∈ endsFrom position parts) :
    stop ≤ position + (bodyFrom position parts).length := by
  induction parts generalizing position with
  | nil => simp at hMem
  | cons part parts ih =>
      rw [add_length_bodyFrom_cons]
      rw [endsFrom_cons] at hMem
      rcases List.mem_cons.mp hMem with rfl | hMem
      · exact Nat.le_add_right _ _
      · exact ih hMem

/- The last member ends where the body does. -/
theorem endsFrom_eq_append
    (position : Nat)
    {parts : List Part}
    (hParts : parts ≠ []) :
    ∃ stops,
      endsFrom position parts =
        stops ++
          [position + (bodyFrom position parts).length] := by
  induction parts generalizing position with
  | nil => exact absurd rfl hParts
  | cons part parts ih =>
      rw [add_length_bodyFrom_cons, endsFrom_cons]
      cases parts with
      | nil => exact ⟨[], by simp⟩
      | cons next parts =>
          rcases ih (partEnd position part) (by simp) with
            ⟨stops, hStops⟩
          exact
            ⟨partEnd position part :: stops, by
              rw [hStops, List.cons_append]⟩

/- A member takes no more bytes than the body. -/
theorem length_le_length_bodyFrom
    (position : Nat)
    {part : Part}
    {parts : List Part}
    (hMem : part ∈ parts) :
    part.bytes.length ≤ (bodyFrom position parts).length := by
  induction parts generalizing position with
  | nil => simp at hMem
  | cons head parts ih =>
      simp only [bodyFrom_cons, List.length_append]
      rcases List.mem_cons.mp hMem with rfl | hMem
      · omega
      · have hLe := ih (partEnd position head) hMem
        omega

end Framing

end GVariant

------------------------------------------------------------
-- Tables Of Offsets
------------------------------------------------------------

namespace GVariant

namespace Framing

/- No container has more bytes than eight can count. -/
def maxLength : Nat :=
  0xFFFFFFFFFFFFFFFF

/-
  The width that was chosen for the offsets of a container
  is the one that its size gives, table included.
-/
theorem widthOf_offsetWidth
    {body count : Nat}
    (hCount : count ≠ 0) :
    widthOf (body + offsetWidth body count * count) =
      offsetWidth body count := by
  simp only [offsetWidth, widthOf, hCount, if_false]
  grind

theorem offsetWidth_pos
    (body : Nat)
    {count : Nat}
    (hCount : count ≠ 0) :
    0 < offsetWidth body count := by
  simp only [offsetWidth, hCount, if_false]
  grind

/- The size of the body fits the chosen width. -/
theorem lt_pow_offsetWidth
    {body count : Nat}
    (hCount : count ≠ 0)
    (hBody : body ≤ maxLength) :
    body < Nat.pow 256 (offsetWidth body count) := by
  unfold maxLength at hBody
  simp only [offsetWidth, hCount, if_false]
  split
  · change body < 0x100
    omega
  · split
    · change body < 0x10000
      omega
    · split
      · change body < 0x100000000
        omega
      · change body < 0x10000000000000000
        omega

theorem length_table
    (width : Nat)
    (offsets : List Nat) :
    (offsets.flatMap (Bytes.littleEndian width)).length =
      width * offsets.length := by
  induction offsets with
  | nil => rfl
  | cons offset offsets ih =>
      simp only [List.flatMap_cons, List.length_append,
        Bytes.length_littleEndian, ih, List.length_cons,
        Nat.mul_succ]
      omega

theorem length_withTable
    (content : List UInt8)
    (offsets : List Nat) :
    (withTable content offsets).length =
      content.length +
        offsetWidth content.length offsets.length *
          offsets.length := by
  rw [withTable, List.length_append, length_table]

/-
  The width follows from the size of the whole, unless there
  is no offset to be wide.
-/
theorem widthOf_withTable
    (content : List UInt8)
    {offsets : List Nat}
    (hOffsets : offsets ≠ []) :
    widthOf (withTable content offsets).length =
      offsetWidth content.length offsets.length := by
  rw [length_withTable]
  exact widthOf_offsetWidth (by simpa using hOffsets)

/- The table takes one width for each offset. -/
theorem length_withTable_widthOf
    (content : List UInt8)
    (offsets : List Nat) :
    (withTable content offsets).length =
      content.length +
        widthOf (withTable content offsets).length *
          offsets.length := by
  by_cases hOffsets : offsets = []
  · subst hOffsets
    simp [withTable]
  · rw [widthOf_withTable content hOffsets, length_withTable]

/- A table that is not empty takes space. -/
theorem withTable_ne_nil
    (content : List UInt8)
    {offsets : List Nat}
    (hOffsets : offsets ≠ []) :
    withTable content offsets ≠ [] := by
  have hCount : offsets.length ≠ 0 := by
    simpa using hOffsets
  have hWidth := offsetWidth_pos content.length hCount
  have hTable :=
    Nat.mul_pos hWidth (Nat.pos_of_ne_zero hCount)
  intro hNil
  have hLength := length_withTable content offsets
  rw [hNil, List.length_nil] at hLength
  omega

/- An offset is read back from its place in the table. -/
theorem readOffset_table
    {content : List UInt8}
    {width offset : Nat}
    {before : List Nat}
    (after : List Nat)
    (hFits : offset < Nat.pow 256 width) :
    readOffset
        (content ++
          (before ++ offset :: after).flatMap
            (Bytes.littleEndian width))
        (content.length + width * before.length) width =
      .ok offset := by
  have hPosition :
      content.length + width * before.length =
        (content ++
          before.flatMap (Bytes.littleEndian width)).length := by
    rw [List.length_append, length_table]
  have hData :
      content ++
          (before ++ offset :: after).flatMap
            (Bytes.littleEndian width) =
        (content ++
            before.flatMap (Bytes.littleEndian width)) ++
          (Bytes.littleEndian width offset ++
            after.flatMap (Bytes.littleEndian width)) := by
    simp
  have hLength := Bytes.length_littleEndian width offset
  rw [hPosition, hData, readOffset]
  rw [if_pos (by simp only [List.length_append]; omega)]
  rw [List.drop_left, List.take_left' hLength,
    Bytes.ofLittleEndian_littleEndian_of_lt hFits]

/- An offset into the members fits the width of its table. -/
theorem lt_pow_of_mem_offsets
    {content : List UInt8}
    {offsets : List Nat}
    (hLength :
      (withTable content offsets).length ≤ maxLength)
    {offset : Nat}
    (hMem : offset ∈ offsets)
    (hOffset : offset ≤ content.length) :
    offset <
      Nat.pow 256
        (offsetWidth content.length offsets.length) := by
  have hCount : offsets.length ≠ 0 :=
    Nat.ne_of_gt (List.length_pos_of_mem hMem)
  have hBody : content.length ≤ maxLength := by
    rw [length_withTable] at hLength
    omega
  exact
    Nat.lt_of_le_of_lt hOffset
      (lt_pow_offsetWidth hCount hBody)

/- An offset is read back behind those before it. -/
theorem readOffset_withTable
    {content : List UInt8}
    {offsets before : List Nat}
    {offset : Nat}
    (after : List Nat)
    (hSplit : offsets = before ++ offset :: after)
    (hLength :
      (withTable content offsets).length ≤ maxLength)
    (hOffset : offset ≤ content.length) :
    readOffset (withTable content offsets)
        (content.length +
          offsetWidth content.length offsets.length *
            before.length)
        (offsetWidth content.length offsets.length) =
      .ok offset := by
  have hMem : offset ∈ offsets := by
    simp [hSplit]
  have hFits := lt_pow_of_mem_offsets hLength hMem hOffset
  have hData :
      withTable content offsets =
        content ++
          (before ++ offset :: after).flatMap
            (Bytes.littleEndian
              (offsetWidth content.length
                offsets.length)) := by
    rw [withTable, ← hSplit]
  rw [hData]
  exact readOffset_table after hFits

/- What is behind the members is the table. -/
theorem slice_withTable
    (content : List UInt8)
    (offsets : List Nat) :
    slice (withTable content offsets) content.length
        (withTable content offsets).length =
      .ok
        (offsets.flatMap
          (Bytes.littleEndian
            (offsetWidth content.length
              offsets.length))) := by
  have hBounds :
      content.length ≤ (withTable content offsets).length := by
    rw [length_withTable]
    omega
  have hTaken :
      (withTable content offsets).length - content.length =
        (offsets.flatMap
          (Bytes.littleEndian
            (offsetWidth content.length
              offsets.length))).length := by
    rw [length_withTable, length_table, Nat.add_sub_cancel_left]
  rw [slice, if_pos ⟨hBounds, Nat.le_refl _⟩, hTaken,
    withTable, List.drop_left, List.take_length]

end Framing

end GVariant

------------------------------------------------------------
-- Pieces Of Equal Size
------------------------------------------------------------

namespace GVariant

namespace Framing

theorem chunksFrom_flatten
    {size : Nat}
    {items : List (List UInt8)}
    (hItems : ∀ item ∈ items, item.length = size) :
    chunksFrom size items.length items.flatten = items := by
  induction items with
  | nil => rfl
  | cons item items ih =>
      have hItem := hItems item List.mem_cons_self
      have hTail :=
        ih fun other hOther =>
          hItems other (List.mem_cons_of_mem item hOther)
      rw [List.length_cons, List.flatten_cons, chunksFrom,
        List.take_left' hItem, List.drop_left' hItem, hTail]

theorem length_flatten_of_forall
    {size : Nat}
    {items : List (List UInt8)}
    (hItems : ∀ item ∈ items, item.length = size) :
    items.flatten.length = size * items.length := by
  induction items with
  | nil => rfl
  | cons item items ih =>
      have hItem := hItems item List.mem_cons_self
      have hTail :=
        ih fun other hOther =>
          hItems other (List.mem_cons_of_mem item hOther)
      simp only [List.flatten_cons, List.length_append, hItem,
        hTail, List.length_cons, Nat.mul_succ]
      omega

/- Pieces of one size in a row are cut apart again. -/
theorem chunks_flatten
    {size : Nat}
    {items : List (List UInt8)}
    (hSize : 0 < size)
    (hItems : ∀ item ∈ items, item.length = size) :
    chunks size items.flatten = items := by
  rw [chunks, length_flatten_of_forall hItems,
    Nat.mul_div_cancel_left _ hSize,
    chunksFrom_flatten hItems]

/- The offsets of a table are read back all at once. -/
theorem chunks_table
    {width : Nat}
    {offsets : List Nat}
    (hWidth : 0 < width)
    (hFits : ∀ offset ∈ offsets, offset < Nat.pow 256 width) :
    (chunks width
        (offsets.flatMap (Bytes.littleEndian width))).map
          Bytes.ofLittleEndian =
      offsets := by
  have hItems :
      ∀ item ∈ offsets.map (Bytes.littleEndian width),
        item.length = width := by
    intro item hItem
    rcases List.mem_map.mp hItem with ⟨offset, _, rfl⟩
    exact Bytes.length_littleEndian width offset
  rw [List.flatMap_def, chunks_flatten hWidth hItems,
    List.map_map]
  conv => rhs; rw [← List.map_id offsets]
  apply List.map_congr_left
  intro offset hMem
  exact
    Bytes.ofLittleEndian_littleEndian_of_lt
      (hFits offset hMem)

end Framing

end GVariant

------------------------------------------------------------
-- Elements Of An Array
------------------------------------------------------------

namespace GVariant

namespace Framing

/- The slices of members are their bytes. -/
def bytesOf (part : Part) : Slice :=
  .ok part.bytes

/- Elements are found from one end to the next. -/
theorem elementSlices_bodyFrom
    {alignment limit : Nat}
    (position : Nat)
    {parts : List Part}
    (tail : List UInt8)
    (hAlign :
      ∀ part ∈ parts, part.layout.alignment = alignment)
    (hLimit :
      position + (bodyFrom position parts).length ≤ limit) :
    elementSlices alignment limit
        (bodyFrom position parts ++ tail) position
        (endsFrom position parts) =
      parts.map bytesOf := by
  induction parts generalizing position with
  | nil => rfl
  | cons part parts ih =>
      have hPart : part.layout.alignment = alignment :=
        hAlign part List.mem_cons_self
      rw [add_length_bodyFrom_cons] at hLimit
      have hPad := add_length_padding position alignment
      have hPadLength :
          (padding position alignment).length =
            alignUp position alignment - position := by
        omega
      have hStop :
          partEnd position part =
            alignUp position alignment + part.bytes.length := by
        rw [partEnd, hPart]
      have hInside :
          ¬ (partEnd position part <
                alignUp position alignment ∨
              limit < partEnd position part) := by
        omega
      have hTaken :
          partEnd position part - alignUp position alignment =
            part.bytes.length := by
        omega
      have hTail :=
        ih (partEnd position part)
          (fun other hOther =>
            hAlign other (List.mem_cons_of_mem part hOther))
          hLimit
      rw [endsFrom_cons, elementSlices, if_neg hInside]
      simp only [bodyFrom_cons, hPart, List.append_assoc]
      rw [List.drop_left' hPadLength, hTaken, List.take_left,
        List.drop_left, hTail]
      rfl

/-
  The elements of no fixed size are found through the table,
  whose place is the last offset that it holds.
-/
theorem varyingSlices_withTable
    {alignment : Nat}
    {parts : List Part}
    (hParts : parts ≠ [])
    (hAlign :
      ∀ part ∈ parts, part.layout.alignment = alignment)
    (hLength :
      (withTable (bodyFrom 0 parts)
        (endsFrom 0 parts)).length ≤ maxLength) :
    varyingSlices alignment
        (withTable (bodyFrom 0 parts) (endsFrom 0 parts)) =
      .ok (parts.map bytesOf) := by
  let content := bodyFrom 0 parts
  let offsets := endsFrom 0 parts
  let width := offsetWidth content.length offsets.length
  let data := withTable content offsets
  rcases endsFrom_eq_append 0 hParts with ⟨stops, hEnds⟩
  have hStops : offsets = stops ++ [content.length] := by
    rw [Nat.zero_add] at hEnds
    exact hEnds
  have hOffsets : offsets ≠ [] := by
    simp [hStops]
  have hCount : offsets.length ≠ 0 := by
    simpa using hOffsets
  have hWidth : widthOf data.length = width :=
    widthOf_withTable content hOffsets
  have hPos : 0 < width := offsetWidth_pos _ hCount
  have hFits :
      ∀ offset ∈ offsets, offset < Nat.pow 256 width := by
    intro offset hMem
    have hLe := le_of_mem_endsFrom hMem
    rw [Nat.zero_add] at hLe
    exact lt_pow_of_mem_offsets hLength hMem hLe
  -- the last offset is where the table starts
  have hLast :
      readOffset data (data.length - width) width =
        .ok content.length := by
    have hPlace :
        data.length - width =
          content.length + width * stops.length := by
      have hStopsLength :
          offsets.length = stops.length + 1 := by
        rw [hStops, List.length_append, List.length_singleton]
      have hDataLength :
          data.length =
            content.length + width * offsets.length :=
        length_withTable content offsets
      rw [hDataLength, hStopsLength, Nat.mul_succ]
      omega
    rw [hPlace]
    exact
      readOffset_withTable [] hStops hLength (Nat.le_refl _)
  have hTable :
      slice data content.length data.length =
        .ok (offsets.flatMap (Bytes.littleEndian width)) :=
    slice_withTable content offsets
  have hEven :
      (offsets.flatMap (Bytes.littleEndian width)).length %
          width =
        0 := by
    rw [length_table]
    exact Nat.mul_mod_right width _
  have hElements :
      elementSlices alignment content.length data 0 offsets =
        parts.map bytesOf :=
    elementSlices_bodyFrom 0
      (offsets.flatMap (Bytes.littleEndian width)) hAlign
      (Nat.le_of_eq (Nat.zero_add content.length))
  change varyingSlices alignment data = _
  simp only [varyingSlices, hWidth, hLast, hTable, hEven,
    chunks_table hPos hFits, hElements, ne_eq, not_true,
    if_false]

/- Every element of an array is found again. -/
theorem arraySlices_encodeArray
    {element : Layout}
    {items : List (List UInt8)}
    (hFixed :
      ∀ size,
        element.fixedSize = some size →
          0 < size ∧ ∀ item ∈ items, item.length = size)
    (hLength :
      (encodeArray element items).length ≤ maxLength) :
    arraySlices element (encodeArray element items) =
      .ok (items.map .ok) := by
  cases hSize : element.fixedSize with
  | some size =>
      rcases hFixed size hSize with ⟨hPos, hItems⟩
      have hData :
          encodeArray element items = items.flatten := by
        simp [encodeArray, Layout.isFixed, hSize]
      have hEven : items.flatten.length % size = 0 := by
        rw [length_flatten_of_forall hItems]
        exact Nat.mul_mod_right size items.length
      simp only [arraySlices, hSize, hData, hEven,
        chunks_flatten hPos hItems, ne_eq, not_true,
        if_false]
  | none =>
      have hData :
          encodeArray element items =
            withTable
              (bodyFrom 0 (items.map (Part.mk element)))
              (endsFrom 0 (items.map (Part.mk element))) := by
        simp [encodeArray, Layout.isFixed, hSize, body, ends,
          bodyFrom, endsFrom]
      cases items with
      | nil =>
          simp [arraySlices, hSize, hData, withTable]
      | cons item items =>
          have hAlign :
              ∀ part ∈ (item :: items).map (Part.mk element),
                part.layout.alignment = element.alignment := by
            intro part hPart
            rcases List.mem_map.mp hPart with ⟨bytes, _, rfl⟩
            rfl
          rw [hData] at hLength ⊢
          have hSlices :=
            varyingSlices_withTable (by simp) hAlign hLength
          have hNonempty :
              (withTable
                (bodyFrom 0 ((item :: items).map
                  (Part.mk element)))
                (endsFrom 0 ((item :: items).map
                  (Part.mk element)))).isEmpty = false := by
            rw [List.isEmpty_eq_false_iff]
            exact withTable_ne_nil _ (by simp)
          simp only [arraySlices, hSize, hNonempty, hSlices]
          simp [bytesOf]

end Framing

end GVariant

------------------------------------------------------------
-- Members Of A Tuple
------------------------------------------------------------

namespace GVariant

namespace Framing

/- Members of a fixed size have that many bytes. -/
def FixedSizes (parts : List Part) : Prop :=
  ∀ part ∈ parts,
    ∀ size,
      part.layout.fixedSize = some size →
        part.bytes.length = size

theorem FixedSizes.tail
    {part : Part}
    {parts : List Part}
    (hSizes : FixedSizes (part :: parts)) :
    FixedSizes parts :=
  fun other hOther =>
    hSizes other (List.mem_cons_of_mem part hOther)

/- A slice exists exactly if its bounds are in order. -/
theorem slice_eq_ok_iff
    {data content : List UInt8}
    {start stop : Nat} :
    slice data start stop = .ok content ↔
      (start ≤ stop ∧ stop ≤ data.length) ∧
        (data.drop start).take (stop - start) = content := by
  unfold slice
  split
  · rename_i hBounds
    simp [hBounds]
  · rename_i hBounds
    simp [hBounds]

/-
  A member lies between the padded position and its end, and
  the rest of the data follows it.
-/
theorem slice_part
    {data rest : List UInt8}
    {position : Nat}
    {part : Part}
    (hPosition : position ≤ data.length)
    (hData :
      data.drop position =
        padding position part.layout.alignment ++
          (part.bytes ++ rest)) :
    slice data
          (alignUp position part.layout.alignment)
          (partEnd position part) =
        .ok part.bytes ∧
      data.drop (partEnd position part) = rest ∧
      partEnd position part ≤ data.length := by
  have hPad :=
    add_length_padding position part.layout.alignment
  have hStart :
      data.drop (alignUp position part.layout.alignment) =
        part.bytes ++ rest := by
    rw [← hPad, ← List.drop_drop, hData, List.drop_left]
  have hStop : data.drop (partEnd position part) = rest := by
    rw [partEnd, ← List.drop_drop, hStart, List.drop_left]
  have hLength := congrArg List.length hData
  simp only [List.length_drop, List.length_append] at hLength
  have hInside : partEnd position part ≤ data.length := by
    unfold partEnd
    omega
  have hTaken :
      partEnd position part -
          alignUp position part.layout.alignment =
        part.bytes.length := by
    unfold partEnd
    omega
  have hBounds :
      alignUp position part.layout.alignment ≤
          partEnd position part ∧
        partEnd position part ≤ data.length :=
    ⟨Nat.le_add_right _ _, hInside⟩
  refine ⟨?_, hStop, hInside⟩
  rw [slice, if_pos hBounds, hStart, hTaken, List.take_left]

/- The end of a fixed member is not recorded. -/
theorem recordedEnds_cons_of_fixed
    {part : Part}
    (hFixed : part.layout.isFixed)
    (parts : List Part)
    (stop : Nat)
    (stops : List Nat) :
    recordedEnds (part :: parts) (stop :: stops) =
      recordedEnds parts stops := by
  cases parts with
  | nil => simp [recordedEnds]
  | cons next parts => simp [recordedEnds, hFixed]

/- The end of any other member is, unless it is the last. -/
theorem recordedEnds_cons_of_varying
    {part : Part}
    (hVarying : part.layout.isFixed = false)
    (next : Part)
    (parts : List Part)
    (stop : Nat)
    (stops : List Nat) :
    recordedEnds (part :: next :: parts) (stop :: stops) =
      stop :: recordedEnds (next :: parts) stops := by
  simp [recordedEnds, hVarying]

/- The step from one member that was found to the next. -/
theorem memberSlices_cons
    {data rest : List UInt8}
    {width used used' position : Nat}
    {part : Part}
    {members : List Layout}
    (hEnd :
      memberEnd data width used
          (alignUp position part.layout.alignment)
          part.layout members.isEmpty =
        .ok (partEnd position part, used'))
    (hPosition : position ≤ data.length)
    (hData :
      data.drop position =
        padding position part.layout.alignment ++
          (part.bytes ++ rest)) :
    memberSlices data width used position
        (part.layout :: members) =
      bytesOf part ::
        memberSlices data width used'
          (partEnd position part) members := by
  have hSlice := (slice_part hPosition hData).1
  simp only [memberSlices, hEnd, hSlice, bytesOf]

/- A fixed member ends where its bytes do. -/
theorem memberEnd_fixed
    {data : List UInt8}
    {width used position size : Nat}
    {part : Part}
    (hSize : part.layout.fixedSize = some size)
    (hBytes : part.bytes.length = size)
    (isLast : Bool) :
    memberEnd data width used
        (alignUp position part.layout.alignment)
        part.layout isLast =
      .ok (partEnd position part, used) := by
  simp [memberEnd, hSize, partEnd, hBytes]

/- Any other member that is the last ends at the table. -/
theorem memberEnd_last
    {data : List UInt8}
    {width used position : Nat}
    {part : Part}
    (hSize : part.layout.fixedSize = none)
    (hLength :
      data.length = partEnd position part + width * used) :
    memberEnd data width used
        (alignUp position part.layout.alignment)
        part.layout true =
      .ok (partEnd position part, used) := by
  have hUsed : width * used ≤ data.length := by
    omega
  have hStop :
      data.length - width * used = partEnd position part := by
    omega
  simp [memberEnd, hSize, hUsed, hStop]

/- Otherwise it ends where the table says. -/
theorem memberEnd_recorded
    {data : List UInt8}
    {width used position : Nat}
    {part : Part}
    (hSize : part.layout.fixedSize = none)
    (hStop :
      width * (used + 1) ≤ data.length ∧
        readOffset data (data.length - width * (used + 1))
            width =
          .ok (partEnd position part)) :
    memberEnd data width used
        (alignUp position part.layout.alignment)
        part.layout false =
      .ok (partEnd position part, used + 1) := by
  simp [memberEnd, hSize, hStop]

/-
  Members are found from one end to the next. `seen` are the
  ends that were read from the table before; those of the
  members still to come follow them in it. Unless all of
  these are fixed, the table follows the body immediately.
-/
theorem memberSlices_bodyFrom
    {data tail : List UInt8}
    {width : Nat}
    (position : Nat)
    (seen : List Nat)
    {parts : List Part}
    (hPosition : position ≤ data.length)
    (hData :
      data.drop position = bodyFrom position parts ++ tail)
    (hTable :
      ∀ index stop,
        (seen ++
            recordedEnds parts
              (endsFrom position parts))[index]? = some stop →
          width * (index + 1) ≤ data.length ∧
            readOffset data
                (data.length - width * (index + 1)) width =
              .ok stop)
    (hEnd :
      (∀ part ∈ parts, part.layout.isFixed) ∨
        data.length =
          position + (bodyFrom position parts).length +
            width *
              (seen ++
                recordedEnds parts
                  (endsFrom position parts)).length)
    (hSizes : FixedSizes parts) :
    memberSlices data width seen.length position
        (parts.map Part.layout) =
      parts.map bytesOf := by
  induction parts generalizing position seen with
  | nil => rfl
  | cons part parts ih =>
      rw [bodyFrom_cons, List.append_assoc,
        List.append_assoc] at hData
      rcases slice_part hPosition hData with
        ⟨_, hRest, hInside⟩
      rw [endsFrom_cons] at hTable hEnd
      rw [add_length_bodyFrom_cons] at hEnd
      cases hSize : part.layout.fixedSize with
      | some size =>
          have hFixed : part.layout.isFixed := by
            simp [Layout.isFixed, hSize]
          have hBytes : part.bytes.length = size :=
            hSizes part List.mem_cons_self size hSize
          rw [recordedEnds_cons_of_fixed hFixed]
            at hTable hEnd
          have hMember :
              memberEnd data width seen.length
                  (alignUp position part.layout.alignment)
                  part.layout
                  (parts.map Part.layout).isEmpty =
                .ok (partEnd position part, seen.length) :=
            memberEnd_fixed hSize hBytes _
          have hTail :=
            ih _ _ hInside hRest hTable
              (hEnd.imp_left fun hAll other hOther =>
                hAll other (List.mem_cons_of_mem part hOther))
              hSizes.tail
          rw [List.map_cons,
            memberSlices_cons hMember hPosition hData, hTail,
            List.map_cons]
      | none =>
          have hVarying : part.layout.isFixed = false := by
            simp [Layout.isFixed, hSize]
          have hEnd' :=
            hEnd.resolve_left fun hAll => by
              have hFixed := hAll part List.mem_cons_self
              simp [hVarying] at hFixed
          cases parts with
          | nil =>
              simp only [recordedEnds, List.append_nil,
                bodyFrom_nil, List.length_nil,
                Nat.add_zero] at hEnd'
              have hMember := memberEnd_last hSize hEnd'
              rw [List.map_cons, List.map_nil,
                memberSlices_cons hMember hPosition hData]
              rfl
          | cons next parts =>
              rw [recordedEnds_cons_of_varying hVarying]
                at hTable hEnd'
              have hStop :=
                hTable seen.length (partEnd position part)
                  (by simp)
              have hMember := memberEnd_recorded hSize hStop
              have hTail :=
                ih _ (seen ++ [partEnd position part])
                  hInside hRest
                  (by simpa using hTable)
                  (.inr (by simpa using hEnd'))
                  hSizes.tail
              rw [List.length_append] at hTail
              rw [List.map_cons,
                memberSlices_cons hMember hPosition hData,
                List.map_cons]
              exact congrArg (bytesOf part :: ·) hTail

end Framing

end GVariant

------------------------------------------------------------
-- Layout Of A Tuple
------------------------------------------------------------

namespace GVariant

namespace Framing

/-
  If the members so far have a fixed size together, then so
  has each of them, and the size is where the last one ends.
-/
theorem fixedSize_foldl_extend
    {whole : Layout}
    {parts : List Part}
    {size : Nat}
    (hSizes : FixedSizes parts)
    (hWhole :
      ((parts.map Part.layout).foldl
        Layout.extend whole).fixedSize = some size) :
    ∃ start,
      whole.fixedSize = some start ∧
        (∀ part ∈ parts, part.layout.isFixed) ∧
        start + (bodyFrom start parts).length = size := by
  induction parts generalizing whole with
  | nil => exact ⟨size, hWhole, by simp, rfl⟩
  | cons part parts ih =>
      rcases ih hSizes.tail hWhole with
        ⟨stop, hStop, hFixed, hSize⟩
      unfold Layout.extend at hStop
      cases hStart : whole.fixedSize with
      | none => simp [hStart] at hStop
      | some start =>
          cases hMember : part.layout.fixedSize with
          | none => simp [hMember] at hStop
          | some memberSize =>
              have hBytes :=
                hSizes part List.mem_cons_self _ hMember
              have hPartEnd : partEnd start part = stop := by
                simp only [hStart, hMember,
                  Option.some.injEq] at hStop
                rw [partEnd, hBytes, hStop]
              refine ⟨start, rfl, ?_, ?_⟩
              · intro other hOther
                rcases List.mem_cons.mp hOther with
                  rfl | hOther
                · simp [Layout.isFixed, hMember]
                · exact hFixed other hOther
              · rw [add_length_bodyFrom_cons, hPartEnd]
                exact hSize

/-
  In a tuple of a fixed size all members are fixed, and the
  body fits the size, which is positive.
-/
theorem fixedSize_tuple
    {parts : List Part}
    {size : Nat}
    (hSizes : FixedSizes parts)
    (hTuple :
      (Layout.tuple (parts.map Part.layout)).fixedSize =
        some size) :
    (∀ part ∈ parts, part.layout.isFixed) ∧
      (bodyFrom 0 parts).length ≤ size ∧ 0 < size := by
  unfold Layout.tuple Layout.close at hTuple
  split at hTuple
  · rename_i hWhole
    cases hTuple
    rcases fixedSize_foldl_extend hSizes hWhole with
      ⟨start, hStart, hFixed, hSize⟩
    cases hStart
    exact ⟨hFixed, by omega, by decide⟩
  · rename_i whole hNonzero hWhole
    rcases fixedSize_foldl_extend hSizes hWhole with
      ⟨start, hStart, hFixed, hSize⟩
    cases hStart
    cases hTuple
    have hLe :=
      le_alignUp whole
        ((parts.map Part.layout).foldl Layout.extend
          ⟨1, some 0⟩).alignment
    have hPos := Nat.pos_of_ne_zero hNonzero
    exact ⟨hFixed, by omega, by omega⟩
  · cases hTuple

/- A tuple of a fixed size takes exactly that many bytes. -/
theorem length_encodeTuple
    {parts : List Part}
    {size : Nat}
    (hSizes : FixedSizes parts)
    (hTuple :
      (Layout.tuple (parts.map Part.layout)).fixedSize =
        some size) :
    (encodeTuple (.tuple (parts.map Part.layout))
      parts).length = size := by
  rcases fixedSize_tuple hSizes hTuple with ⟨_, hBody, _⟩
  have hBody' : (body parts).length ≤ size := hBody
  simp only [encodeTuple, hTuple, List.length_append,
    List.length_replicate]
  omega

end Framing

end GVariant

------------------------------------------------------------
-- Tuples
------------------------------------------------------------

namespace GVariant

namespace Framing

/- Fixed members leave nothing to record. -/
theorem recordedEnds_of_fixed
    {parts : List Part}
    (hFixed : ∀ part ∈ parts, part.layout.isFixed)
    (position : Nat) :
    recordedEnds parts (endsFrom position parts) = [] := by
  induction parts generalizing position with
  | nil => rfl
  | cons part parts ih =>
      rw [endsFrom_cons,
        recordedEnds_cons_of_fixed
          (hFixed part List.mem_cons_self)]
      exact
        ih
          (fun other hOther =>
            hFixed other (List.mem_cons_of_mem part hOther))
          _

/- Only ends of members are recorded. -/
theorem mem_endsFrom_of_mem_recordedEnds
    {parts : List Part}
    {stops : List Nat}
    {stop : Nat}
    (hMem : stop ∈ recordedEnds parts stops) :
    stop ∈ stops := by
  fun_induction recordedEnds parts stops with
  | case1 part next parts head stops hFixed ih =>
      exact List.mem_cons_of_mem head (ih hMem)
  | case2 part next parts head stops hVarying ih =>
      rcases List.mem_cons.mp hMem with rfl | hMem
      · exact List.mem_cons_self
      · exact List.mem_cons_of_mem head (ih hMem)
  | case3 => simp at hMem

/-
  The table of a tuple is read from its end: the recorded
  ends stand in it in reverse order.
-/
theorem readOffset_withTable_reverse
    {content : List UInt8}
    {recorded : List Nat}
    (hLength :
      (withTable content recorded.reverse).length ≤ maxLength)
    (hStops : ∀ stop ∈ recorded, stop ≤ content.length)
    {index stop : Nat}
    (hIndex : recorded[index]? = some stop) :
    let data := withTable content recorded.reverse
    let width := widthOf data.length
    width * (index + 1) ≤ data.length ∧
      readOffset data (data.length - width * (index + 1))
          width =
        .ok stop := by
  intro data width
  rcases List.getElem?_eq_some_iff.mp hIndex with
    ⟨hLess, hGet⟩
  have hStop : stop ≤ content.length :=
    hStops stop (List.mem_of_getElem? hIndex)
  have hSplit :
      recorded.reverse =
        (recorded.drop (index + 1)).reverse ++
          stop :: (recorded.take index).reverse := by
    have hRecorded :
        recorded =
          recorded.take index ++
            stop :: recorded.drop (index + 1) := by
      rw [← hGet, ← List.drop_eq_getElem_cons hLess,
        List.take_append_drop]
    conv => lhs; rw [hRecorded]
    simp
  have hOffsets : recorded.reverse ≠ [] := by
    simp [hSplit]
  have hWidth :
      width =
        offsetWidth content.length recorded.reverse.length :=
    widthOf_withTable content hOffsets
  have hDataLength :
      data.length =
        content.length + width * recorded.length := by
    have hTable :=
      length_withTable_widthOf content recorded.reverse
    rw [List.length_reverse] at hTable
    exact hTable
  have hMul :
      width * recorded.length =
        width * (recorded.drop (index + 1)).length +
          width * (index + 1) := by
    rw [← Nat.mul_add, List.length_drop]
    congr 1
    omega
  refine ⟨by omega, ?_⟩
  have hPlace :
      data.length - width * (index + 1) =
        content.length +
          width *
            (recorded.drop (index + 1)).reverse.length := by
    rw [List.length_reverse]
    omega
  rw [hPlace, hWidth]
  exact readOffset_withTable _ hSplit hLength hStop

/- Every member of a tuple is found again. -/
theorem tupleSlices_encodeTuple
    {parts : List Part}
    (hSizes : FixedSizes parts)
    (hLength :
      (encodeTuple (.tuple (parts.map Part.layout))
        parts).length ≤ maxLength) :
    tupleSlices (parts.map Part.layout)
        (encodeTuple (.tuple (parts.map Part.layout)) parts) =
      parts.map bytesOf := by
  cases hTuple :
      (Layout.tuple (parts.map Part.layout)).fixedSize with
  | some size =>
      rcases fixedSize_tuple hSizes hTuple with ⟨hFixed, _, _⟩
      have hRecorded := recordedEnds_of_fixed hFixed 0
      simp only [encodeTuple, hTuple, tupleSlices]
      refine
        memberSlices_bodyFrom 0 []
          (Nat.zero_le _) rfl ?_ (.inl hFixed) hSizes
      intro index stop hIndex
      simp [hRecorded] at hIndex
  | none =>
      let recorded := recordedEnds parts (endsFrom 0 parts)
      let data := withTable (bodyFrom 0 parts) recorded.reverse
      have hData :
          encodeTuple (.tuple (parts.map Part.layout)) parts =
            data := by
        simp only [encodeTuple, hTuple]
        rfl
      rw [hData] at hLength ⊢
      have hStops :
          ∀ stop ∈ recorded,
            stop ≤ (bodyFrom 0 parts).length := by
        intro stop hStop
        have hLe :=
          le_of_mem_endsFrom
            (mem_endsFrom_of_mem_recordedEnds hStop)
        omega
      refine
        memberSlices_bodyFrom 0 []
          (Nat.zero_le _) rfl ?_ (.inr ?_) hSizes
      · intro index stop hIndex
        exact
          readOffset_withTable_reverse hLength hStops hIndex
      · have hTable :=
          length_withTable_widthOf
            (bodyFrom 0 parts) recorded.reverse
        rw [List.length_reverse] at hTable
        rw [Nat.zero_add]
        exact hTable

end Framing

end GVariant
