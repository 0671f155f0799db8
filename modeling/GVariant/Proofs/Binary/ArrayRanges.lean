import GVariant.Proofs.Binary.Ranges

/-
  Where the decoder finds the elements of an array.

  The elements of no fixed size end at the offsets that the
  table lists, and the last offset is where the table
  starts. Whatever the data, the ranges of the elements are
  in order, keep off the table, and have only alignment
  padding between them. One value of the last offset leaves
  the data out: where it is the size of the data, there is
  no table, and the array is decoded as an empty one.

  Key definitions include:
    * `Framing.arrayTableStart`
    * `Framing.arrayOffsets`
    * `Framing.elementRanges`
    * `Framing.ArrayFramed`

  Main declarations:
    * `Framing.getElem?_chunksFrom`
    * `Framing.varyingSlices_eq_ok`
    * `Framing.elementSlices_cons`
    * `Framing.foundElements_of_decodeSlices`
    * `Framing.arrayFramed_iff`
    * `Variant.arrayFramed_iff_of_decodeLevels`
-/

------------------------------------------------------------
-- The Table Of An Array
------------------------------------------------------------

namespace GVariant

namespace Framing

/- Offsets are no wider than their container. -/
theorem widthOf_le
    (length : Nat) :
    widthOf length ≤ length := by
  unfold widthOf
  split
  · omega
  · split
    · omega
    · split
      · omega
      · split <;> omega

/- A container with bytes in it has offsets of some width. -/
theorem widthOf_pos
    {length : Nat}
    (hLength : length ≠ 0) :
    0 < widthOf length := by
  unfold widthOf
  rw [if_neg hLength]
  split
  · exact Nat.one_pos
  · split
    · exact Nat.two_pos
    · split <;> decide

/-
  Where the table of an array starts, which is what the last
  bytes of the data say.
-/
def arrayTableStart (data : List UInt8) : Nat :=
  Bytes.ofLittleEndian
    (data.drop (data.length - widthOf data.length))

/- The offsets that the table of an array lists. -/
def arrayOffsets (data : List UInt8) : List Nat :=
  (chunks (widthOf data.length)
      (data.drop (arrayTableStart data))).map
    Bytes.ofLittleEndian

/- Pieces are cut one behind the other. -/
theorem getElem?_chunksFrom
    {size count index : Nat}
    (data : List UInt8)
    (hIndex : index < count) :
    (chunksFrom size count data)[index]? =
      some ((data.drop (size * index)).take size) := by
  induction count generalizing index data with
  | zero => cases hIndex
  | succ count ih =>
      cases index with
      | zero => simp [chunksFrom]
      | succ index =>
          have hTail :=
            ih (data.drop size) (Nat.lt_of_succ_lt_succ hIndex)
          rw [chunksFrom, List.getElem?_cons_succ, hTail,
            List.drop_drop, Nat.mul_succ, Nat.add_comm size]

theorem length_chunksFrom
    (size count : Nat)
    (data : List UInt8) :
    (chunksFrom size count data).length = count := by
  induction count generalizing data with
  | zero => rfl
  | succ count ih => simp [chunksFrom, ih]

/- The table lists as many offsets as it has room for. -/
theorem length_arrayOffsets
    (data : List UInt8) :
    (arrayOffsets data).length =
      (data.length - arrayTableStart data) /
        widthOf data.length := by
  rw [arrayOffsets, List.length_map, chunks,
    length_chunksFrom, List.length_drop]

/- An offset is what is read at its place in the table. -/
theorem getElem?_arrayOffsets
    {data : List UInt8}
    {index : Nat}
    (hIndex : index < (arrayOffsets data).length) :
    (arrayOffsets data)[index]? =
      some
        (Bytes.ofLittleEndian
          ((data.drop
              (arrayTableStart data +
                widthOf data.length * index)).take
            (widthOf data.length))) := by
  have hChunk :
      index <
        (data.drop (arrayTableStart data)).length /
          widthOf data.length := by
    rw [length_arrayOffsets] at hIndex
    rwa [List.length_drop]
  rw [arrayOffsets, List.getElem?_map, chunks,
    getElem?_chunksFrom _ hChunk, List.drop_drop]
  rfl

/- The last bytes of the data are all that is behind them. -/
theorem take_drop_widthOf
    (data : List UInt8) :
    (data.drop (data.length - widthOf data.length)).take
        (widthOf data.length) =
      data.drop (data.length - widthOf data.length) := by
  apply List.take_of_length_le
  rw [List.length_drop]
  omega

/- A table of whole offsets takes one width for each. -/
theorem mul_length_arrayOffsets
    {data : List UInt8}
    (hEven :
      (data.length - arrayTableStart data) %
          widthOf data.length =
        0) :
    widthOf data.length * (arrayOffsets data).length =
      data.length - arrayTableStart data := by
  rw [length_arrayOffsets]
  exact Nat.mul_div_cancel' (Nat.dvd_of_mod_eq_zero hEven)

/-
  The slices of an array are those of the elements that end
  at its offsets. The table is within the data and is a
  whole number of offsets.
-/
theorem varyingSlices_eq_ok
    {alignment : Nat}
    {data : List UInt8}
    {slices : List Slice}
    (hSlices : varyingSlices alignment data = .ok slices) :
    arrayTableStart data ≤ data.length ∧
      (data.length - arrayTableStart data) %
          widthOf data.length =
        0 ∧
      slices =
        elementSlices alignment (arrayTableStart data) data 0
          (arrayOffsets data) := by
  have hWidth := widthOf_le data.length
  have hLast :
      readOffset data (data.length - widthOf data.length)
          (widthOf data.length) =
        .ok (arrayTableStart data) := by
    rw [readOffset, if_pos (by omega), take_drop_widthOf,
      arrayTableStart]
  simp only [varyingSlices, hLast] at hSlices
  split at hSlices
  · cases hSlices
  · rename_i table hTable
    have hInside :
        arrayTableStart data ≤ data.length ∧
          table = data.drop (arrayTableStart data) := by
      unfold slice at hTable
      split at hTable
      · rename_i hBounds
        cases hTable
        refine ⟨hBounds.1, ?_⟩
        apply List.take_of_length_le
        exact Nat.le_of_eq List.length_drop
      · cases hTable
    rcases hInside with ⟨hStart, rfl⟩
    split at hSlices
    · cases hSlices
    · rename_i hEven
      cases hSlices
      rw [List.length_drop] at hEven
      exact ⟨hStart, Decidable.of_not_not hEven, rfl⟩

end Framing

end GVariant

------------------------------------------------------------
-- Ranges Of Elements
------------------------------------------------------------

namespace GVariant

namespace Framing

/-
  The ranges of elements from a position on, each aligned
  and up to an offset.
-/
def elementRanges
    (alignment : Nat) :
    (position : Nat) → (offsets : List Nat) → List Range
| _, [] => []
| position, stop :: offsets =>
    ⟨alignUp position alignment, stop⟩ ::
      elementRanges alignment stop offsets

/- The elements end at the offsets. -/
theorem map_stop_elementRanges
    (alignment position : Nat)
    (offsets : List Nat) :
    (elementRanges alignment position offsets).map
        Range.stop =
      offsets := by
  induction offsets generalizing position with
  | nil => rfl
  | cons stop offsets ih => simp [elementRanges, ih]

theorem length_elementRanges
    (alignment position : Nat)
    (offsets : List Nat) :
    (elementRanges alignment position offsets).length =
      offsets.length := by
  have hStops :=
    map_stop_elementRanges alignment position offsets
  rw [← List.length_map (f := Range.stop), hStops]

/- The last end is that of the last range. -/
theorem lastStop_eq_of_getLast?
    {position stop : Nat}
    {ranges : List Range}
    (hLast : (ranges.map Range.stop).getLast? = some stop) :
    lastStop position ranges = stop := by
  induction ranges generalizing position with
  | nil => cases hLast
  | cons range ranges ih =>
      rw [lastStop]
      cases ranges with
      | nil => simpa [lastStop] using hLast
      | cons next ranges => exact ih (by simpa using hLast)

/-
  The ranges of elements of one layout that were found from
  a position on, none of them beyond a limit.
-/
structure FoundElements
    (element : Layout)
    (limit position : Nat)
    (ranges : List Range) : Prop where
  tiles :
    Tiles position (List.replicate ranges.length element)
      ranges
  stop_le : ∀ range ∈ ranges, range.stop ≤ limit

variable {decodeOne : Ty → List UInt8 → Except Error Variant}

/-
  An element that is in order and within the limit is the
  slice of its range, and the others are behind its end.
-/
theorem elementSlices_cons
    {alignment limit position stop : Nat}
    {data : List UInt8}
    (hBegin : alignUp position alignment ≤ stop)
    (hStop : stop ≤ limit)
    (hLimit : limit ≤ data.length)
    (offsets : List Nat) :
    elementSlices alignment limit (data.drop position) position
        (stop :: offsets) =
      Range.slice ⟨alignUp position alignment, stop⟩ data ::
        elementSlices alignment limit (data.drop stop) stop
          offsets := by
  have hAligned := le_alignUp position alignment
  have hInside :
      ¬ (stop < alignUp position alignment ∨ limit < stop) := by
    omega
  -- What is dropped up to an element is dropped at once.
  have hRest :
      (data.drop position).drop
          (alignUp position alignment - position) =
        data.drop (alignUp position alignment) := by
    rw [List.drop_drop]
    congr 1
    omega
  have hOthers :
      (data.drop (alignUp position alignment)).drop
          (stop - alignUp position alignment) =
        data.drop stop := by
    rw [List.drop_drop]
    congr 1
    omega
  have hSlice :
      Range.slice ⟨alignUp position alignment, stop⟩ data =
        .ok
          ((data.drop (alignUp position alignment)).take
            (stop - alignUp position alignment)) :=
    if_pos ⟨hBegin, Nat.le_trans hStop hLimit⟩
  simp only [elementSlices, if_neg hInside, hSlice, hRest,
    hOthers]

/-
  Where the elements of an array are decoded, they are the
  bytes of ranges without gaps. The induction is on the
  offsets, over the position of the element before.
-/
theorem foundElements_of_decodeSlices
    {element : Ty}
    {data : List UInt8}
    {limit : Nat}
    (position : Nat)
    (hLimit : limit ≤ data.length)
    {offsets : List Nat}
    {children : List Variant}
    (hDecode :
      Variant.decodeSlices decodeOne
          ((elementSlices element.layout.alignment limit
              (data.drop position) position offsets).map
            fun _ => element)
          (elementSlices element.layout.alignment limit
            (data.drop position) position offsets) =
        .ok children) :
    FoundElements element.layout limit position
        (elementRanges element.layout.alignment position
          offsets) ∧
      Variant.decodeSlices decodeOne
          ((elementRanges element.layout.alignment position
              offsets).map
            fun _ => element)
          ((elementRanges element.layout.alignment position
              offsets).map
            fun range => range.slice data) =
        .ok children := by
  induction offsets generalizing position children with
  | nil =>
      exact
        ⟨⟨.nil position, by simp [elementRanges]⟩, hDecode⟩
  | cons stop offsets ih =>
      by_cases hInside :
          alignUp position element.layout.alignment ≤ stop ∧
            stop ≤ limit
      · rcases hInside with ⟨hBegin, hStop⟩
        rw [elementSlices_cons hBegin hStop hLimit,
          List.map_cons,
          Variant.decodeSlices_cons_eq_ok_iff] at hDecode
        rcases hDecode with
          ⟨content, child, rest, hSlice, hChild, hRest, rfl⟩
        rcases ih stop hRest with ⟨hFound, hRanges⟩
        refine ⟨⟨.cons rfl hBegin hFound.tiles, ?_⟩, ?_⟩
        · exact
            List.forall_mem_cons.mpr ⟨hStop, hFound.stop_le⟩
        · exact
            Variant.decodeSlices_cons_eq_ok_iff.mpr
              ⟨content, child, rest, hSlice, hChild, hRanges,
                rfl⟩
      · have hOutside :
            stop < alignUp position element.layout.alignment ∨
              limit < stop := by
          omega
        simp only [elementSlices, if_pos hOutside,
          List.map_cons, Variant.decodeSlices] at hDecode
        cases hDecode

/- Every slice with a type is decoded to a child. -/
theorem length_of_decodeSlices
    {types : List Ty}
    {slices : List Slice}
    {children : List Variant}
    (hTypes : types.length = slices.length)
    (hDecode :
      Variant.decodeSlices decodeOne types slices =
        .ok children) :
    children.length = slices.length := by
  induction types generalizing slices children with
  | nil =>
      simp only [Variant.decodeSlices] at hDecode
      cases hDecode
      exact hTypes
  | cons type types ih =>
      cases slices with
      | nil => cases hTypes
      | cons slice slices =>
          rcases Variant.decodeSlices_cons_eq_ok_iff.mp
              hDecode with ⟨_, child, rest, _, _, hRest, rfl⟩
          rw [List.length_cons, List.length_cons,
            ih (Nat.succ.inj hTypes) hRest]

end Framing

end GVariant

------------------------------------------------------------
-- Framed Arrays
------------------------------------------------------------

namespace GVariant

namespace Framing

/-
  There are elements, and the table lists the end of each of
  them and nothing else. The last one ends where the table
  starts, and every byte before that is in an element, or is
  padding before one.
-/
structure ArrayFramed
    (element : Layout)
    (data : List UInt8)
    (ranges : List Range) : Prop where
  ne_nil : ranges ≠ []
  length_table :
    arrayTableStart data +
        widthOf data.length * ranges.length =
      data.length
  offset :
    ∀ (index : Nat) (hIndex : index < ranges.length),
      readOffset data
          (arrayTableStart data + widthOf data.length * index)
          (widthOf data.length) =
        .ok ranges[index].stop
  lastStop_eq : lastStop 0 ranges = arrayTableStart data
  covered :
    ∀ index < arrayTableStart data,
      (∃ range ∈ ranges,
          range.start ≤ index ∧ index < range.stop) ∨
        IsPadding 0 (List.replicate ranges.length element)
          ranges index

variable {element : Layout}
variable {data : List UInt8}

/- The table lists nothing if it starts at its end. -/
theorem arrayOffsets_eq_nil_iff
    (hStart : arrayTableStart data ≤ data.length)
    (hEven :
      (data.length - arrayTableStart data) %
          widthOf data.length =
        0) :
    arrayOffsets data = [] ↔
      arrayTableStart data = data.length := by
  have hSize := mul_length_arrayOffsets hEven
  constructor
  · intro hNone
    rw [hNone, List.length_nil, Nat.mul_zero] at hSize
    omega
  · intro hTable
    apply List.length_eq_zero_iff.mp
    rw [length_arrayOffsets, hTable, Nat.sub_self,
      Nat.zero_div]

/- A table that is not empty lists where it starts, last. -/
theorem getLast?_arrayOffsets
    (hStart : arrayTableStart data ≤ data.length)
    (hEven :
      (data.length - arrayTableStart data) %
          widthOf data.length =
        0)
    (hSome : arrayOffsets data ≠ []) :
    (arrayOffsets data).getLast? =
      some (arrayTableStart data) := by
  have hSize := mul_length_arrayOffsets hEven
  cases hCount : (arrayOffsets data).length with
  | zero =>
      exact absurd (List.length_eq_zero_iff.mp hCount) hSome
  | succ count =>
      have hPlace :
          arrayTableStart data + widthOf data.length * count =
            data.length - widthOf data.length := by
        rw [hCount, Nat.mul_succ] at hSize
        omega
      have hIndex : count < (arrayOffsets data).length := by
        omega
      rw [List.getLast?_eq_getElem?, hCount,
        Nat.add_sub_cancel, getElem?_arrayOffsets hIndex,
        hPlace, take_drop_widthOf, arrayTableStart]

/-
  The elements that end at the offsets are all of the data
  before the table, exactly if there is a table.
-/
theorem arrayFramed_iff
    (hData : data ≠ [])
    (hStart : arrayTableStart data ≤ data.length)
    (hEven :
      (data.length - arrayTableStart data) %
          widthOf data.length =
        0)
    (hFound :
      FoundElements element (arrayTableStart data) 0
        (elementRanges element.alignment 0
          (arrayOffsets data))) :
    ArrayFramed element data
        (elementRanges element.alignment 0
          (arrayOffsets data)) ↔
      arrayTableStart data ≠ data.length := by
  have hWidth : 0 < widthOf data.length :=
    widthOf_pos (by simpa using hData)
  have hCount :
      (elementRanges element.alignment 0
          (arrayOffsets data)).length =
        (arrayOffsets data).length :=
    length_elementRanges element.alignment 0 _
  constructor
  · intro hFramed hEmpty
    have hRanges := List.length_pos_iff.mpr hFramed.ne_nil
    have hSize := Nat.mul_pos hWidth hRanges
    have hTable := hFramed.length_table
    omega
  · intro hTable
    have hSome : arrayOffsets data ≠ [] :=
      mt (arrayOffsets_eq_nil_iff hStart hEven).mp hTable
    have hLast := getLast?_arrayOffsets hStart hEven hSome
    have hStop :
        lastStop 0
            (elementRanges element.alignment 0
              (arrayOffsets data)) =
          arrayTableStart data := by
      apply lastStop_eq_of_getLast?
      rw [map_stop_elementRanges]
      exact hLast
    refine ⟨?_, ?_, ?_, hStop, ?_⟩
    · intro hNil
      rw [hNil, List.length_nil] at hCount
      exact hSome (List.length_eq_zero_iff.mp hCount.symm)
    · rw [hCount, mul_length_arrayOffsets hEven]
      omega
    · intro index hIndex
      have hOffset : index < (arrayOffsets data).length :=
        hCount ▸ hIndex
      have hEntry := getElem?_arrayOffsets hOffset
      have hBound :
          widthOf data.length * index +
              widthOf data.length ≤
            data.length - arrayTableStart data := by
        rw [← Nat.mul_succ, ← mul_length_arrayOffsets hEven]
        exact Nat.mul_le_mul_left _ hOffset
      rw [← map_stop_elementRanges element.alignment 0
        (arrayOffsets data), List.getElem?_map,
        List.getElem?_eq_getElem hIndex] at hEntry
      rw [readOffset, if_pos (by omega)]
      exact congrArg _ (Option.some.inj hEntry).symm
    · intro index hIndex
      exact
        hFound.tiles.covers (Nat.zero_le index)
          (hStop ▸ hIndex)

end Framing

end GVariant

------------------------------------------------------------
-- Decoded Arrays
------------------------------------------------------------

namespace GVariant

namespace Variant

/-
  The elements of an array are decoded from the ranges that
  its table lists. These are found in data that has a table
  of whole offsets.
-/
theorem exists_elements_of_decodeLevels
    {order : ByteOrder}
    {limit levels : Nat}
    {element : Ty}
    {data : List UInt8}
    {v : Variant}
    (hVarying : element.isFixedSize = false)
    (hData : data ≠ [])
    (hDecode :
      decodeLevels order limit (levels + 1) (.array element)
          data =
        .ok v) :
    ∃ slices,
      Framing.varyingSlices element.layout.alignment data =
          .ok slices ∧
        decodeSlices (decodeLevels order limit levels)
            (slices.map fun _ => element) slices =
          .ok v.children := by
  have hByte : element ≠ .byte := by
    rintro rfl
    cases hVarying
  have hSize : element.layout.fixedSize = none := by
    simpa [Ty.isFixedSize, Layout.isFixed] using hVarying
  have hSome : data.isEmpty = false := by
    simpa using hData
  simp only [decodeLevels, if_neg hByte, Framing.arraySlices,
    hSize, hSome, Bool.false_eq_true, if_false] at hDecode
  split at hDecode
  · cases hDecode
  · rename_i slices hSlices
    split at hDecode
    · cases hDecode
    · rename_i children hChildren
      cases hDecode
      exact ⟨slices, hSlices, hChildren⟩

/-
  The elements of a decoded array of no fixed size are in
  order and keep off the table, for any data that is not
  empty. There are elements, and they and their table leave
  nothing out, exactly if the last offset is not the size of
  the data. If it is, nothing of the data is decoded.
-/
theorem arrayFramed_iff_of_decodeLevels
    {order : ByteOrder}
    {limit levels : Nat}
    {element : Ty}
    {data : List UInt8}
    {v : Variant}
    (hVarying : element.isFixedSize = false)
    (hData : data ≠ [])
    (hDecode :
      decodeLevels order limit (levels + 1) (.array element)
          data =
        .ok v) :
    ∃ ranges : List Framing.Range,
      ranges.length = v.children.length ∧
        decodeSlices (decodeLevels order limit levels)
            (ranges.map fun _ => element)
            (ranges.map fun range => range.slice data) =
          .ok v.children ∧
        (ranges.Pairwise fun range next =>
          range.stop ≤ next.start) ∧
        (∀ range ∈ ranges,
          range.start ≤ range.stop ∧
            range.stop ≤ Framing.arrayTableStart data) ∧
        Framing.arrayTableStart data ≤ data.length ∧
        (Framing.ArrayFramed element.layout data ranges ↔
          Framing.arrayTableStart data ≠ data.length) ∧
        (v.children = [] ↔
          Framing.arrayTableStart data = data.length) := by
  rcases exists_elements_of_decodeLevels hVarying hData
      hDecode with ⟨slices, hSlices, hChildren⟩
  rcases Framing.varyingSlices_eq_ok hSlices with
    ⟨hStart, hEven, rfl⟩
  rcases Framing.foundElements_of_decodeSlices 0 hStart
      hChildren with ⟨hFound, hRanges⟩
  have hFramed :=
    Framing.arrayFramed_iff hData hStart hEven hFound
  have hCount :=
    Framing.length_of_decodeSlices (by simp) hRanges
  rw [List.length_map] at hCount
  refine
    ⟨_, hCount.symm, hRanges, hFound.tiles.pairwise, ?_,
      hStart, hFramed, ?_⟩
  · intro range hMem
    exact
      ⟨(hFound.tiles.bounds range hMem).2.1,
        hFound.stop_le range hMem⟩
  · rw [← Framing.arrayOffsets_eq_nil_iff hStart hEven,
      ← List.length_eq_zero_iff, hCount,
      Framing.length_elementRanges, List.length_eq_zero_iff]

/- Pairs that are aligned to four bytes, with a gap. -/
def alignedPairs : Variant :=
  .arrayOf (.tuple [.basic (.int .uint32), .string])
    [.tuple
        [.scalar (.int .uint32 7), .scalar (.text .string "a")],
      .tuple
        [.scalar (.int .uint32 1), .scalar (.text .string "")]]

example :
    alignedPairs.encode .little =
      [7, 0, 0, 0, 97, 0, 0, 0, 1, 0, 0, 0, 0, 6, 13] := by
  rfl

theorem arrayFramed_alignedPairs :
    decodeLevels .big 3 3 alignedPairs.type
          (alignedPairs.encode .big) =
        .ok alignedPairs ∧
      Framing.arrayTableStart (alignedPairs.encode .big) =
          13 ∧
        ∃ ranges : List Framing.Range,
          ranges.length = 2 ∧
            Framing.ArrayFramed ⟨4, none⟩
              (alignedPairs.encode .big) ranges := by
  have hDecode :
      decodeLevels .big 3 3 alignedPairs.type
          (alignedPairs.encode .big) =
        .ok alignedPairs := by
    rfl
  have hTable :
      Framing.arrayTableStart (alignedPairs.encode .big) =
        13 := by
    rfl
  rcases arrayFramed_iff_of_decodeLevels rfl
      (by decide) hDecode with
    ⟨ranges, hCount, _, _, _, _, hFramed, _⟩
  exact
    ⟨hDecode, hTable, ranges, hCount,
      hFramed.mpr (by rw [hTable]; decide)⟩

/-
  A string array of one byte, which is an offset that says
  that the table starts behind it. The byte is neither the
  offset of an element nor in one: the array is empty.
-/
theorem not_arrayFramed_endOffset :
    decode (.array .string) [1] .little =
        .ok (.arrayOf .string []) ∧
      Framing.arrayTableStart [1] = 1 ∧
        ∀ ranges : List Framing.Range,
          ¬ Framing.ArrayFramed Ty.string.layout [1]
            ranges := by
  have hStart : Framing.arrayTableStart [1] = 1 := by
    rfl
  refine ⟨by rfl, hStart, ?_⟩
  intro ranges hFramed
  have hTable := hFramed.length_table
  have hRanges := List.length_pos_iff.mpr hFramed.ne_nil
  have hWidth : Framing.widthOf [(1 : UInt8)].length = 1 := by
    rfl
  rw [hStart, hWidth, List.length_singleton] at hTable
  omega

/- Three bytes of a string are left out in the same way. -/
example :
    decode (.array .string) [97, 98, 0, 4] .little =
      .ok (.arrayOf .string []) := by
  rfl

end Variant

end GVariant
