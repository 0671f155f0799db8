import GVariant.Proofs.Binary.Checked
import GVariant.Proofs.Binary.OffsetFaults
import Mathlib.Data.List.TakeWhile

/-
  The decoder never traps.

  The decoder on words does what the decoder on natural
  numbers does, whatever the bytes, if the words are wide
  enough for the sizes of the types and the data.

  A fixed size is at most eight bytes for each character of
  a type string that is not a bracket. Words of 64 bits hold
  it, beside a position in fewer than `2 ^ 63` bytes, unless
  a type string is of about `2 ^ 61` characters. Among
  tuples of numbers the bound is met: the first tuple beyond
  it has a size that is no word, and is never decoded.

  Key definitions include:
    * `Checked.Room`
    * `Checked.SafeAt`

  Main declarations:
    * `Checked.openBox_eq`
    * `Checked.decodeArray_eq`
    * `Checked.decodeTuple_eq`
    * `Checked.safeAt_of_levels`
    * `Checked.decode_overflow`
    * `Checked.decode_safe`
-/

------------------------------------------------------------
-- Room In The Words
------------------------------------------------------------

namespace GVariant

namespace Checked

/-
  Words that can hold a depth beside the sizes of a type
  string and of data, and, beside a position in the data,
  the fixed size of the type. So they can hold that of any
  type whose string is in the data, beside a position before
  it. What is decoded below needs no more room.
-/
structure Room
    (most depth : Nat)
    (type : Ty)
    (data : List UInt8) : Prop where
  nesting :
    depth + type.chars.length + data.length ≤ most
  margin : data.length + 8 ≤ most
  own : data.length + 8 * type.chars.length ≤ most + 9
  boxed :
    ∀ other : Ty,
      other.encode <:+: data →
        data.length + 7 * other.chars.length ≤ most + 10

namespace Room

variable {most depth : Nat}
variable {type item : Ty}
variable {data content : List UInt8}

/- The depth below is a word. -/
theorem deeper
    (hRoom : Room most depth type data) :
    depth + 1 ≤ most := by
  have hNesting := hRoom.nesting
  have hPos := type.length_chars_pos
  omega

/- Members and elements are shorter types of some data. -/
theorem child
    (hRoom : Room most depth type data)
    (hItem : item.chars.length < type.chars.length)
    (hContent : content <:+: data) :
    Room most (depth + 1) item content := by
  have hLength := hContent.length_le
  have hNesting := hRoom.nesting
  have hMargin := hRoom.margin
  have hOwn := hRoom.own
  refine ⟨by omega, by omega, by omega, ?_⟩
  intro other hOther
  have hSize := hRoom.boxed other (hOther.trans hContent)
  omega

/- The content of a box is shorter by its type string. -/
theorem box
    (hRoom : Room most depth .variant data)
    (hData : data = content ++ 0 :: type.encode) :
    Room most (depth + 1) type content := by
  have hEncode : type.encode.length = type.chars.length :=
    List.length_map _
  have hLength := congrArg List.length hData
  simp only [List.length_append, List.length_cons,
    hEncode] at hLength
  have hContent : content <:+: data :=
    ⟨[], 0 :: type.encode, by rw [hData]; simp⟩
  have hType : type.encode <:+: data :=
    ⟨content ++ [0], [], by rw [hData]; simp⟩
  have hNesting := hRoom.nesting
  have hMargin := hRoom.margin
  have hSize := hRoom.boxed type hType
  simp only [Ty.chars, List.length_singleton] at hNesting
  refine ⟨by omega, by omega, by omega, ?_⟩
  intro other hOther
  have hOtherSize := hRoom.boxed other (hOther.trans hContent)
  omega

end Room

end Checked

end GVariant

------------------------------------------------------------
-- Boxes And Maybes
------------------------------------------------------------

namespace GVariant

namespace Utf8

/- Bytes that are a text are the bytes of that text. -/
theorem encode_of_decode
    {bytes : List UInt8}
    {text : String}
    (hDecode : decode bytes = .ok text) :
    encode text = bytes := by
  unfold decode String.fromUTF8? at hDecode
  split at hDecode
  · rename_i found hFound
    split at hFound
    · cases hFound
      cases hDecode
      rfl
    · cases hFound
  · cases hDecode

end Utf8

namespace Checked

/- Without a position no byte is zero. -/
theorem lastZero?_eq_none
    {data : List UInt8}
    (hNone : lastZero? data = none) :
    ∀ byte ∈ data, byte ≠ 0 := by
  induction data with
  | nil => simp
  | cons byte data ih =>
      unfold lastZero? at hNone
      split at hNone
      · cases hNone
      · rename_i hTail
        split at hNone
        · cases hNone
        · rename_i hByte
          exact List.forall_mem_cons.mpr ⟨hByte, ih hTail⟩

/- The last zero byte splits the data. -/
theorem lastZero?_eq_some
    {data : List UInt8}
    {position : Nat}
    (hSome : lastZero? data = some position) :
    position < data.length ∧
      data =
        data.take position ++ 0 :: data.drop (position + 1) ∧
      ∀ byte ∈ data.drop (position + 1), byte ≠ 0 := by
  induction data generalizing position with
  | nil => cases hSome
  | cons byte data ih =>
      unfold lastZero? at hSome
      split at hSome
      · rename_i before hTail
        cases hSome
        rcases ih hTail with ⟨hLess, hSplit, hBehind⟩
        refine ⟨Nat.succ_lt_succ hLess, ?_, hBehind⟩
        simp only [List.take_succ_cons, List.drop_succ_cons,
          List.cons_append]
        exact congrArg _ hSplit
      · rename_i hTail
        split at hSome
        · rename_i hByte
          cases hSome
          exact
            ⟨Nat.succ_pos _, by simp [hByte],
              by simpa using lastZero?_eq_none hTail⟩
        · cases hSome

/- So it is where the bytes are split without a position. -/
theorem splitAtLastZero?_eq
    (data : List UInt8) :
    Bytes.splitAtLastZero? data =
      (lastZero? data).map fun position =>
        (data.take position, data.drop (position + 1)) := by
  cases hLast : lastZero? data with
  | none =>
      have hAll : ∀ byte ∈ data.reverse, byte ≠ 0 := by
        intro byte hMem
        exact
          lastZero?_eq_none hLast byte
            (List.mem_reverse.mp hMem)
      have hDrop :
          data.reverse.dropWhile (· != 0) = [] := by
        rw [List.dropWhile_eq_nil_iff]
        simpa using hAll
      simp only [Bytes.splitAtLastZero?, hDrop, Option.map]
  | some position =>
      rcases lastZero?_eq_some hLast with
        ⟨_, hSplit, hBehind⟩
      have hFound :=
        Bytes.splitAtLastZero?_append (data.take position)
          hBehind
      rw [← hSplit] at hFound
      exact hFound

/- The data of a box is its content and its type string. -/
theorem eq_of_openBox
    {limit levels : Nat}
    {data content : List UInt8}
    {type : Ty}
    (hOpen :
      Variant.openBox limit levels data =
        .ok (type, content)) :
    data = content ++ 0 :: type.encode := by
  unfold Variant.openBox at hOpen
  rw [splitAtLastZero?_eq] at hOpen
  cases hLast : lastZero? data with
  | none =>
      rw [hLast] at hOpen
      cases hOpen
  | some position =>
      rw [hLast] at hOpen
      simp only [Option.map_some] at hOpen
      split at hOpen
      · cases hOpen
      · rename_i typeString hText
        split at hOpen
        · cases hOpen
        · rename_i found r hRead
          split at hOpen
          · cases hOpen
          · rename_i hEnd
            cases hOpen
            have hRest : r.rest = [] := by
              unfold Reader.expectEnd at hEnd
              split at hEnd
              · rename_i hEmpty
                exact List.isEmpty_iff.mp hEmpty
              · cases hEnd
            have hTook := (Reader.took_of_read hRead).1.1
            rw [hRest, List.append_nil] at hTook
            have hString : typeString = type.signature := by
              rw [← String.toList_inj]
              simpa [Reader.ofString, Reader.ofChars,
                Ty.signature] using hTook
            have hBytes := Utf8.encode_of_decode hText
            rw [hString, Utf8.encode_signature] at hBytes
            rw [hBytes]
            exact (lastZero?_eq_some hLast).2.1

/- A box is opened without a trap. -/
theorem openBox_eq
    {most limit levels depth : Nat}
    {data : List UInt8}
    (hRoom : Room most depth .variant data)
    (hLevels : levels + depth = limit) :
    openBox most limit depth data =
      ofResult (Variant.openBox limit levels data) := by
  unfold openBox Variant.openBox
  rw [splitAtLastZero?_eq]
  cases hLast : lastZero? data with
  | none => rfl
  | some position =>
      have hLess := (lastZero?_eq_some hLast).1
      have hNesting := hRoom.nesting
      have hBehind :
          add most position 1 = pure (position + 1) :=
        add_eq (by omega)
      have hType :
          sliceFrom data (position + 1) =
            pure (data.drop (position + 1)) :=
        sliceFrom_eq hLess
      have hContent :
          sliceTo data position = pure (data.take position) :=
        sliceTo_eq (Nat.le_of_lt hLess)
      have hDeeper : add most depth 1 = pure (depth + 1) :=
        add_eq hRoom.deeper
      simp only [Option.map_some, hBehind, hType, hContent,
        hDeeper, pure_bind]
      cases Utf8.decode (data.drop (position + 1)) with
      | error fault => rfl
      | ok typeString =>
          have hLeft :
              (Reader.ofString typeString limit).levelsAt
                  (depth + 1) =
                levels := by
            simp only [Reader.levelsAt, Reader.ofString,
              Reader.ofChars]
            omega
          simp only [Reader.readAt, hLeft]
          rcases (Reader.ofString typeString limit).read
              levels with ⟨e | type, r⟩
          · rfl
          · cases hEnd : r.expectEnd with
            | error e => simp only [hEnd]; rfl
            | ok _ => simp only [hEnd]; rfl

/- A maybe is opened without a trap. -/
theorem openMaybe_eq
    {most : Nat}
    {element : Ty}
    (hMost : 8 * element.chars.length ≤ most + 9)
    (data : List UInt8) :
    openMaybe most element data =
      ofSlice (Variant.openMaybe element data) := by
  rw [openMaybe, layout_eq hMost, pure_bind,
    Variant.openMaybe]
  by_cases hFixed : element.layout.isFixed = true
  · rw [if_pos hFixed, Ty.isFixedSize, if_pos hFixed]
    rfl
  · rw [if_neg hFixed, Ty.isFixedSize, if_neg hFixed]
    rcases Bytes.splitLast? data with _ | ⟨content, last⟩
    · rfl
    · by_cases hZero : last = 0
      · subst hZero
        rfl
      · simp [hZero, ofSlice]

/- The content of a maybe is part of its data. -/
theorem infix_of_openMaybe
    {element : Ty}
    {data content : List UInt8}
    (hOpen : Variant.openMaybe element data = .ok content) :
    content <:+: data := by
  unfold Variant.openMaybe at hOpen
  split at hOpen
  · cases hOpen
    exact List.infix_rfl
  · split at hOpen
    · rename_i hSplit
      cases hOpen
      unfold Bytes.splitLast? at hSplit
      split at hSplit
      · cases hSplit
      · cases hSplit
        exact (List.dropLast_prefix data).isInfix
    · cases hOpen

end Checked

end GVariant

------------------------------------------------------------
-- Pieces And Slices
------------------------------------------------------------

namespace GVariant

namespace Framing

/- Whole pieces have their size and are part of the data. -/
theorem of_mem_chunksFrom
    {size count : Nat}
    {data piece : List UInt8}
    (hCount : size * count ≤ data.length)
    (hMem : piece ∈ chunksFrom size count data) :
    piece.length = size ∧ piece <:+: data := by
  induction count generalizing data with
  | zero => cases hMem
  | succ count ih =>
      rw [Nat.mul_succ] at hCount
      rcases List.mem_cons.mp hMem with rfl | hMem
      · refine ⟨?_, (List.take_prefix size data).isInfix⟩
        rw [List.length_take]
        omega
      · have hRest :
            size * count ≤ (data.drop size).length := by
          rw [List.length_drop]
          omega
        rcases ih hRest hMem with ⟨hLength, hInfix⟩
        exact
          ⟨hLength,
            hInfix.trans (List.drop_suffix size data).isInfix⟩

theorem of_mem_chunks
    {size : Nat}
    {data piece : List UInt8}
    (hMem : piece ∈ chunks size data) :
    piece.length = size ∧ piece <:+: data :=
  of_mem_chunksFrom (Nat.mul_div_le data.length size) hMem

/- A slice is within the data. -/
theorem of_slice_eq_ok
    {data content : List UInt8}
    {start stop : Nat}
    (hSlice : slice data start stop = .ok content) :
    start ≤ stop ∧ stop ≤ data.length ∧ content <:+: data := by
  rcases slice_eq_ok_iff.mp hSlice with ⟨hBounds, rfl⟩
  refine ⟨hBounds.1, hBounds.2, ?_⟩
  exact
    (List.take_prefix _ _).isInfix.trans
      (List.drop_suffix start data).isInfix

/- Offsets are at most eight bytes wide. -/
theorem widthOf_le_eight
    (length : Nat) :
    widthOf length ≤ 8 := by
  unfold widthOf
  grind

end Framing

namespace Checked

/- A child and then the others, neither with a trap. -/
theorem bind_children
    {T : Type}
    {decodeOne : T → List UInt8 → Except Error Variant}
    {type : T}
    {types : List T}
    {content : List UInt8}
    {slices : List Framing.Slice}
    {first : Checked Variant}
    {rest : Checked (List Variant)}
    (hFirst : first = ofResult (decodeOne type content))
    (hRest :
      rest =
        ofResult
          (Variant.decodeSlices decodeOne types slices)) :
    (do
        let child ← first
        let children ← rest
        pure (child :: children)) =
      ofResult
        (Variant.decodeSlices decodeOne (type :: types)
          (.ok content :: slices)) := by
  rw [hFirst, hRest, Variant.decodeSlices]
  cases decodeOne type content with
  | error e => rfl
  | ok child =>
      cases Variant.decodeSlices decodeOne types slices <;> rfl

end Checked

end GVariant

------------------------------------------------------------
-- Arrays
------------------------------------------------------------

namespace GVariant

namespace Checked

variable {most : Nat}
variable {element : Ty}
variable {data : List UInt8}
variable {decodeChecked : List UInt8 → Checked Variant}
variable {decodeOne : Ty → List UInt8 → Except Error Variant}

/- Pieces are decoded like slices that exist. -/
theorem decodePieces_eq
    {pieces : List (List UInt8)}
    (hOne :
      ∀ piece ∈ pieces,
        decodeChecked piece =
          ofResult (decodeOne element piece)) :
    decodePieces decodeChecked pieces =
      ofResult
        (Variant.decodeSlices decodeOne
          ((pieces.map Except.ok).map
            fun (_ : Framing.Slice) => element)
          (pieces.map Except.ok)) := by
  induction pieces with
  | nil => rfl
  | cons piece pieces ih =>
      rcases List.forall_mem_cons.mp hOne with
        ⟨hFirst, hOthers⟩
      exact bind_children hFirst (ih hOthers)

/-
  Elements are decoded up to the table, and what is out of
  order is found before it is sliced. The induction is on
  the offsets, over a position before the table.
-/
theorem decodeElements_eq
    {alignment width tableStart : Nat}
    (position : Nat)
    {offsets : List (List UInt8)}
    (hOne :
      ∀ content,
        content <:+: data →
          decodeChecked content =
            ofResult (decodeOne element content))
    (hWord : Framing.maxLength ≤ most)
    (hPos : 0 < alignment)
    (hData : data.length + alignment ≤ most)
    (hWidth : width ≤ 8)
    (hOffsets : ∀ offset ∈ offsets, offset.length = width)
    (hPosition : position ≤ tableStart)
    (hTable : tableStart ≤ data.length) :
    decodeElements most decodeChecked alignment width data
        tableStart position offsets =
      ofResult
        (Variant.decodeSlices decodeOne
          ((Framing.elementSlices alignment tableStart
              (data.drop position) position
              (offsets.map Bytes.ofLittleEndian)).map
            fun _ => element)
          (Framing.elementSlices alignment tableStart
            (data.drop position) position
            (offsets.map Bytes.ofLittleEndian))) := by
  induction offsets generalizing position with
  | nil => rfl
  | cons offset offsets ih =>
      rcases List.forall_mem_cons.mp hOffsets with
        ⟨hLength, hOthers⟩
      have hStop :
          readOffset most offset width =
            pure (Bytes.ofLittleEndian offset) := by
        rw [readOffset_eq hWord hWidth
          (Nat.le_of_eq hLength.symm),
          List.take_of_length_le (Nat.le_of_eq hLength)]
      have hStart :
          alignUp most position alignment =
            pure (GVariant.alignUp position alignment) :=
        alignUp_eq hPos fun _ => by omega
      rw [decodeElements, hStop, pure_bind, hStart,
        pure_bind, List.map_cons]
      generalize Bytes.ofLittleEndian offset = stop
      by_cases hInside :
          GVariant.alignUp position alignment ≤ stop ∧
            stop ≤ tableStart
      · rcases hInside with ⟨hBegin, hEnd⟩
        have hContent :=
          sliceBetween_eq hBegin (Nat.le_trans hEnd hTable)
        have hSlice :
            Framing.Range.slice
                ⟨GVariant.alignUp position alignment, stop⟩
                data =
              .ok
                ((data.drop
                    (GVariant.alignUp position
                      alignment)).take
                  (stop -
                    GVariant.alignUp position alignment)) :=
          if_pos ⟨hBegin, Nat.le_trans hEnd hTable⟩
        have hInfix :=
          (Framing.of_slice_eq_ok hSlice).2.2
        rw [if_neg (by omega), hContent, pure_bind,
          Framing.elementSlices_cons hBegin hEnd hTable,
          hSlice]
        exact
          bind_children (hOne _ hInfix)
            (ih stop hOthers hEnd)
      · have hOutside :
            stop < GVariant.alignUp position alignment ∨
              tableStart < stop := by
          omega
        rw [if_pos hOutside, Framing.elementSlices,
          if_pos hOutside]
        rfl

/- An array with a table is decoded without a trap. -/
theorem decodeVarying_eq
    {alignment : Nat}
    (hOne :
      ∀ content,
        content <:+: data →
          decodeChecked content =
            ofResult (decodeOne element content))
    (hWord : Framing.maxLength ≤ most)
    (hPos : 0 < alignment)
    (hMost : data.length + alignment ≤ most)
    (hData : data ≠ []) :
    decodeVarying most decodeChecked alignment data =
      ofResult
        (match Framing.varyingSlices alignment data with
        | .error fault => .error (.data fault)
        | .ok slices =>
            Variant.decodeSlices decodeOne
              (slices.map fun _ => element) slices) := by
  have hWidth : 0 < Framing.widthOf data.length :=
    Framing.widthOf_pos (by simpa using hData)
  have hEight := Framing.widthOf_le_eight data.length
  have hLe := Framing.widthOf_le data.length
  have hLastBytes :
      sliceFrom data
          (data.length - Framing.widthOf data.length) =
        pure _ :=
    sliceFrom_eq (Nat.sub_le _ _)
  have hTableStart :
      readOffset most
          (data.drop
            (data.length - Framing.widthOf data.length))
          (Framing.widthOf data.length) =
        pure _ :=
    readOffset_eq hWord hEight
      (by rw [List.length_drop]; omega)
  have hRead :
      Framing.readOffset data
          (data.length - Framing.widthOf data.length)
          (Framing.widthOf data.length) =
        .ok _ :=
    if_pos (by omega)
  simp only [decodeVarying, sub_eq hLe, hLastBytes,
    hTableStart, pure_bind, Framing.varyingSlices, hRead]
  generalize
    Bytes.ofLittleEndian
      ((data.drop
          (data.length - Framing.widthOf data.length)).take
        (Framing.widthOf data.length)) = tableStart
  cases hTable :
      Framing.slice data tableStart data.length with
  | error fault => rfl
  | ok table =>
      have hInside := Framing.of_slice_eq_ok hTable
      simp only [ofSlice, pure_bind, rem_eq hWidth,
        div_eq hWidth, chunks_eq hWidth]
      by_cases hExcess :
          table.length % Framing.widthOf data.length = 0
      · simp only [hExcess, ne_eq, not_true_eq_false,
          if_false]
        exact
          decodeElements_eq 0 hOne hWord hPos hMost hEight
            (fun offset hMem =>
              (Framing.of_mem_chunks hMem).1)
            (Nat.zero_le _) hInside.1
      · simp only [ne_eq, hExcess, not_false_eq_true,
          if_true]
        rfl

/- An array is decoded without a trap. -/
theorem decodeArray_eq
    (hOne :
      ∀ content,
        content <:+: data →
          decodeChecked content =
            ofResult (decodeOne element content))
    (hWord : Framing.maxLength ≤ most)
    (hMost : 8 * element.chars.length ≤ most + 9)
    (hData : data.length + 8 ≤ most) :
    decodeArray most decodeChecked element data =
      ofResult
        (match Framing.arraySlices element.layout data with
        | .error fault => .error (.data fault)
        | .ok slices =>
            Variant.decodeSlices decodeOne
              (slices.map fun _ => element) slices) := by
  have hRegular := element.regular_layout
  have hAlignment := alignment_le element
  rw [decodeArray, layout_eq hMost, pure_bind,
    Framing.arraySlices]
  cases hSize : element.layout.fixedSize with
  | some size =>
      have hPos := hRegular.size_pos size hSize
      simp only [rem_eq hPos, chunks_eq hPos, pure_bind]
      by_cases hExcess : data.length % size = 0
      · simp only [hExcess, ne_eq, not_true_eq_false,
          if_false]
        exact
          decodePieces_eq fun piece hMem =>
            hOne piece (Framing.of_mem_chunks hMem).2
      · simp only [ne_eq, hExcess, not_false_eq_true, if_true]
        rfl
  | none =>
      by_cases hEmpty : data.isEmpty = true
      · simp only [hEmpty, if_true]
        rfl
      · simp only [hEmpty, Bool.false_eq_true, if_false]
        exact
          decodeVarying_eq hOne hWord hRegular.alignment_pos
            (by omega) (by simpa using hEmpty)

end Checked

end GVariant

------------------------------------------------------------
-- Tuples
------------------------------------------------------------

namespace GVariant

namespace Ty

/- An item stands between the brackets of its type. -/
theorem length_chars_add_two_le_of_mem_items
    {type item : Ty}
    (hMem : item ∈ type.items) :
    item.chars.length + 2 ≤ type.chars.length := by
  cases type with
  | tuple members =>
      have hLe :
          item.chars.length ≤ (charsAll members).length :=
        length_chars_le_of_mem hMem
      simp only [chars, List.length_cons, List.length_append,
        List.length_nil]
      omega
  | dictEntry key value =>
      simp only [items, List.mem_cons, List.not_mem_nil,
        or_false] at hMem
      rcases hMem with rfl | rfl
      · simp [chars]
      · simp only [chars, List.length_cons,
          List.length_append]
        omega
  | _ => cases hMem

/- So it is shorter than its type. -/
theorem length_chars_lt_of_mem_items
    {type item : Ty}
    (hMem : item ∈ type.items) :
    item.chars.length < type.chars.length :=
  Nat.lt_of_succ_le
    (Nat.le_of_succ_le
      (length_chars_add_two_le_of_mem_items hMem))

/- A type has no more items than characters. -/
theorem length_items_le
    (type : Ty) :
    type.items.length ≤ type.chars.length := by
  cases type with
  | tuple items =>
      have hLe := length_le_length_charsAll items
      simp only [Ty.items, chars, List.length_cons,
        List.length_append]
      omega
  | dictEntry key value =>
      simp only [Ty.items, chars, List.length_cons,
        List.length_append, List.length_nil]
      omega
  | _ => exact Nat.zero_le _

end Ty

namespace Checked

variable {most : Nat}
variable {data : List UInt8}

/-
  The end of a member is found without a trap. The offsets
  that were read are within the data, so one more of them is
  at most eight bytes more.
-/
theorem memberEnd_eq
    {width used start : Nat}
    {member : Layout}
    {isLast : Bool}
    (hWord : Framing.maxLength ≤ most)
    (hData : data.length + 8 ≤ most)
    (hWidth : width ≤ 8)
    (hUsed : width * used ≤ data.length)
    (hCount : used + 1 ≤ most)
    (hStart :
      ∀ size,
        member.fixedSize = some size → start + size ≤ most) :
    memberEnd most data width used start member isLast =
      ofSlice
        (Framing.memberEnd data width used start member
          isLast) := by
  cases hSize : member.fixedSize with
  | some size =>
      simp only [memberEnd, Framing.memberEnd, hSize,
        add_eq (hStart size hSize), pure_bind, ofSlice]
  | none =>
      cases isLast with
      | true =>
          have hTable :
              mul most width used = pure (width * used) :=
            mul_eq (by omega)
          simp only [memberEnd, Framing.memberEnd, hSize,
            if_true, hTable, pure_bind, if_pos hUsed, ofSlice]
      | false =>
          have hNext :
              width * (used + 1) = width * used + width :=
            Nat.mul_succ width used
          have hTable :
              mul most width (used + 1) =
                pure (width * (used + 1)) :=
            mul_eq (by omega)
          simp only [memberEnd, Framing.memberEnd, hSize,
            Bool.false_eq_true, if_false, add_eq hCount,
            hTable, pure_bind]
          by_cases hInside :
              width * (used + 1) ≤ data.length
          · have hRest :
                sliceFrom data
                    (data.length - width * (used + 1)) =
                  pure _ :=
              sliceFrom_eq (Nat.sub_le _ _)
            have hStop :
                readOffset most
                    (data.drop
                      (data.length - width * (used + 1)))
                    width =
                  pure _ :=
              readOffset_eq hWord hWidth
                (by rw [List.length_drop]; omega)
            have hRead :
                Framing.readOffset data
                    (data.length - width * (used + 1))
                    width =
                  .ok _ :=
              if_pos (by omega)
            simp only [if_pos hInside, hRest, hStop, hRead,
              pure_bind, ofSlice]
          · simp only [if_neg hInside, ofSlice]

variable {decodeChecked : Ty → List UInt8 → Checked Variant}
variable {decodeOne : Ty → List UInt8 → Except Error Variant}

/-
  Members are decoded without a trap, from a position in the
  data on. The induction is on the items, over the offsets
  that were read.
-/
theorem decodeMembers_eq
    {width used position : Nat}
    {items : List Ty}
    (hOne :
      ∀ item ∈ items,
        ∀ content,
          content <:+: data →
            decodeChecked item content =
              ofResult (decodeOne item content))
    (hWord : Framing.maxLength ≤ most)
    (hMost :
      ∀ item ∈ items,
        data.length + 8 * item.chars.length + 7 ≤ most)
    (hWidth : width ≤ 8)
    (hUsed : width * used ≤ data.length)
    (hCount : used + items.length ≤ most)
    (hPosition : position ≤ data.length) :
    decodeMembers most decodeChecked data width used position
        items =
      ofResult
        (Variant.decodeSlices decodeOne items
          (Framing.memberSlices data width used position
            (Ty.layoutAll items))) := by
  induction items generalizing used position with
  | nil => rfl
  | cons item items ih =>
      rcases List.forall_mem_cons.mp hOne with
        ⟨hFirst, hOthers⟩
      rcases List.forall_mem_cons.mp hMost with
        ⟨hItem, hItems⟩
      have hLength := item.length_chars_pos
      have hAlignment := alignment_le item
      have hAligned :=
        alignUp_lt_add position
          item.regular_layout.alignment_pos
      rw [List.length_cons] at hCount
      have hStart :
          alignUp most position item.layout.alignment =
            pure _ :=
        alignUp_eq item.regular_layout.alignment_pos
          fun _ => by omega
      have hFits :
          ∀ size,
            item.layout.fixedSize = some size →
              GVariant.alignUp position
                    item.layout.alignment +
                  size ≤
                most := by
        intro size hSize
        have hLe := Ty.fixedSize_le hSize
        omega
      have hEnd :
          memberEnd most data width used
              (GVariant.alignUp position
                item.layout.alignment)
              item.layout items.isEmpty =
            ofSlice _ :=
        memberEnd_eq hWord (by omega) hWidth hUsed
          (by omega) hFits
      have hLast :
          (Ty.layoutAll items).isEmpty = items.isEmpty := by
        cases items <;> rfl
      rw [decodeMembers, layout_eq (by omega), pure_bind,
        hStart, pure_bind, hEnd, Ty.layoutAll,
        Framing.memberSlices, hLast]
      cases hFound :
          Framing.memberEnd data width used
            (GVariant.alignUp position item.layout.alignment)
            item.layout items.isEmpty with
      | error fault => rfl
      | ok found =>
          rcases found with ⟨stop, used'⟩
          rcases Framing.used_of_memberEnd hFound with
            ⟨hRead, hTable, _⟩
          simp only [ofSlice, pure_bind]
          cases hSlice :
              Framing.slice data
                (GVariant.alignUp position
                  item.layout.alignment)
                stop with
          | error fault => rfl
          | ok content =>
              rcases Framing.of_slice_eq_ok hSlice with
                ⟨_, hStop, hInfix⟩
              have hRest : used' + items.length ≤ most := by
                split at hRead <;> omega
              simp only [pure_bind]
              exact
                bind_children (hFirst content hInfix)
                  (ih hOthers hItems (hTable hUsed) hRest
                    hStop)

/- A tuple or an entry is decoded without a trap. -/
theorem decodeTuple_eq
    {depth : Nat}
    {type : Ty}
    (hOne :
      ∀ item ∈ type.items,
        ∀ content,
          content <:+: data →
            decodeChecked item content =
              ofResult (decodeOne item content))
    (hWord : Framing.maxLength ≤ most)
    (hRoom : Room most depth type data) :
    decodeTuple most decodeChecked type data =
      ofResult
        (Variant.decodeMembers decodeOne type data) := by
  have hOwn := hRoom.own
  have hNesting := hRoom.nesting
  have hCount := type.length_items_le
  have hMost :
      ∀ item ∈ type.items,
        data.length + 8 * item.chars.length + 7 ≤ most := by
    intro item hMem
    have hItem := Ty.length_chars_add_two_le_of_mem_items hMem
    omega
  have hMembers :
      decodeMembers most decodeChecked data
          (Framing.widthOf data.length) 0 0 type.items =
        ofResult _ :=
    decodeMembers_eq hOne hWord hMost
      (Framing.widthOf_le_eight data.length) (Nat.zero_le _)
      (by omega) (Nat.zero_le _)
  rw [decodeTuple, layout_eq (by omega), pure_bind,
    Variant.decodeMembers, hMembers, Framing.tupleSlices]
  cases hSize : type.layout.fixedSize with
  | none => rfl
  | some size =>
      by_cases hLength : data.length = size
      · simp [hLength]
      · simp only [Option.any_some, ne_eq, hLength,
          not_false_eq_true, decide_true, if_true]
        rfl

end Checked

end GVariant

------------------------------------------------------------
-- Safety
------------------------------------------------------------

namespace GVariant

namespace Checked

/-
  At a depth with some levels left, decoding does not trap
  wherever there is room.
-/
def SafeAt
    (most : Nat)
    (order : ByteOrder)
    (limit levels depth : Nat) : Prop :=
  ∀ (type : Ty) (data : List UInt8),
    Room most depth type data →
      decodeLevels most order limit levels depth type data =
        ofResult
          (Variant.decodeLevels order limit levels type data)

variable {most limit levels depth : Nat}
variable {order : ByteOrder}
variable {data : List UInt8}

/- Shorter types of part of the data have room below. -/
theorem SafeAt.child
    {type : Ty}
    (hBelow : SafeAt most order limit levels (depth + 1))
    (hRoom : Room most depth type data)
    {item : Ty}
    (hItem : item.chars.length < type.chars.length) :
    ∀ content,
      content <:+: data →
        decodeLevels most order limit levels (depth + 1) item
            content =
          ofResult
            (Variant.decodeLevels order limit levels item
              content) :=
  fun content hContent =>
    hBelow item content (hRoom.child hItem hContent)

theorem SafeAt.decode_variant
    (hBelow : SafeAt most order limit levels (depth + 1))
    (hRoom : Room most depth .variant data)
    (hLevels : levels + depth = limit) :
    decodeLevels most order limit (levels + 1) depth .variant
        data =
      ofResult
        (Variant.decodeLevels order limit (levels + 1)
          .variant data) := by
  simp only [decodeLevels, Variant.decodeLevels,
    openBox_eq hRoom hLevels, add_eq hRoom.deeper, pure_bind]
  cases hBox : Variant.openBox limit levels data with
  | error e => rfl
  | ok box =>
      rcases box with ⟨type, content⟩
      have hContent := hRoom.box (eq_of_openBox hBox)
      simp only [ofResult_ok_bind,
        hBelow type content hContent]
      cases Variant.decodeLevels order limit levels type
          content <;>
        rfl

theorem SafeAt.decode_maybe
    {element : Ty}
    (hBelow : SafeAt most order limit levels (depth + 1))
    (hRoom : Room most depth (.maybe element) data) :
    decodeLevels most order limit (levels + 1) depth
        (.maybe element) data =
      ofResult
        (Variant.decodeLevels order limit (levels + 1)
          (.maybe element) data) := by
  have hOwn := hRoom.own
  have hShorter :
      element.chars.length <
        (Ty.maybe element).chars.length :=
    Nat.lt_succ_self _
  have hOpen :
      openMaybe most element data =
        ofSlice (Variant.openMaybe element data) :=
    openMaybe_eq (by omega) data
  simp only [decodeLevels, Variant.decodeLevels, hOpen,
    add_eq hRoom.deeper, pure_bind]
  cases data.isEmpty with
  | true => rfl
  | false =>
      simp only [Bool.false_eq_true, if_false]
      cases hContent : Variant.openMaybe element data with
      | error fault => rfl
      | ok content =>
          have hChild :=
            hBelow.child hRoom hShorter content
              (infix_of_openMaybe hContent)
          simp only [ofSlice, pure_bind, hChild]
          cases Variant.decodeLevels order limit levels
              element content <;>
            rfl

theorem SafeAt.decode_array
    {element : Ty}
    (hBelow : SafeAt most order limit levels (depth + 1))
    (hWord : Framing.maxLength ≤ most)
    (hRoom : Room most depth (.array element) data) :
    decodeLevels most order limit (levels + 1) depth
        (.array element) data =
      ofResult
        (Variant.decodeLevels order limit (levels + 1)
          (.array element) data) := by
  have hOwn := hRoom.own
  have hShorter :
      element.chars.length <
        (Ty.array element).chars.length :=
    Nat.lt_succ_self _
  have hArray :=
    decodeArray_eq (hBelow.child hRoom hShorter) hWord
      (by omega) hRoom.margin
  simp only [decodeLevels, Variant.decodeLevels,
    add_eq hRoom.deeper, pure_bind, hArray]
  by_cases hByte : element = .byte
  · simp only [hByte, if_true]
    rfl
  · simp only [hByte, if_false]
    cases Framing.arraySlices element.layout data with
    | error fault => rfl
    | ok slices =>
        dsimp only
        cases Variant.decodeSlices
            (Variant.decodeLevels order limit levels)
            (slices.map fun _ => element) slices <;>
          rfl

theorem SafeAt.decode_tuple
    {items : List Ty}
    (hBelow : SafeAt most order limit levels (depth + 1))
    (hWord : Framing.maxLength ≤ most)
    (hRoom : Room most depth (.tuple items) data) :
    decodeLevels most order limit (levels + 1) depth
        (.tuple items) data =
      ofResult
        (Variant.decodeLevels order limit (levels + 1)
          (.tuple items) data) := by
  have hTuple :=
    decodeTuple_eq
      (fun item hMem =>
        hBelow.child hRoom
          (Ty.length_chars_lt_of_mem_items hMem))
      hWord hRoom
  simp only [decodeLevels, Variant.decodeLevels,
    add_eq hRoom.deeper, pure_bind, hTuple]
  cases Variant.decodeMembers
      (Variant.decodeLevels order limit levels)
      (.tuple items) data <;>
    rfl

theorem SafeAt.decode_dictEntry
    {key : BasicType}
    {value : Ty}
    (hBelow : SafeAt most order limit levels (depth + 1))
    (hWord : Framing.maxLength ≤ most)
    (hRoom : Room most depth (.dictEntry key value) data) :
    decodeLevels most order limit (levels + 1) depth
        (.dictEntry key value) data =
      ofResult
        (Variant.decodeLevels order limit (levels + 1)
          (.dictEntry key value) data) := by
  have hTuple :=
    decodeTuple_eq
      (fun item hMem =>
        hBelow.child hRoom
          (Ty.length_chars_lt_of_mem_items hMem))
      hWord hRoom
  simp only [decodeLevels, Variant.decodeLevels,
    add_eq hRoom.deeper, pure_bind, hTuple]
  cases Variant.decodeMembers
      (Variant.decodeLevels order limit levels)
      (.dictEntry key value) data with
  | error e => rfl
  | ok children =>
      simp only [ofResult_ok_bind]
      split
      · rfl
      · rename_i hOther
        split
        · rename_i hError
          cases hError
        · rename_i hEntry
          cases hEntry
          exact (hOther _ _ rfl).elim
        · rfl

/-
  With room in the words, what a machine decodes is what is
  decoded with natural numbers. The induction is on the
  levels; every step down keeps the room.
-/
theorem safeAt_of_levels
    (order : ByteOrder)
    (hWord : Framing.maxLength ≤ most)
    (hLevels : levels + depth = limit + 1) :
    SafeAt most order limit levels depth := by
  induction levels generalizing depth with
  | zero => exact fun _ _ _ => rfl
  | succ levels ih =>
      have hBelow :
          SafeAt most order limit levels (depth + 1) :=
        ih (by omega)
      intro type data hRoom
      cases type with
      | basic type => rfl
      | «variant» =>
          exact hBelow.decode_variant hRoom (by omega)
      | maybe element => exact hBelow.decode_maybe hRoom
      | array element =>
          exact hBelow.decode_array hWord hRoom
      | tuple items => exact hBelow.decode_tuple hWord hRoom
      | dictEntry key value =>
          exact hBelow.decode_dictEntry hWord hRoom

/- Data holds no type string that is longer than the data. -/
theorem length_chars_le_of_infix
    {other : Ty}
    (hOther : other.encode <:+: data) :
    other.chars.length ≤ data.length := by
  have hEncode : other.encode.length = other.chars.length :=
    List.length_map _
  have hLe := hOther.length_le
  omega

/- Words of a finite width have room for any type and data. -/
theorem room_of_le
    {type : Ty}
    (hMost :
      8 * (type.chars.length + data.length) + 8 ≤ most) :
    Room most 0 type data := by
  refine ⟨by omega, by omega, by omega, ?_⟩
  intro other hOther
  have hLength := length_chars_le_of_infix hOther
  omega

end Checked

end GVariant

------------------------------------------------------------
-- Sizes That Are No Words
------------------------------------------------------------

namespace GVariant

namespace Checked

variable {most size count : Nat}

/- After a trap no step is taken. -/
theorem trap_bind
    {α β : Type}
    (cause : Trap)
    (step : α → Checked β) :
    (trap cause >>= step) = trap cause :=
  rfl

/-
  Numbers of eight bytes are added to a size up to the first
  that does not fit. The induction is on the numbers, over
  the size so far.
-/
theorem layoutItems_overflow
    {whole : Layout}
    (hWhole : whole.fixedSize = some size)
    (hAligned : size % 8 = 0)
    (hFits : size ≤ most)
    (hMost : most < size + 8 * count) :
    layoutItems most whole
        (List.replicate count (.int .uint64)) =
      trap .overflow := by
  induction count generalizing whole size with
  | zero => omega
  | succ count ih =>
      have hMember :
          layout most (.int .uint64) = pure (.fixed 8) :=
        rfl
      have hStart : alignUp most size 8 = pure size := by
        rw [alignUp_eq (by decide) (by omega),
          alignUp_of_mod hAligned]
      rw [List.replicate_succ, layoutItems, hMember, pure_bind]
      simp only [extend, hWhole, Layout.fixed, hStart,
        pure_bind]
      by_cases hNext : size + 8 ≤ most
      · rw [add_eq hNext, pure_bind, pure_bind]
        exact ih rfl (by omega) hNext (by omega)
      · rw [add, if_neg hNext, trap_bind, trap_bind]

/-
  A tuple of numbers whose size is no word is never decoded,
  whatever the data.
-/
theorem decode_overflow
    (hMost : most < 8 * count)
    (data : List UInt8)
    (order : ByteOrder)
    (limit : Nat) :
    decode most
        (.tuple (List.replicate count (.int .uint64)))
        data order limit =
      trap .overflow := by
  have hItems :
      layoutItems most ⟨1, some 0⟩
          (List.replicate count (.int .uint64)) =
        trap .overflow :=
    layoutItems_overflow rfl rfl (Nat.zero_le most)
      (by omega)
  simp only [decode, decodeLevels, decodeTuple, layout,
    hItems, trap_bind]

end Checked

end GVariant

------------------------------------------------------------
-- Decoding Does Not Trap
------------------------------------------------------------

namespace GVariant

namespace Checked

/-
  Decoding never traps, for any type, data, byte order and
  limit, in words that are wide enough: no slice is beyond
  its data, no difference is negative and nothing is divided
  by zero. Words of 64 bits are wide enough for fewer than
  `2 ^ 63` bytes, if they hold eight bytes for each
  character of a type string that is not a bracket, beside
  the data that is read with it. What comes out is what is
  decoded without a limit on numbers, and it is never the
  failure to find a framing offset.
-/
theorem decode_safe
    (type : Ty)
    (data : List UInt8)
    (order : ByteOrder)
    (limit : Nat) :
    (∃ least,
        ∀ most,
          least ≤ most →
            (decode most type data order limit).run =
              .ok
                (Variant.decode type data order limit)) ∧
      (data.length < 0x8000000000000000 →
        data.length + 8 * type.chars.length ≤
            0x10000000000000008 →
          (∀ other : Ty,
            other.encode <:+: data →
              data.length + 7 * other.chars.length ≤
                0x10000000000000009) →
            (decode 0xFFFFFFFFFFFFFFFF type data order
                limit).run =
              .ok (Variant.decode type data order limit)) ∧
      Variant.decode type data order limit ≠
        .error (.data .offsetOutOfRange) := by
  refine ⟨?_, ?_, Variant.decodeLevels_ne_error⟩
  · refine
      ⟨Framing.maxLength +
          (8 * (type.chars.length + data.length) + 8), ?_⟩
    intro most hMost
    have hSafe : SafeAt most order limit (limit + 1) 0 :=
      safeAt_of_levels order (by omega) rfl
    exact hSafe type data (room_of_le (by omega))
  · intro hData hType hBoxed
    have hRoom : Room 0xFFFFFFFFFFFFFFFF 0 type data :=
      ⟨by omega, by omega, hType, hBoxed⟩
    have hSafe :
        SafeAt 0xFFFFFFFFFFFFFFFF order limit (limit + 1) 0 :=
      safeAt_of_levels order (Nat.le_refl _) rfl
    exact hSafe type data hRoom

theorem decode_safe_textsAroundPair :
    (decode 0xFFFFFFFFFFFFFFFF Variant.textsAroundPair.type
          (Variant.textsAroundPair.encode .little) .little
          3).run =
        .ok (.ok Variant.textsAroundPair) := by
  have hLength :
      (Variant.textsAroundPair.encode .little).length =
        15 := by
    rfl
  have hType :
      Variant.textsAroundPair.type.chars.length ≤ 10 := by
    decide
  have hBoxed :
      ∀ other : Ty,
        other.encode <:+:
            Variant.textsAroundPair.encode .little →
          (Variant.textsAroundPair.encode .little).length +
              7 * other.chars.length ≤
            0x10000000000000009 := by
    intro other hOther
    have hLe := length_chars_le_of_infix hOther
    omega
  exact
    (decode_safe Variant.textsAroundPair.type
          (Variant.textsAroundPair.encode .little) .little
          3).2.1
      (by omega) (by omega) hBoxed

/-
  A tuple of `2 ^ 61` numbers has no size that fits 64 bits,
  though its type string is just one character too long. A
  table that is larger than the data, and a slice beyond
  them, are found before they are used.
-/
theorem decode_overflows_and_refuses :
    (decode 0xFFFFFFFFFFFFFFFF
          (.tuple
            (List.replicate 0x2000000000000000
              (.int .uint64)))
          [] .little 64).run =
        .error .overflow ∧
      (decode 0xFFFFFFFFFFFFFFFF
            (.tuple [.strings, .strings, .strings]) [0]
            .little 64).run =
          .ok (.error (.data .tableTooLarge)) ∧
        (decode 0xFFFFFFFFFFFFFFFF .strings [5] .little
            64).run =
          .ok (.error (.data (.childOutside 5 1 1))) := by
  have hOverflow :
      decode 0xFFFFFFFFFFFFFFFF
          (.tuple
            (List.replicate 0x2000000000000000
              (.int .uint64)))
          [] .little 64 =
        trap .overflow :=
    decode_overflow (by decide) [] .little 64
  exact ⟨congrArg ExceptT.run hOverflow, rfl, rfl⟩

end Checked

end GVariant
