import GVariant.Proofs.Binary.Sizes

/-
  Where the encoder puts the values in a variant.

  Members are padded to their alignment as seen from the
  start of their container, and the elements of an array of
  fixed size are not padded at all. Even so every value in a
  variant is aligned as seen from the start of the whole,
  since a container is aligned at least like its members and
  a fixed size is a multiple of the alignment.

  Key definitions include:
    * `Framing.partRanges`
    * `Variant.childRanges`
    * `Variant.Placed`
    * `Variant.AlignedForm`

  Main declarations:
    * `Framing.tiles_partRanges`
    * `Framing.slice_of_mem_partRanges`
    * `Framing.getElem?_of_isPadding`
    * `Framing.bodyFrom_of_aligned`
    * `Variant.exists_encode_eq`
    * `Variant.encode_of_isFixedTuple`
    * `Variant.alignment_dvd_of_mem_children`
    * `Variant.alignedForm_of_placed`
-/

------------------------------------------------------------
-- Slices Of Slices
------------------------------------------------------------

namespace GVariant

namespace Framing

/- All of the data is a slice of it. -/
theorem slice_all
    (data : List UInt8) :
    slice data 0 data.length = .ok data := by
  rw [slice_eq_ok_iff]
  simp

/- A slice of a slice is one of the whole. -/
theorem slice_of_slice
    {data outer inner : List UInt8}
    {offset start stop : Nat}
    (hOuter :
      slice data offset (offset + outer.length) = .ok outer)
    (hInner : slice outer start stop = .ok inner) :
    slice data (offset + start) (offset + stop) =
      .ok inner := by
  rcases slice_eq_ok_iff.mp hOuter with ⟨hInside, hTaken⟩
  rcases slice_eq_ok_iff.mp hInner with ⟨hBounds, hContent⟩
  refine slice_eq_ok_iff.mpr ⟨by omega, ?_⟩
  have hShort :
      offset + outer.length - offset = outer.length := by
    omega
  have hSize :
      offset + stop - (offset + start) = stop - start := by
    omega
  rw [← hContent, ← hTaken, hShort, hSize, List.drop_take,
    List.drop_drop, List.take_take, Nat.min_eq_left (by omega)]

/- A byte of a slice is one of the whole. -/
theorem getElem?_of_slice
    {data content : List UInt8}
    {offset index : Nat}
    {byte : UInt8}
    (hSlice :
      slice data offset (offset + content.length) =
        .ok content)
    (hByte : content[index]? = some byte) :
    data[offset + index]? = some byte := by
  rcases slice_eq_ok_iff.mp hSlice with ⟨_, hTaken⟩
  have hIndex : index < content.length :=
    (List.getElem?_eq_some_iff.mp hByte).1
  rw [← hTaken, List.getElem?_take, if_pos (by omega),
    List.getElem?_drop] at hByte
  exact hByte

end Framing

end GVariant

------------------------------------------------------------
-- Ranges Of Parts
------------------------------------------------------------

namespace GVariant

namespace Framing

/-
  The ranges of parts one after another, each from the next
  multiple of its alignment on.
-/
def partRanges :
    (position : Nat) → List Part → List Range
| _, [] => []
| position, part :: parts =>
    ⟨alignUp position part.layout.alignment,
        partEnd position part⟩ ::
      partRanges (partEnd position part) parts

/- Each part starts at the end before it, rounded up. -/
theorem tiles_partRanges
    (position : Nat)
    (parts : List Part) :
    Tiles position (parts.map Part.layout)
      (partRanges position parts) := by
  induction parts generalizing position with
  | nil => exact .nil position
  | cons part parts ih =>
      exact
        .cons rfl (Nat.le_add_right _ _)
          (ih (partEnd position part))

theorem length_partRanges
    (position : Nat)
    (parts : List Part) :
    (partRanges position parts).length = parts.length := by
  induction parts generalizing position with
  | nil => rfl
  | cons part parts ih => simp [partRanges, ih]

theorem lastStop_partRanges
    (position : Nat)
    (parts : List Part) :
    lastStop position (partRanges position parts) =
      position + (bodyFrom position parts).length := by
  induction parts generalizing position with
  | nil => rfl
  | cons part parts ih =>
      rw [partRanges, lastStop, ih, add_length_bodyFrom_cons]

variable {data rest : List UInt8}
variable {position : Nat}
variable {parts : List Part}

/-
  Where data continues with a body, the range of each part
  holds the bytes of that part.
-/
theorem slice_of_mem_partRanges
    (hPosition : position ≤ data.length)
    (hData :
      data.drop position = bodyFrom position parts ++ rest) :
    ∀ placed ∈ (partRanges position parts).zip parts,
      placed.1.slice data = .ok placed.2.bytes := by
  induction parts generalizing position with
  | nil => simp [partRanges]
  | cons part parts ih =>
      rw [bodyFrom_cons, List.append_assoc,
        List.append_assoc] at hData
      rcases slice_part hPosition hData with
        ⟨hSlice, hOthers, hStop⟩
      rw [partRanges, List.zip_cons_cons]
      exact
        List.forall_mem_cons.mpr ⟨hSlice, ih hStop hOthers⟩

/- What is between the parts are zeros. -/
theorem getElem?_of_isPadding
    {index : Nat}
    (hPosition : position ≤ data.length)
    (hData :
      data.drop position = bodyFrom position parts ++ rest)
    (hPadding :
      IsPadding position (parts.map Part.layout)
        (partRanges position parts) index) :
    data[index]? = some 0 := by
  induction parts generalizing position with
  | nil => cases hPadding
  | cons part parts ih =>
      rw [bodyFrom_cons, List.append_assoc,
        List.append_assoc] at hData
      rcases slice_part hPosition hData with
        ⟨_, hOthers, hStop⟩
      rcases hPadding with ⟨hFirst, hBefore⟩ | hPadding
      · have hLength :=
          add_length_padding position part.layout.alignment
        have hInside :
            index - position <
              (padding position
                part.layout.alignment).length := by
          omega
        have hByte :
            data[index]? =
              (data.drop position)[index - position]? := by
          rw [List.getElem?_drop]
          congr 1
          omega
        rw [hByte, hData,
          List.getElem?_append_left hInside]
        rw [padding, List.length_replicate] at hInside
        rw [padding, List.getElem?_replicate, if_pos hInside]
      · exact ih hStop hOthers hPadding

/-
  Parts of one alignment need no padding if their sizes are
  multiples of it. This is why an array of a fixed size is
  written without any.
-/
theorem bodyFrom_of_aligned
    {alignment : Nat}
    (hPosition : alignment ∣ position)
    (hParts :
      ∀ part ∈ parts,
        part.layout.alignment = alignment ∧
          alignment ∣ part.bytes.length) :
    bodyFrom position parts =
      (parts.map Part.bytes).flatten := by
  induction parts generalizing position with
  | nil => rfl
  | cons part parts ih =>
      rcases List.forall_mem_cons.mp hParts with
        ⟨⟨hAlignment, hSize⟩, hOthers⟩
      have hStay : alignUp position alignment = position :=
        alignUp_of_mod (Nat.mod_eq_zero_of_dvd hPosition)
      have hStop : alignment ∣ partEnd position part := by
        rw [partEnd, hAlignment, hStay]
        exact Nat.dvd_add hPosition hSize
      rw [bodyFrom_cons, hAlignment, padding, hStay,
        Nat.sub_self, ih hStop hOthers]
      rfl

end Framing

end GVariant

------------------------------------------------------------
-- Children In Their Container
------------------------------------------------------------

namespace GVariant

namespace Variant

/- The ranges of the children of a variant in its bytes. -/
def childRanges
    (order : ByteOrder)
    (v : Variant) : List Framing.Range :=
  Framing.partRanges 0 (v.children.map (part order))

/- The bytes of the children with padding between them. -/
def childBody
    (order : ByteOrder)
    (v : Variant) : List UInt8 :=
  Framing.bodyFrom 0 (v.children.map (part order))

/-
  Whether a variant is a tuple or an entry of a fixed size,
  which is then padded at the end.
-/
def IsFixedTuple (v : Variant) (size : Nat) : Prop :=
  (v.type.cls = .tuple ∨ v.type.cls = .dictEntry) ∧
    v.type.layout.fixedSize = some size

/- A child alone needs no padding before it. -/
theorem bodyFrom_singleton
    (part : Framing.Part) :
    Framing.bodyFrom 0 [part] = part.bytes := by
  have hStay :
      alignUp 0 part.layout.alignment = 0 :=
    alignUp_of_mod (Nat.zero_mod _)
  simp [Framing.padding, hStay]

/- An array without a table holds its padded elements. -/
theorem childBody_of_fixed
    {order : ByteOrder}
    {element : Ty}
    {children : List Variant}
    (hFixed : element.isFixedSize = true)
    (hTypes : ∀ child ∈ children, child.type = element) :
    childBody order (.arrayOf element children) =
      (encodeAll order children).flatten := by
  rcases Option.isSome_iff_exists.mp hFixed with
    ⟨size, hSize⟩
  have hDvd :=
    element.regular_layout.alignment_dvd size hSize
  have hParts :
      ∀ placed ∈ children.map (part order),
        placed.layout.alignment = element.layout.alignment ∧
          element.layout.alignment ∣ placed.bytes.length := by
    intro placed hMem
    rcases List.mem_map.mp hMem with ⟨child, hChild, rfl⟩
    have hType := hTypes child hChild
    have hLength : (child.encode order).length = size :=
      length_encode_of_fixed (by rw [hType, hSize])
    constructor
    · simp only [part, hType]
    · simp only [part, hLength]
      exact hDvd
  rw [childBody, Variant.children,
    Framing.bodyFrom_of_aligned (Nat.dvd_zero _) hParts,
    encodeAll_eq_map, List.map_map]
  rfl

theorem encode_byte
    (order : ByteOrder)
    (b : UInt8) :
    (byte b).encode order = [b] := by
  have hByte : [UInt8.ofNat b.toNat] = [b] := by
    rw [UInt8.ofNat_toNat]
  cases order with
  | little => exact hByte
  | big => exact hByte

/- A byte array holds its bytes. -/
theorem childBody_bytes
    (order : ByteOrder)
    (content : List UInt8) :
    childBody order (.bytes content) = content := by
  have hParts :
      ∀ placed ∈ (content.map byte).map (part order),
        placed.layout.alignment = 1 ∧
          1 ∣ placed.bytes.length := by
    intro placed hMem
    rcases List.mem_map.mp hMem with ⟨child, hChild, rfl⟩
    rcases List.mem_map.mp hChild with ⟨b, _, rfl⟩
    exact ⟨rfl, Nat.one_dvd _⟩
  have hEach :
      (content.map byte).map
          (Framing.Part.bytes ∘ part order) =
        content.map fun b => [b] := by
    rw [List.map_map]
    apply List.map_congr_left
    intro b _
    exact encode_byte order b
  rw [childBody, Variant.children,
    Framing.bodyFrom_of_aligned (Nat.dvd_zero _) hParts,
    List.map_map, hEach, ← List.flatMap_def]
  exact List.flatMap_singleton' content

/- An array with a table is its padded elements and that. -/
theorem encodeArray_of_varying
    {order : ByteOrder}
    {element : Ty}
    {children : List Variant}
    (hVarying : element.isFixedSize = false)
    (hTypes : ∀ child ∈ children, child.type = element) :
    ∃ table,
      (Variant.arrayOf element children).encode order =
        childBody order (.arrayOf element children) ++
          table := by
  have hParts :
      (encodeAll order children).map
          (Framing.Part.mk element.layout) =
        children.map (part order) := by
    rw [encodeAll_eq_map, List.map_map]
    apply List.map_congr_left
    intro child hMem
    rw [part, hTypes child hMem]
    rfl
  have hLayout : element.layout.isFixed = false := hVarying
  rw [encode, Framing.encodeArray, hLayout]
  simp only [Bool.false_eq_true, if_false]
  rw [hParts]
  exact ⟨_, rfl⟩

/- A tuple is its padded members and what is behind them. -/
theorem encode_tuple_eq_append
    (order : ByteOrder)
    (children : List Variant) :
    ∃ rest,
      (Variant.tuple children).encode order =
        childBody order (.tuple children) ++ rest := by
  rw [encode_tuple, Framing.encodeTuple]
  split
  · exact ⟨_, rfl⟩
  · exact ⟨_, rfl⟩

/-
  A well-formed variant is its padded children and what is
  behind them: a table or a type string, or zeros up to a
  fixed size.
-/
theorem exists_encode_eq
    {v : Variant}
    (hWell : v.WellFormed)
    (order : ByteOrder) :
    ∃ rest, v.encode order = v.childBody order ++ rest := by
  cases v with
  | scalar value => exact ⟨_, rfl⟩
  | boxed child =>
      refine ⟨0 :: child.type.encode, ?_⟩
      rw [childBody, Variant.children, List.map_singleton,
        bodyFrom_singleton]
      rfl
  | nothing element => exact ⟨[], rfl⟩
  | just child =>
      refine ⟨if child.type.isFixedSize then [] else [0], ?_⟩
      rw [childBody, Variant.children, List.map_singleton,
        bodyFrom_singleton, encode]
      split
      · exact (List.append_nil _).symm
      · rfl
  | bytes content =>
      refine ⟨[], ?_⟩
      rw [childBody_bytes, List.append_nil]
      rfl
  | arrayOf element children =>
      have hTypes := hWell.2.1
      cases hFixed : element.isFixedSize with
      | true =>
          have hLayout : element.layout.isFixed = true :=
            hFixed
          refine ⟨[], ?_⟩
          rw [childBody_of_fixed hFixed hTypes, encode,
            Framing.encodeArray, if_pos hLayout,
            List.append_nil]
      | false => exact encodeArray_of_varying hFixed hTypes
  | tuple children => exact encode_tuple_eq_append order _
  | entry key value =>
      rw [encode_entry]
      exact encode_tuple_eq_append order _

/- A tuple of a fixed size is filled up with zeros. -/
theorem encode_tuple_of_fixed
    {order : ByteOrder}
    {children : List Variant}
    {size : Nat}
    (hSize :
      (Variant.tuple children).type.layout.fixedSize =
        some size) :
    (Variant.tuple children).encode order =
      childBody order (.tuple children) ++
        List.replicate
          (size - (childBody order (.tuple children)).length)
          0 := by
  have hLayout :
      (Layout.tuple
          (Ty.layoutAll (typeAll children))).fixedSize =
        some size := hSize
  rw [encode_tuple, layouts_part, Framing.encodeTuple,
    hLayout]
  rfl

theorem encode_of_isFixedTuple
    {v : Variant}
    {size : Nat}
    (hFixed : v.IsFixedTuple size)
    (order : ByteOrder) :
    v.encode order =
      v.childBody order ++
        List.replicate
          (size - (v.childBody order).length) 0 := by
  rcases hFixed with ⟨hClass, hSize⟩
  cases v with
  | tuple children => exact encode_tuple_of_fixed hSize
  | entry key value =>
      rw [encode_entry]
      exact @encode_tuple_of_fixed order _ size hSize
  | scalar value =>
      cases value <;>
        simp [type, Scalar.type, Ty.cls] at hClass
  | _ => simp [type, Ty.cls] at hClass

/- A container is aligned like each of its children. -/
theorem alignment_dvd_of_mem_children
    {v child : Variant}
    (hWell : v.WellFormed)
    (hMem : child ∈ v.children) :
    child.type.layout.alignment ∣
      v.type.layout.alignment := by
  cases v with
  | scalar value => simp [Variant.children] at hMem
  | boxed inner =>
      exact child.type.regular_layout.alignment_dvd_eight
  | nothing element => simp [Variant.children] at hMem
  | just inner =>
      have hChild : child = inner := by
        simpa [Variant.children] using hMem
      subst hChild
      exact Nat.dvd_refl _
  | bytes content =>
      rcases List.mem_map.mp hMem with ⟨b, _, rfl⟩
      exact Nat.dvd_refl _
  | arrayOf element inner =>
      rw [hWell.2.1 child hMem]
      exact Nat.dvd_refl _
  | tuple inner =>
      have hLayout :
          child.type.layout ∈
            Ty.layoutAll (typeAll inner) := by
        rw [Ty.layoutAll_eq_map, typeAll_eq_map, List.map_map]
        exact
          List.mem_map_of_mem (f := Ty.layout ∘ type) hMem
      exact
        Layout.alignment_dvd_tuple
          (by
            rw [Ty.layoutAll_eq_map]
            exact
              List.forall_mem_map.mpr
                fun type _ => type.regular_layout)
          hLayout
  | entry key value =>
      have hLayout :
          child.type.layout ∈
            [key.type.layout, value.type.layout] := by
        simp only [Variant.children, List.mem_cons,
          List.not_mem_nil, or_false] at hMem
        rcases hMem with rfl | rfl
        · exact List.mem_cons_self
        · simp
      exact
        Layout.alignment_dvd_tuple
          (by
            simp [key.type.regular_layout,
              value.type.regular_layout])
          hLayout

end Variant

end GVariant

------------------------------------------------------------
-- Aligned Form
------------------------------------------------------------

namespace GVariant

namespace Variant

/-
  The values in a variant, at any depth, with the offset of
  each from the start of the whole.
-/
inductive Placed (order : ByteOrder) :
    Variant → Nat → Variant → Prop
  | whole (v : Variant) :
      Placed order v 0 v
  | inside
      {v child w : Variant}
      {range : Framing.Range}
      {offset : Nat} :
      (range, child) ∈ (v.childRanges order).zip v.children →
        Placed order child offset w →
          Placed order v (range.start + offset) w

/-
  A value in data at an offset: its bytes are there, the
  offset is a multiple of its alignment, and its children
  follow each other, each from the next multiple of its
  alignment on. The bytes between them are zero, and so are
  those behind the last member of a tuple of a fixed size.
-/
structure AlignedForm
    (order : ByteOrder)
    (data : List UInt8)
    (offset : Nat)
    (w : Variant) : Prop where
  content :
    Framing.slice data offset
        (offset + (w.encode order).length) =
      .ok (w.encode order)
  aligned : w.type.layout.alignment ∣ offset
  tiles :
    Framing.Tiles 0
      (w.children.map fun child => child.type.layout)
      (w.childRanges order)
  padding :
    ∀ index,
      Framing.IsPadding 0
          (w.children.map fun child => child.type.layout)
          (w.childRanges order) index →
        data[offset + index]? = some 0
  ending :
    ∀ size,
      w.IsFixedTuple size →
        ∀ index,
          Framing.lastStop 0 (w.childRanges order) ≤ index →
            index < size →
              data[offset + index]? = some 0

theorem map_layout_part
    (order : ByteOrder)
    (children : List Variant) :
    (children.map (part order)).map Framing.Part.layout =
      children.map fun child => child.type.layout := by
  rw [List.map_map]
  rfl

/- The ranges of the children hold their bytes. -/
theorem slice_of_mem_childRanges
    {v child : Variant}
    {order : ByteOrder}
    {range : Framing.Range}
    (hWell : v.WellFormed)
    (hMem :
      (range, child) ∈
        (v.childRanges order).zip v.children) :
    range.slice (v.encode order) =
      .ok (child.encode order) := by
  rcases exists_encode_eq hWell order with ⟨rest, hEncode⟩
  have hPlaced :
      (range, child.part order) ∈
        (v.childRanges order).zip
          (v.children.map (part order)) := by
    rw [List.zip_map_right]
    exact
      List.mem_map.mpr ⟨(range, child), hMem, rfl⟩
  exact
    Framing.slice_of_mem_partRanges (Nat.zero_le _)
      (by rw [List.drop_zero, hEncode, childBody]) _ hPlaced

/- The range of a child starts at its alignment and fits. -/
theorem start_of_mem_childRanges
    {v child : Variant}
    {order : ByteOrder}
    {range : Framing.Range}
    (hMem :
      (range, child) ∈
        (v.childRanges order).zip v.children) :
    child.type.layout.alignment ∣ range.start ∧
      range.stop =
        range.start + (child.encode order).length := by
  rw [childRanges] at hMem
  generalize v.children = children at hMem
  generalize 0 = position at hMem
  induction children generalizing position with
  | nil => simp [Framing.partRanges] at hMem
  | cons first children ih =>
      rw [List.map_cons, Framing.partRanges,
        List.zip_cons_cons] at hMem
      rcases List.mem_cons.mp hMem with hFirst | hMem
      · cases hFirst
        refine ⟨?_, rfl⟩
        exact
          Nat.dvd_of_mod_eq_zero
            (alignUp_mod position
              child.type.regular_layout.alignment_pos)
      · exact ih _ hMem

/-
  A well-formed variant whose bytes are in data at a
  multiple of its alignment has the aligned form there.
-/
theorem alignedForm_of_content
    {order : ByteOrder}
    {data : List UInt8}
    {offset : Nat}
    {v : Variant}
    (hWell : v.WellFormed)
    (hContent :
      Framing.slice data offset
          (offset + (v.encode order).length) =
        .ok (v.encode order))
    (hAligned : v.type.layout.alignment ∣ offset) :
    AlignedForm order data offset v := by
  rcases exists_encode_eq hWell order with ⟨rest, hEncode⟩
  have hBody :
      (v.encode order).drop 0 =
        Framing.bodyFrom 0 (v.children.map (part order)) ++
          rest := by
    rw [List.drop_zero, hEncode, childBody]
  constructor
  · exact hContent
  · exact hAligned
  · rw [← map_layout_part order]
    exact Framing.tiles_partRanges 0 _
  · intro index hPadding
    rw [← map_layout_part order] at hPadding
    exact
      Framing.getElem?_of_slice hContent
        (Framing.getElem?_of_isPadding (Nat.zero_le _) hBody
          hPadding)
  · intro size hFixed index hLast hIndex
    apply Framing.getElem?_of_slice hContent
    rw [childRanges, Framing.lastStop_partRanges,
      Nat.zero_add, ← childBody] at hLast
    rw [encode_of_isFixedTuple hFixed,
      List.getElem?_append_right hLast,
      List.getElem?_replicate]
    exact if_pos (Nat.sub_lt_sub_right hLast hIndex)

/-
  What one step into a variant preserves: its bytes are in
  the data, at a multiple of its alignment.
-/
theorem alignedForm_of_mem_childRanges
    {order : ByteOrder}
    {data : List UInt8}
    {offset : Nat}
    {v child : Variant}
    {range : Framing.Range}
    (hWell : v.WellFormed)
    (hForm : AlignedForm order data offset v)
    (hMem :
      (range, child) ∈
        (v.childRanges order).zip v.children) :
    AlignedForm order data (offset + range.start) child := by
  rcases start_of_mem_childRanges hMem with
    ⟨hStart, hStop⟩
  have hChild : child ∈ v.children :=
    (List.of_mem_zip hMem).2
  have hSlice := slice_of_mem_childRanges hWell hMem
  rw [Framing.Range.slice, hStop] at hSlice
  refine
    alignedForm_of_content (hWell.of_mem_children hChild)
      ?_ ?_
  · rw [Nat.add_assoc]
    exact Framing.slice_of_slice hForm.content hSlice
  · have hOuter :=
      Nat.dvd_trans
        (alignment_dvd_of_mem_children hWell hChild)
        hForm.aligned
    exact Nat.dvd_add hOuter hStart

theorem alignedForm_of_placed_from
    {order : ByteOrder}
    {data : List UInt8}
    {base offset : Nat}
    {v w : Variant}
    (hWell : v.WellFormed)
    (hForm : AlignedForm order data base v)
    (hPlaced : Placed order v offset w) :
    AlignedForm order data (base + offset) w := by
  induction hPlaced generalizing base with
  | whole v => exact hForm
  | @inside v child w range offset hMem _ ih =>
      have hChild : child ∈ v.children :=
        (List.of_mem_zip hMem).2
      rw [← Nat.add_assoc]
      exact
        ih (hWell.of_mem_children hChild)
          (alignedForm_of_mem_childRanges hWell hForm hMem)

/- Every child has a range. -/
theorem exists_childRange
    {order : ByteOrder}
    {v child : Variant}
    {index : Nat}
    (hChild : v.children[index]? = some child) :
    ∃ range,
      (v.childRanges order)[index]? = some range ∧
        (range, child) ∈
          (v.childRanges order).zip v.children := by
  have hIndex : index < v.children.length :=
    (List.getElem?_eq_some_iff.mp hChild).1
  have hCount :
      (v.childRanges order).length = v.children.length := by
    rw [childRanges, Framing.length_partRanges,
      List.length_map]
  have hRange : index < (v.childRanges order).length := by
    rw [hCount]
    exact hIndex
  refine
    ⟨(v.childRanges order)[index],
      List.getElem?_eq_getElem hRange, ?_⟩
  have hZip :
      ((v.childRanges order).zip v.children)[index]? =
        some ((v.childRanges order)[index], child) :=
    List.getElem?_zip_eq_some.mpr
      ⟨List.getElem?_eq_getElem hRange, hChild⟩
  exact List.mem_of_getElem? hZip

/- A child of a value that is placed is placed as well. -/
theorem Placed.child
    {order : ByteOrder}
    {offset : Nat}
    {v w child : Variant}
    {range : Framing.Range}
    (hPlaced : Placed order v offset w)
    (hMem :
      (range, child) ∈
        (w.childRanges order).zip w.children) :
    Placed order v (offset + range.start) child := by
  induction hPlaced with
  | whole v =>
      rw [Nat.zero_add]
      exact .inside hMem (.whole child)
  | inside hFirst _ ih =>
      rw [Nat.add_assoc]
      exact .inside hFirst (ih hMem)

/-
  Every value in a well-formed variant has aligned form in
  the bytes of the whole, and so have all of its children:
  each of them is placed at its own range.
-/
theorem alignedForm_of_placed
    {order : ByteOrder}
    {offset : Nat}
    {v w : Variant}
    (hWell : v.WellFormed)
    (hPlaced : Placed order v offset w) :
    AlignedForm order (v.encode order) offset w ∧
      ∀ (index : Nat) (child : Variant),
        w.children[index]? = some child →
          ∃ range : Framing.Range,
            (w.childRanges order)[index]? = some range ∧
              Placed order v (offset + range.start)
                child := by
  have hContent :
      Framing.slice (v.encode order) 0
          (0 + (v.encode order).length) =
        .ok (v.encode order) := by
    rw [Nat.zero_add]
    exact Framing.slice_all _
  have hForm :=
    alignedForm_of_content hWell hContent (Nat.dvd_zero _)
  constructor
  · have hPlacedForm :=
      alignedForm_of_placed_from hWell hForm hPlaced
    rwa [Nat.zero_add] at hPlacedForm
  · intro index child hChild
    rcases exists_childRange hChild with
      ⟨range, hRange, hMem⟩
    exact ⟨range, hRange, hPlaced.child hMem⟩

/- The number seven behind a padded byte. -/
def paddedNumber : Variant :=
  .tuple [byte 1, .scalar (.int .uint32 7)]

/- A box with the number behind another padded byte. -/
def boxedNumber : Variant :=
  .tuple [byte 5, .boxed paddedNumber]

example :
    boxedNumber.encode .little =
      [5, 0, 0, 0, 0, 0, 0, 0, 1, 0, 0, 0, 7, 0, 0, 0, 0, 40,
        121, 117, 41] := by
  rfl

theorem alignedForm_boxedNumber :
    boxedNumber.WellFormed ∧
      Placed .little boxedNumber 12
          (.scalar (.int .uint32 7)) ∧
        AlignedForm .little (boxedNumber.encode .little) 12
          (.scalar (.int .uint32 7)) := by
  have hWell : boxedNumber.WellFormed := by
    simp [boxedNumber, paddedNumber, WellFormed,
      WellFormedAll, Scalar.Valid, byte]
  have hNumber :
      (⟨4, 8⟩, .scalar (.int .uint32 7)) ∈
        (paddedNumber.childRanges .little).zip
          paddedNumber.children :=
    List.mem_of_getElem? (i := 1) rfl
  have hInner :
      (⟨0, 8⟩, paddedNumber) ∈
        ((Variant.boxed paddedNumber).childRanges
              .little).zip
          (Variant.boxed paddedNumber).children :=
    List.mem_of_getElem? (i := 0) rfl
  have hBox :
      (⟨8, 21⟩, .boxed paddedNumber) ∈
        (boxedNumber.childRanges .little).zip
          boxedNumber.children :=
    List.mem_of_getElem? (i := 1) rfl
  have hPlaced :
      Placed .little boxedNumber (0 + 8 + 0 + 4)
        (.scalar (.int .uint32 7)) :=
    (((Placed.whole boxedNumber).child hBox).child
      hInner).child hNumber
  exact
    ⟨hWell, hPlaced, (alignedForm_of_placed hWell hPlaced).1⟩

end Variant

end GVariant
