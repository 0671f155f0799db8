import GVariant.Binary.Decode
import GVariant.Proofs.Binary.Bytes
import GVariant.Proofs.Binary.Framing
import GVariant.Proofs.Text.ObjectPath
import GVariant.Proofs.Variant.WellFormed

/-
  Decoding gives back what was encoded.

  The decoder finds the slices of the members again, so it
  is called on the serialised forms of the children, and
  each of them has fewer levels and no more bytes than the
  whole. A decoder with more levels than a variant nests
  therefore returns the variant.

  Key definitions include:
    * `Variant.nesting`
    * `Variant.DecodesBack`

  Main declarations:
    * `Scalar.decodeBasic_encode`
    * `Variant.length_encode_of_fixed`
    * `Variant.decodeLevels_encode`
    * `Variant.decode_encode_of_built`
-/

------------------------------------------------------------
-- Nesting
------------------------------------------------------------

namespace GVariant

namespace Variant

mutual

/-
  The number of levels below the root of a variant. The
  type string of a box nests in it like its content.
-/
def nesting : Variant → Nat
| .scalar _ => 0
| .boxed child => max child.nesting child.type.nesting + 1
| .nothing _ => 0
| .just child => child.nesting + 1
| .bytes _ => 0
| .arrayOf _ children => nestingAll children
| .tuple children => nestingAll children
| .entry _ value => value.nesting + 1

/- The levels that children add to their container. -/
def nestingAll : List Variant → Nat
| [] => 0
| child :: children =>
    max (child.nesting + 1) (nestingAll children)

end

theorem nestingAll_lt_iff
    (children : List Variant)
    {levels : Nat} :
    nestingAll children < levels + 1 ↔
      ∀ child ∈ children, child.nesting < levels := by
  induction children with
  | nil => simp [nestingAll]
  | cons child children ih =>
      simp only [nestingAll, List.forall_mem_cons, ← ih]
      omega

end Variant

end GVariant

------------------------------------------------------------
-- Scalars
------------------------------------------------------------

namespace GVariant

/- No kind admits a text with a NUL. -/
theorem TextKind.Accepts.not_mem
    {kind : TextKind}
    {text : String}
    (hAccepts : kind.Accepts text) :
    '\x00' ∉ text.toList := by
  cases kind with
  | string => exact hAccepts
  | objectPath =>
      exact
        (ObjectPath.isPlain_of_isObjectPath
          hAccepts).nul_not_mem
  | signature => exact not_mem_of_isSignature hAccepts

namespace Scalar

/- A scalar of a fixed size has that many bytes. -/
theorem length_encode_of_fixed
    {value : Scalar}
    {size : Nat}
    (order : ByteOrder)
    (hFixed : value.type.layout.fixedSize = some size) :
    (value.encode order).length = size := by
  cases value with
  | boolean value =>
      cases hFixed
      rfl
  | int kind word =>
      cases hFixed
      rw [encode, Bytes.length_ofNat]
  | double value =>
      cases hFixed
      rw [encode, Bytes.length_ofNat]
  | text kind value => cases hFixed

/- A valid text is read up to its final NUL. -/
theorem decodeText_encode
    {kind : TextKind}
    {value : String}
    (hAccepts : kind.Accepts value) :
    decodeText kind (Utf8.encode value ++ [0]) =
      .ok value := by
  simp [decodeText, Utf8.decode_encode, hAccepts.not_mem]

/- A valid scalar is read back by its type. -/
theorem decodeBasic_encode
    {value : Scalar}
    (order : ByteOrder)
    (hValid : value.Valid) :
    Variant.decodeBasic order value.type
        (value.encode order) =
      .ok (.scalar value) := by
  cases value with
  | boolean value => cases value <;> rfl
  | int kind word =>
      have hFits : word.toNat < Nat.pow 256 kind.size := by
        cases kind <;> exact word.isLt
      simp [Variant.decodeBasic, type, decodeInt, encode,
        Bytes.length_ofNat, Bytes.toNat_ofNat order hFits]
  | double value =>
      have hFits : value.bits.toNat < Nat.pow 256 8 :=
        value.bits.toNat_lt
      simp [Variant.decodeBasic, type, decodeDouble, encode,
        Bytes.length_ofNat, Bytes.toNat_ofNat order hFits]
  | text kind value =>
      have hText :
          decodeText kind (Utf8.encode value ++ [0]) =
            .ok value :=
        decodeText_encode hValid
      have hMade :
          Variant.text kind value =
            .ok (.scalar (.text kind value)) :=
        Variant.text_eq_ok_iff.mpr ⟨hValid, rfl⟩
      simp only [Variant.decodeBasic, type, encode, hText,
        hMade]

end Scalar

end GVariant

------------------------------------------------------------
-- Fixed Sizes
------------------------------------------------------------

namespace GVariant

/- A complete tuple has a positive size, if it is fixed. -/
theorem Layout.fixedSize_close_pos
    {whole : Layout}
    {size : Nat}
    (hFixed : whole.close.fixedSize = some size) :
    0 < size := by
  unfold Layout.close at hFixed
  split at hFixed
  · cases hFixed
    exact Nat.one_pos
  · rename_i inner hInner _
    cases hFixed
    have hPos : 0 < inner := Nat.pos_of_ne_zero hInner
    exact Nat.lt_of_lt_of_le hPos (le_alignUp inner _)
  · cases hFixed

/- No value takes no bytes because of its type. -/
theorem Ty.fixedSize_pos
    {type : Ty}
    {size : Nat}
    (hFixed : type.layout.fixedSize = some size) :
    0 < size := by
  cases type with
  | basic type =>
      cases type with
      | boolean =>
          cases hFixed
          exact Nat.one_pos
      | int kind =>
          cases hFixed
          cases kind <;> decide
      | double =>
          cases hFixed
          decide
      | text kind => cases hFixed
  | variant => cases hFixed
  | maybe element => cases hFixed
  | array element => cases hFixed
  | tuple items => exact Layout.fixedSize_close_pos hFixed
  | dictEntry key value =>
      exact Layout.fixedSize_close_pos hFixed

namespace Variant

/- The layouts of parts are those of their types. -/
theorem layouts_part
    (order : ByteOrder)
    (children : List Variant) :
    (children.map (part order)).map Framing.Part.layout =
      Ty.layoutAll (typeAll children) := by
  rw [Ty.layoutAll_eq_map, typeAll_eq_map, List.map_map,
    List.map_map]
  rfl

/- A tuple is its parts, placed by their layouts. -/
theorem encode_tuple
    (order : ByteOrder)
    (children : List Variant) :
    (tuple children).encode order =
      Framing.encodeTuple
        (.tuple
          ((children.map (part order)).map
            Framing.Part.layout))
        (children.map (part order)) := by
  rw [encode, partAll_eq_map, layouts_part]

/- An entry is placed like the tuple of its two parts. -/
theorem encode_entry
    (order : ByteOrder)
    (key : Scalar)
    (value : Variant) :
    (entry key value).encode order =
      (tuple [.scalar key, value]).encode order := by
  rfl

/- The parts of variants have the sizes of their types. -/
theorem fixedSizes_parts
    {order : ByteOrder}
    {children : List Variant}
    (hSizes :
      ∀ child ∈ children,
        ∀ size,
          child.type.layout.fixedSize = some size →
            (child.encode order).length = size) :
    Framing.FixedSizes (children.map (part order)) := by
  intro placed hMem size hFixed
  rcases List.mem_map.mp hMem with ⟨child, hChild, rfl⟩
  exact hSizes child hChild size hFixed

/- A variant of a type of fixed size has that many bytes. -/
theorem length_encode_of_fixed
    {v : Variant}
    {order : ByteOrder}
    {size : Nat}
    (hFixed : v.type.layout.fixedSize = some size) :
    (v.encode order).length = size := by
  induction v generalizing size with
  | scalar value =>
      exact Scalar.length_encode_of_fixed order hFixed
  | boxed child _ => cases hFixed
  | nothing element => cases hFixed
  | just child _ => cases hFixed
  | bytes content => cases hFixed
  | arrayOf element children _ => cases hFixed
  | tuple children ih =>
      have hSizes :
          Framing.FixedSizes (children.map (part order)) :=
        fixedSizes_parts fun child hMem _ => ih child hMem
      rw [encode_tuple]
      refine Framing.length_encodeTuple hSizes ?_
      rw [layouts_part]
      exact hFixed
  | entry key value ih =>
      have hSizes :
          Framing.FixedSizes
            ([.scalar key, value].map (part order)) := by
        apply fixedSizes_parts
        simp only [List.forall_mem_cons, List.not_mem_nil,
          false_implies, implies_true, and_true]
        exact
          ⟨fun _ => Scalar.length_encode_of_fixed order,
            fun _ => ih⟩
      rw [encode_entry, encode_tuple]
      exact Framing.length_encodeTuple hSizes hFixed

end Variant

end GVariant

------------------------------------------------------------
-- Members
------------------------------------------------------------

namespace GVariant

namespace Framing

/- No member of a tuple has more bytes than the tuple. -/
theorem length_le_length_encodeTuple
    {whole : Layout}
    {parts : List Part}
    {part : Part}
    (hMem : part ∈ parts) :
    part.bytes.length ≤ (encodeTuple whole parts).length := by
  have hBody := length_le_length_bodyFrom 0 hMem
  unfold encodeTuple
  split
  · rw [List.length_append]
    exact Nat.le_add_right_of_le hBody
  · rw [length_withTable]
    exact Nat.le_add_right_of_le hBody

/- No element of an array has more bytes than the array. -/
theorem length_le_length_encodeArray
    {element : Layout}
    {items : List (List UInt8)}
    {item : List UInt8}
    (hMem : item ∈ items) :
    item.length ≤ (encodeArray element items).length := by
  unfold encodeArray
  split
  · exact (List.sublist_flatten_of_mem hMem).length_le
  · rw [length_withTable]
    have hPart :
        Part.mk element item ∈ items.map (.mk element) :=
      List.mem_map_of_mem hMem
    exact
      Nat.le_add_right_of_le
        (length_le_length_bodyFrom 0 hPart)

end Framing

namespace Variant

/- No member has more bytes than its tuple. -/
theorem length_encode_le_of_mem
    (order : ByteOrder)
    {children : List Variant}
    {child : Variant}
    (hMem : child ∈ children) :
    (child.encode order).length ≤
      ((tuple children).encode order).length := by
  rw [encode_tuple]
  exact
    Framing.length_le_length_encodeTuple
      (List.mem_map_of_mem (f := part order) hMem)

/- The slices of an array are its encoded elements. -/
theorem arraySlices_encode
    {order : ByteOrder}
    {element : Ty}
    {children : List Variant}
    (hTypes : ∀ child ∈ children, child.type = element)
    (hLength :
      ((arrayOf element children).encode order).length ≤
        Framing.maxLength) :
    Framing.arraySlices element.layout
        ((arrayOf element children).encode order) =
      .ok
        (children.map fun child =>
          .ok (child.encode order)) := by
  have hFixed :
      ∀ size,
        element.layout.fixedSize = some size →
          0 < size ∧
            ∀ item ∈ children.map (encode order),
              item.length = size := by
    intro size hSize
    refine ⟨Ty.fixedSize_pos hSize, ?_⟩
    intro item hMem
    rcases List.mem_map.mp hMem with ⟨child, hChild, rfl⟩
    rw [← hTypes child hChild] at hSize
    exact length_encode_of_fixed hSize
  rw [encode, encodeAll_eq_map] at hLength ⊢
  rw [Framing.arraySlices_encodeArray hFixed hLength,
    List.map_map]
  rfl

/-
  The slices of children decode to the children if each of
  them is decoded from its own bytes.
-/
theorem decodeSlices_encode
    {decodeOne : Ty → List UInt8 → Except Error Variant}
    {order : ByteOrder}
    {children : List Variant}
    (hOne :
      ∀ child ∈ children,
        decodeOne child.type (child.encode order) =
          .ok child) :
    decodeSlices decodeOne (typeAll children)
        (children.map fun child =>
          .ok (child.encode order)) =
      .ok children := by
  induction children with
  | nil => rfl
  | cons child children ih =>
      rcases List.forall_mem_cons.mp hOne with ⟨hFirst, hRest⟩
      simp [typeAll, decodeSlices, hFirst, ih hRest]

/-
  The members of a tuple or an entry are decoded if each of
  them is.
-/
theorem decodeMembers_encode
    {decodeOne : Ty → List UInt8 → Except Error Variant}
    {order : ByteOrder}
    (type : Ty)
    {children : List Variant}
    (hItems : type.items = typeAll children)
    (hLayout :
      type.layout = .tuple (Ty.layoutAll (typeAll children)))
    (hOne :
      ∀ child ∈ children,
        decodeOne child.type (child.encode order) =
          .ok child)
    (hLength :
      ((tuple children).encode order).length ≤
        Framing.maxLength) :
    decodeMembers decodeOne type
        ((tuple children).encode order) =
      .ok children := by
  have hSizes :
      Framing.FixedSizes (children.map (part order)) :=
    fixedSizes_parts fun _ _ _ => length_encode_of_fixed
  have hSlices :
      Framing.tupleSlices (Ty.layoutAll type.items)
          ((tuple children).encode order) =
        children.map fun child =>
          .ok (child.encode order) := by
    rw [encode_tuple] at hLength ⊢
    rw [hItems, ← layouts_part order,
      Framing.tupleSlices_encodeTuple hSizes hLength,
      List.map_map]
    rfl
  have hMembers := decodeSlices_encode hOne
  rw [← hItems] at hMembers
  unfold decodeMembers
  simp only [hSlices, hMembers]
  split
  · rename_i size hFixed
    have hSize :
        ((tuple children).encode order).length = size := by
      apply length_encode_of_fixed
      rw [← hFixed, hLayout]
      rfl
    simp [hSize]
  · rfl

end Variant

end GVariant

------------------------------------------------------------
-- Boxes And Maybes
------------------------------------------------------------

namespace GVariant

namespace Variant

/- A box is opened at the type string of its content. -/
theorem openBox_encode
    {limit levels : Nat}
    {content : List UInt8}
    {type : Ty}
    (hLevels : type.nesting < levels) :
    openBox limit levels (content ++ 0 :: type.encode) =
      .ok (type, content) := by
  have hSplit :
      Bytes.splitAtLastZero? (content ++ 0 :: type.encode) =
        some (content, type.encode) :=
    Bytes.splitAtLastZero?_append content fun _ hMem =>
      Ty.ne_zero_of_mem_encode hMem
  have hRest :
      (Reader.ofString type.signature limit).rest =
        type.chars ++ [] := by
    simp [Reader.ofString, Reader.ofChars, Ty.signature]
  have hRead := Reader.read_chars type hLevels hRest
  simp [openBox, hSplit, Utf8.decode_encode_type, hRead,
    Reader.expectEnd, Reader.isEmpty]

/- The content of a maybe is found by its element type. -/
theorem openMaybe_encode
    (order : ByteOrder)
    (child : Variant) :
    openMaybe child.type ((just child).encode order) =
      .ok (child.encode order) := by
  unfold openMaybe
  rw [encode]
  split
  · rfl
  · simp

/- A maybe that is present takes at least one byte. -/
theorem encode_just_ne_nil
    (order : ByteOrder)
    (child : Variant) :
    (just child).encode order ≠ [] := by
  rw [encode]
  split
  · rename_i hFixed
    rcases Option.isSome_iff_exists.mp hFixed with
      ⟨size, hSize⟩
    have hLength :
        (child.encode order).length = size :=
      length_encode_of_fixed hSize
    have hPos := Ty.fixedSize_pos hSize
    exact List.ne_nil_of_length_pos (hLength ▸ hPos)
  · simp

end Variant

end GVariant

------------------------------------------------------------
-- Round Trip
------------------------------------------------------------

namespace GVariant

namespace Variant

/- The content of a maybe is no longer than the maybe. -/
theorem length_encode_le_just
    (order : ByteOrder)
    (child : Variant) :
    (child.encode order).length ≤
      ((just child).encode order).length := by
  rw [encode]
  split
  · exact Nat.le_refl _
  · simp

/- An element of an array is no longer than the array. -/
theorem length_encode_le_of_mem_arrayOf
    (order : ByteOrder)
    (element : Ty)
    {child : Variant}
    {children : List Variant}
    (hMem : child ∈ children) :
    (child.encode order).length ≤
      ((arrayOf element children).encode order).length := by
  have hItem :
      child.encode order ∈ children.map (encode order) :=
    List.mem_map_of_mem hMem
  rw [encode, encodeAll_eq_map]
  exact Framing.length_le_length_encodeArray hItem

/-
  A variant is decoded from its bytes with more levels than
  it nests.
-/
def DecodesBack
    (order : ByteOrder)
    (limit : Nat)
    (v : Variant) : Prop :=
  ∀ levels,
    v.nesting < levels →
      (v.encode order).length ≤ Framing.maxLength →
        decodeLevels order limit levels v.type
            (v.encode order) =
          .ok v

variable {order : ByteOrder}
variable {limit : Nat}

/- There is a level for the variant itself. -/
theorem decodesBack_of_succ
    {v : Variant}
    (hDecodes :
      ∀ levels,
        v.nesting ≤ levels →
          (v.encode order).length ≤ Framing.maxLength →
            decodeLevels order limit (levels + 1) v.type
                (v.encode order) =
              .ok v) :
    v.DecodesBack order limit := by
  intro levels hLevels hLength
  cases levels with
  | zero => cases hLevels
  | succ levels =>
      exact hDecodes levels (Nat.le_of_lt_succ hLevels) hLength

theorem decodesBack_scalar
    {value : Scalar}
    (hValid : value.Valid) :
    (scalar value).DecodesBack order limit :=
  decodesBack_of_succ fun _ _ _ =>
    Scalar.decodeBasic_encode order hValid

theorem decodesBack_boxed
    {child : Variant}
    (hChild : child.DecodesBack order limit) :
    (boxed child).DecodesBack order limit := by
  apply decodesBack_of_succ
  intro levels hLevels hLength
  simp only [nesting] at hLevels
  rw [encode, List.length_append] at hLength
  have hType : child.type.nesting < levels := by
    omega
  have hNested : child.nesting < levels := by
    omega
  have hInside := hChild levels hNested (by omega)
  simp only [encode, type, decodeLevels,
    openBox_encode hType, hInside]

theorem decodesBack_nothing
    (element : Ty) :
    (nothing element).DecodesBack order limit :=
  decodesBack_of_succ fun _ _ _ => rfl

theorem decodesBack_just
    {child : Variant}
    (hChild : child.DecodesBack order limit) :
    (just child).DecodesBack order limit := by
  apply decodesBack_of_succ
  intro levels hLevels hLength
  have hShorter := length_encode_le_just order child
  have hInside :=
    hChild levels hLevels (Nat.le_trans hShorter hLength)
  have hSome : ((just child).encode order).isEmpty = false := by
    simpa using encode_just_ne_nil order child
  simp [type, decodeLevels, hSome, openMaybe_encode, hInside]

theorem decodesBack_bytes
    (content : List UInt8) :
    (bytes content).DecodesBack order limit := by
  apply decodesBack_of_succ
  intro levels _ _
  simp [type, encode, decodeLevels]

theorem decodesBack_arrayOf
    {element : Ty}
    {children : List Variant}
    (hByte : element ≠ .byte)
    (hTypes : ∀ child ∈ children, child.type = element)
    (hChildren :
      ∀ child ∈ children, child.DecodesBack order limit) :
    (arrayOf element children).DecodesBack order limit := by
  apply decodesBack_of_succ
  intro levels hLevels hLength
  have hNested :=
    (nestingAll_lt_iff children).mp
      (Nat.lt_succ_of_le hLevels)
  have hSlices := arraySlices_encode hTypes hLength
  have hMembers :
      decodeSlices (decodeLevels order limit levels)
          (typeAll children)
          (children.map fun child =>
            .ok (child.encode order)) =
        .ok children := by
    apply decodeSlices_encode
    intro child hMem
    have hShorter :=
      length_encode_le_of_mem_arrayOf order element hMem
    exact
      hChildren child hMem levels (hNested child hMem)
        (Nat.le_trans hShorter hLength)
  have hElements :
      typeAll children = children.map fun _ => element := by
    rw [typeAll_eq_map]
    exact List.map_congr_left hTypes
  rw [hElements] at hMembers
  simp only [type, decodeLevels, hByte, if_false, hSlices,
    List.map_map, Function.comp_def, hMembers]

theorem decodesBack_tuple
    {children : List Variant}
    (hChildren :
      ∀ child ∈ children, child.DecodesBack order limit) :
    (tuple children).DecodesBack order limit := by
  apply decodesBack_of_succ
  intro levels hLevels hLength
  have hNested :=
    (nestingAll_lt_iff children).mp
      (Nat.lt_succ_of_le hLevels)
  have hOne :
      ∀ child ∈ children,
        decodeLevels order limit levels child.type
            (child.encode order) =
          .ok child := by
    intro child hMem
    have hShorter := length_encode_le_of_mem order hMem
    exact
      hChildren child hMem levels (hNested child hMem)
        (Nat.le_trans hShorter hLength)
  have hMembers :=
    decodeMembers_encode (.tuple (typeAll children))
      rfl rfl hOne hLength
  simp only [type, decodeLevels, hMembers]

/- An entry is framed like a tuple, whose first is its key. -/
theorem decodesBack_entry
    {key : Scalar}
    {value : Variant}
    (hKey : key.Valid)
    (hValue : value.DecodesBack order limit) :
    (entry key value).DecodesBack order limit := by
  apply decodesBack_of_succ
  intro levels hLevels hLength
  have hNested : value.nesting < levels := hLevels
  rw [encode_entry] at hLength ⊢
  have hOne :
      ∀ child ∈ [.scalar key, value],
        decodeLevels order limit levels child.type
            (child.encode order) =
          .ok child := by
    intro child hMem
    have hShorter :=
      Nat.le_trans (length_encode_le_of_mem order hMem) hLength
    simp only [List.mem_cons, List.not_mem_nil,
      or_false] at hMem
    rcases hMem with rfl | rfl
    · exact
        decodesBack_scalar hKey levels
          (Nat.zero_lt_of_lt hNested) hShorter
    · exact hValue levels hNested hShorter
  have hMembers :=
    decodeMembers_encode (.dictEntry key.type value.type)
      rfl rfl hOne hLength
  simp only [type, decodeLevels, hMembers]

/-
  A well-formed variant is decoded with more levels than it
  nests. The induction is on the variant.
-/
theorem decodeLevels_encode
    {v : Variant}
    (hWell : v.WellFormed)
    {levels : Nat}
    (hLevels : v.nesting < levels)
    (hLength :
      (v.encode order).length ≤ Framing.maxLength) :
    decodeLevels order limit levels v.type (v.encode order) =
      .ok v := by
  have hBack : v.DecodesBack order limit := by
    clear hLevels hLength
    induction v with
    | scalar value => exact decodesBack_scalar hWell
    | boxed child ih => exact decodesBack_boxed (ih hWell)
    | nothing element => exact decodesBack_nothing element
    | just child ih => exact decodesBack_just (ih hWell)
    | bytes content => exact decodesBack_bytes content
    | arrayOf element children ih =>
        rcases hWell with ⟨hByte, hTypes, hChildren⟩
        rw [wellFormedAll_iff] at hChildren
        exact
          decodesBack_arrayOf hByte hTypes fun child hMem =>
            ih child hMem (hChildren child hMem)
    | tuple children ih =>
        have hChildren := (wellFormedAll_iff children).mp hWell
        exact
          decodesBack_tuple fun child hMem =>
            ih child hMem (hChildren child hMem)
    | entry key value ih =>
        exact decodesBack_entry hWell.1 (ih hWell.2)
  exact hBack levels hLevels hLength

/-
  Decoding undoes encoding for every variant that is built
  by constructors, in either byte order and with any limit
  that the variant keeps. A buffer in memory has fewer bytes
  than eight bytes can count.
-/
theorem decode_encode_of_built
    {v : Variant}
    (hBuilt : v.Built)
    (order : ByteOrder)
    {limit : Nat}
    (hNesting : v.nesting ≤ limit)
    (hLength :
      (v.encode order).length ≤ Framing.maxLength) :
    decode v.type (v.encode order) order limit = .ok v :=
  decodeLevels_encode hBuilt.wellFormed
    (Nat.lt_succ_of_le hNesting) hLength

/-
  Two maybes that differ in their presence, and a box beside
  a member of a fixed size.
-/
def mixedTuple : Variant :=
  .tuple
    [.arrayOf (.maybe .string)
        [.just (.scalar (.text .string "ab")),
          .nothing .string],
      .boxed
        (.arrayOf (.dictEntry (.int .uint16) (.array .unit))
          [.entry (.int .uint16 7)
            (.arrayOf .unit [.tuple [], .tuple []])]),
      .scalar (.double ⟨0x7FF8000000000001⟩),
      .bytes [1, 2, 3]]

theorem decode_encode_mixedTuple :
    mixedTuple.nesting = 5 ∧
      decode mixedTuple.type (mixedTuple.encode .big) .big 5 =
        .ok mixedTuple := by
  have hWell : mixedTuple.WellFormed := by
    simp [mixedTuple, WellFormed, WellFormedAll, Scalar.Valid,
      TextKind.Accepts, type, typeAll, Scalar.type]
  exact
    ⟨by decide,
      decode_encode_of_built (built_of_wellFormed hWell) .big
        (by decide) (by decide)⟩

end Variant

end GVariant
