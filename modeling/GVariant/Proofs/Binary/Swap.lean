import GVariant.Proofs.Binary.Levels

/-
  Swapping the bytes of a variant.

  Only numbers are written in a byte order. What frames them
  depends on the sizes of the parts alone, and these are the
  same in either byte order. So the data of a variant are
  those of another variant in the opposite byte order, one
  whose numbers have their bytes reversed, and reading them
  in that order gives the other variant.

  Key definitions include:
    * `Bytes.reversed`
    * `Scalar.swapped`
    * `Variant.swapped`

  Main declarations:
    * `Framing.length_encodeTuple_eq`
    * `Variant.length_encode_eq`
    * `Variant.swapped_swapped`
    * `Variant.encode_swapped`
    * `Variant.byteswap_eq_ok_swapped`
-/

------------------------------------------------------------
-- Sizes Of Containers
------------------------------------------------------------

namespace GVariant

namespace Framing

/- What a container needs to know to place a member. -/
def Part.extent (part : Part) : Layout × Nat :=
  (part.layout, part.bytes.length)

variable {parts parts' : List Part}

/- Members of the same extents end at the same positions. -/
theorem endsFrom_eq
    (hExtents :
      parts.map Part.extent = parts'.map Part.extent)
    (position : Nat) :
    endsFrom position parts = endsFrom position parts' := by
  induction parts generalizing parts' position with
  | nil =>
      rw [List.map_eq_nil_iff.mp hExtents.symm]
  | cons part parts ih =>
      cases parts' with
      | nil => cases hExtents
      | cons part' parts' =>
          rcases List.cons.inj hExtents with ⟨hHead, hTail⟩
          have hEnd :
              partEnd position part = partEnd position part' := by
            have hLayout : part.layout = part'.layout :=
              congrArg Prod.fst hHead
            have hSize :
                part.bytes.length = part'.bytes.length :=
              congrArg Prod.snd hHead
            rw [partEnd, partEnd, hLayout, hSize]
          rw [endsFrom_cons, endsFrom_cons, hEnd, ih hTail]

/- Their bodies have the same size. -/
theorem length_bodyFrom_eq
    (hExtents :
      parts.map Part.extent = parts'.map Part.extent)
    (position : Nat) :
    (bodyFrom position parts).length =
      (bodyFrom position parts').length := by
  have hEnds := endsFrom_eq hExtents position
  by_cases hParts : parts = []
  · subst hParts
    rw [List.map_eq_nil_iff.mp hExtents.symm]
  · have hParts' : parts' ≠ [] := by
      rintro rfl
      exact hParts (List.map_eq_nil_iff.mp hExtents)
    -- the body ends where its last member does
    rcases endsFrom_eq_append position hParts with
      ⟨stops, hStops⟩
    rcases endsFrom_eq_append position hParts' with
      ⟨stops', hStops'⟩
    rw [hStops, hStops'] at hEnds
    have hLast := (List.append_inj' hEnds rfl).2
    simpa using hLast

/- They record the same ends. -/
theorem recordedEnds_eq
    (hExtents :
      parts.map Part.extent = parts'.map Part.extent)
    (stops : List Nat) :
    recordedEnds parts stops = recordedEnds parts' stops := by
  induction parts generalizing parts' stops with
  | nil =>
      rw [List.map_eq_nil_iff.mp hExtents.symm]
  | cons part parts ih =>
      cases parts' with
      | nil => cases hExtents
      | cons part' parts' =>
          rcases List.cons.inj hExtents with ⟨hHead, hTail⟩
          have hLayout : part.layout = part'.layout :=
            congrArg Prod.fst hHead
          cases stops with
          | nil => simp [recordedEnds]
          | cons stop stops =>
              cases parts with
              | nil =>
                  rw [List.map_eq_nil_iff.mp hTail.symm]
                  rfl
              | cons next parts =>
                  cases parts' with
                  | nil => cases hTail
                  | cons next' parts' =>
                      simp only [recordedEnds, hLayout,
                        ih hTail]

/- A table adds to the size by its number of offsets. -/
theorem length_withTable_eq
    {content content' : List UInt8}
    (hContent : content.length = content'.length)
    (offsets : List Nat) :
    (withTable content offsets).length =
      (withTable content' offsets).length := by
  rw [length_withTable, length_withTable, hContent]

/- The size of a tuple follows from those of its members. -/
theorem length_encodeTuple_eq
    (hExtents :
      parts.map Part.extent = parts'.map Part.extent)
    (whole : Layout) :
    (encodeTuple whole parts).length =
      (encodeTuple whole parts').length := by
  have hBody : (body parts).length = (body parts').length :=
    length_bodyFrom_eq hExtents 0
  have hEnds : ends parts = ends parts' :=
    endsFrom_eq hExtents 0
  unfold encodeTuple
  split
  · simp only [List.length_append, List.length_replicate,
      hBody]
  · rw [hEnds, recordedEnds_eq hExtents]
    exact length_withTable_eq hBody _

/- The size of an array follows from those of its elements. -/
theorem length_encodeArray_eq
    {items items' : List (List UInt8)}
    (hSizes :
      items.map List.length = items'.map List.length)
    (element : Layout) :
    (encodeArray element items).length =
      (encodeArray element items').length := by
  have hExtents :
      (items.map (Part.mk element)).map Part.extent =
        (items'.map (Part.mk element)).map Part.extent := by
    have hPairs :=
      congrArg (List.map (Prod.mk element)) hSizes
    simpa [Part.extent, Function.comp_def] using hPairs
  unfold encodeArray
  split
  · rw [List.length_flatten, List.length_flatten, hSizes]
  · have hEnds :
        ends (items.map (Part.mk element)) =
          ends (items'.map (Part.mk element)) :=
      endsFrom_eq hExtents 0
    dsimp only
    rw [hEnds]
    exact length_withTable_eq (length_bodyFrom_eq hExtents 0) _

end Framing

end GVariant

------------------------------------------------------------
-- Sizes In Either Byte Order
------------------------------------------------------------

namespace GVariant

/- A scalar has the same size in either byte order. -/
theorem Scalar.length_encode_eq
    (s : Scalar)
    (order order' : ByteOrder) :
    (s.encode order).length = (s.encode order').length := by
  cases s with
  | int kind word =>
      rw [encode, encode, Bytes.length_ofNat,
        Bytes.length_ofNat]
  | double value =>
      rw [encode, encode, Bytes.length_ofNat,
        Bytes.length_ofNat]
  | _ => rfl

namespace Variant

/- A variant has the same size in either byte order. -/
theorem length_encode_eq
    (v : Variant)
    (order order' : ByteOrder) :
    (v.encode order).length = (v.encode order').length := by
  induction v with
  | scalar value => exact value.length_encode_eq order order'
  | boxed child ih =>
      rw [encode, encode, List.length_append,
        List.length_append, ih]
  | nothing element => rfl
  | just child ih =>
      rw [encode, encode]
      split
      · exact ih
      · rw [List.length_append, List.length_append, ih]
  | bytes content => rfl
  | arrayOf element children ih =>
      rw [encode, encode, encodeAll_eq_map, encodeAll_eq_map]
      apply Framing.length_encodeArray_eq
      simpa using ih
  | tuple children ih =>
      rw [encode, encode, partAll_eq_map, partAll_eq_map]
      apply Framing.length_encodeTuple_eq
      simpa [part, Framing.Part.extent] using ih
  | entry key value ih =>
      rw [encode, encode]
      apply Framing.length_encodeTuple_eq
      simp only [List.map_cons, List.map_nil, Scalar.part,
        Framing.Part.extent, key.length_encode_eq order order',
        ih]

end Variant

end GVariant

------------------------------------------------------------
-- Reversed Numbers
------------------------------------------------------------

namespace GVariant

namespace Bytes

/- The number whose bytes are those of another, reversed. -/
def reversed (size n : Nat) : Nat :=
  ofLittleEndian (littleEndian size n).reverse

theorem reversed_lt
    (size n : Nat) :
    reversed size n < Nat.pow 256 size := by
  have hLess := ofLittleEndian_lt (littleEndian size n).reverse
  rwa [List.length_reverse, length_littleEndian] at hLess

theorem littleEndian_reversed
    (size n : Nat) :
    littleEndian size (reversed size n) =
      (littleEndian size n).reverse := by
  have hBytes :=
    littleEndian_ofLittleEndian (littleEndian size n).reverse
  rwa [List.length_reverse, length_littleEndian] at hBytes

/- Reversing twice gives back a number that fits. -/
theorem reversed_reversed
    {size n : Nat}
    (hFits : n < Nat.pow 256 size) :
    reversed size (reversed size n) = n := by
  rw [reversed, littleEndian_reversed, List.reverse_reverse,
    ofLittleEndian_littleEndian_of_lt hFits]

/- The reversed number has the same bytes the other way. -/
theorem ofNat_reversed
    (order : ByteOrder)
    (size n : Nat) :
    ofNat order.opposite size (reversed size n) =
      ofNat order size n := by
  cases order <;>
    simp [ofNat, ByteOrder.opposite, littleEndian_reversed]

end Bytes

namespace IntKind

/- The word whose bytes are those of another, reversed. -/
def reversed
    (kind : IntKind)
    (word : BitVec kind.width) : BitVec kind.width :=
  BitVec.ofNat kind.width
    (Bytes.reversed kind.size word.toNat)

/- The bytes of a kind hold as much as its bits. -/
theorem pow_size
    (kind : IntKind) :
    Nat.pow 256 kind.size = Nat.pow 2 kind.width :=
  (Nat.pow_mul 2 8 kind.size).symm

theorem toNat_reversed
    (kind : IntKind)
    (word : BitVec kind.width) :
    (kind.reversed word).toNat =
      Bytes.reversed kind.size word.toNat := by
  have hLess := Bytes.reversed_lt kind.size word.toNat
  rw [pow_size] at hLess
  rw [reversed, BitVec.toNat_ofNat]
  exact Nat.mod_eq_of_lt hLess

theorem reversed_reversed
    (kind : IntKind)
    (word : BitVec kind.width) :
    kind.reversed (kind.reversed word) = word := by
  have hFits : word.toNat < Nat.pow 256 kind.size := by
    rw [pow_size]
    exact word.isLt
  apply BitVec.eq_of_toNat_eq
  rw [toNat_reversed, toNat_reversed,
    Bytes.reversed_reversed hFits]

end IntKind

namespace Double

/- The double whose bytes are those of another, reversed. -/
def reversed (x : Double) : Double :=
  ⟨UInt64.ofNat (Bytes.reversed 8 x.bits.toNat)⟩

theorem toNat_bits_reversed
    (x : Double) :
    x.reversed.bits.toNat = Bytes.reversed 8 x.bits.toNat :=
  UInt64.toNat_ofNat_of_lt' (Bytes.reversed_lt 8 _)

theorem reversed_reversed
    (x : Double) :
    x.reversed.reversed = x := by
  have hFits : x.bits.toNat < Nat.pow 256 8 :=
    x.bits.toNat_lt
  rw [reversed, toNat_bits_reversed,
    Bytes.reversed_reversed hFits, UInt64.ofNat_toNat]

end Double

end GVariant

------------------------------------------------------------
-- Swapped Scalars
------------------------------------------------------------

namespace GVariant

namespace Scalar

/-
  The scalar with the bytes of its number reversed. Booleans,
  bytes and texts have no byte order.
-/
def swapped : Scalar → Scalar
| .boolean value => .boolean value
| .int .byte word => .int .byte word
| .int kind word => .int kind (kind.reversed word)
| .double value => .double value.reversed
| .text kind value => .text kind value

@[simp] theorem type_swapped
    (s : Scalar) :
    s.swapped.type = s.type := by
  cases s with
  | int kind word => cases kind <;> simp only [swapped, type]
  | _ => simp only [swapped, type]

@[simp] theorem swapped_swapped
    (s : Scalar) :
    s.swapped.swapped = s := by
  cases s with
  | int kind word =>
      cases kind with
      | byte => rfl
      | _ =>
          simp only [swapped, IntKind.reversed_reversed]
  | double value =>
      simp only [swapped, Double.reversed_reversed]
  | _ => rfl

/- The limits on texts stay kept. -/
theorem valid_swapped
    {s : Scalar}
    (hValid : s.Valid) :
    s.swapped.Valid := by
  cases s with
  | int kind word => cases kind <;> trivial
  | text kind value => exact hValid
  | _ => trivial

/- A swapped scalar has the same data the other way. -/
theorem encode_swapped
    (s : Scalar)
    (order : ByteOrder) :
    s.swapped.encode order.opposite = s.encode order := by
  cases s with
  | int kind word =>
      cases kind with
      | byte => cases order <;> rfl
      | _ =>
          simp only [swapped, encode, IntKind.toNat_reversed,
            Bytes.ofNat_reversed]
  | double value =>
      simp only [swapped, encode, Double.toNat_bits_reversed,
        Bytes.ofNat_reversed]
  | _ => rfl

end Scalar

end GVariant

------------------------------------------------------------
-- Swapped Variants
------------------------------------------------------------

namespace GVariant

namespace Variant

mutual

/-
  The variant with the bytes of all its numbers reversed,
  in boxes, too.
-/
def swapped : Variant → Variant
| .scalar value => .scalar value.swapped
| .boxed child => .boxed child.swapped
| .nothing element => .nothing element
| .just child => .just child.swapped
| .bytes content => .bytes content
| .arrayOf element children =>
    .arrayOf element (swappedAll children)
| .tuple children => .tuple (swappedAll children)
| .entry key value => .entry key.swapped value.swapped

/- Several variants with reversed numbers. -/
def swappedAll : List Variant → List Variant
| [] => []
| child :: children => child.swapped :: swappedAll children

end

theorem swappedAll_eq_map
    (children : List Variant) :
    swappedAll children = children.map swapped := by
  induction children with
  | nil => rfl
  | cons child children ih =>
      rw [swappedAll, ih, List.map_cons]

@[simp] theorem type_swapped
    (v : Variant) :
    v.swapped.type = v.type := by
  induction v with
  | scalar value => simp [swapped, type]
  | just child ih => rw [swapped, type, type, ih]
  | tuple children ih =>
      simp only [swapped, type, swappedAll_eq_map,
        typeAll_eq_map, List.map_map]
      congr 1
      exact List.map_congr_left ih
  | entry key value ih =>
      simp only [swapped, type, Scalar.type_swapped, ih]
  | _ => rfl

/- Swapping twice gives back the variant. -/
@[simp] theorem swapped_swapped
    (v : Variant) :
    v.swapped.swapped = v := by
  have hAll :
      ∀ children : List Variant,
        (∀ child ∈ children, child.swapped.swapped = child) →
          swappedAll (swappedAll children) = children := by
    intro children hChildren
    rw [swappedAll_eq_map, swappedAll_eq_map, List.map_map]
    exact (List.map_congr_left hChildren).trans (List.map_id _)
  induction v with
  | scalar value => simp only [swapped, Scalar.swapped_swapped]
  | boxed child ih => simp only [swapped, ih]
  | nothing element => rfl
  | just child ih => simp only [swapped, ih]
  | bytes content => rfl
  | arrayOf element children ih =>
      simp only [swapped, hAll children ih]
  | tuple children ih => simp only [swapped, hAll children ih]
  | entry key value ih =>
      simp only [swapped, Scalar.swapped_swapped, ih]

/- A swapped variant nests like the variant. -/
@[simp] theorem nesting_swapped
    (v : Variant) :
    v.swapped.nesting = v.nesting := by
  have hAll :
      ∀ children : List Variant,
        (∀ child ∈ children,
          child.swapped.nesting = child.nesting) →
          nestingAll (swappedAll children) =
            nestingAll children := by
    intro children hChildren
    induction children with
    | nil => rfl
    | cons child children ih =>
        rcases List.forall_mem_cons.mp hChildren with
          ⟨hFirst, hOthers⟩
        rw [swappedAll, nestingAll, nestingAll, hFirst,
          ih hOthers]
  induction v with
  | boxed child ih =>
      simp only [swapped, nesting, type_swapped, ih]
  | just child ih => simp only [swapped, nesting, ih]
  | arrayOf element children ih => exact hAll children ih
  | tuple children ih => exact hAll children ih
  | entry key value ih => simp only [swapped, nesting, ih]
  | _ => rfl

/- A swapped variant agrees with its type. -/
theorem wellFormed_swapped
    {v : Variant}
    (hWell : v.WellFormed) :
    v.swapped.WellFormed := by
  have hAll :
      ∀ children : List Variant,
        (∀ child ∈ children,
          child.WellFormed → child.swapped.WellFormed) →
          WellFormedAll children →
            WellFormedAll (swappedAll children) := by
    intro children hChildren hWell
    rw [wellFormedAll_iff] at hWell
    rw [wellFormedAll_iff, swappedAll_eq_map]
    simpa using fun child hMem =>
      hChildren child hMem (hWell child hMem)
  induction v with
  | scalar value => exact Scalar.valid_swapped hWell
  | boxed child ih => exact ih hWell
  | nothing element => trivial
  | just child ih => exact ih hWell
  | bytes content => trivial
  | arrayOf element children ih =>
      rcases hWell with ⟨hByte, hTypes, hChildren⟩
      refine ⟨hByte, ?_, hAll children ih hChildren⟩
      rw [swappedAll_eq_map]
      simpa using hTypes
  | tuple children ih => exact hAll children ih hWell
  | entry key value ih =>
      exact ⟨Scalar.valid_swapped hWell.1, ih hWell.2⟩

/- A swapped variant has the same data the other way. -/
theorem encode_swapped
    (v : Variant)
    (order : ByteOrder) :
    v.swapped.encode order.opposite = v.encode order := by
  induction v with
  | scalar value => exact value.encode_swapped order
  | boxed child ih =>
      simp only [swapped, encode, type_swapped, ih]
  | nothing element => rfl
  | just child ih =>
      simp only [swapped, encode, type_swapped, ih]
  | bytes content => rfl
  | arrayOf element children ih =>
      have hItems :
          encodeAll order.opposite (swappedAll children) =
            encodeAll order children := by
        rw [encodeAll_eq_map, encodeAll_eq_map,
          swappedAll_eq_map, List.map_map]
        exact List.map_congr_left ih
      rw [swapped, encode, encode, hItems]
  | tuple children ih =>
      have hTypes :
          typeAll (swappedAll children) = typeAll children := by
        simp [typeAll_eq_map, swappedAll_eq_map]
      have hParts :
          partAll order.opposite (swappedAll children) =
            partAll order children := by
        rw [partAll_eq_map, partAll_eq_map, swappedAll_eq_map,
          List.map_map]
        apply List.map_congr_left
        intro child hMem
        simp only [Function.comp_apply, part, type_swapped,
          ih child hMem]
      rw [swapped, encode, encode, hTypes, hParts]
  | entry key value ih =>
      simp only [swapped, encode, Scalar.part,
        Scalar.type_swapped, Scalar.encode_swapped,
        type_swapped, ih]

end Variant

end GVariant

------------------------------------------------------------
-- Swapping Bytes
------------------------------------------------------------

namespace GVariant

namespace Variant

/-
  The data of a variant are decoded in the opposite order to
  the swapped variant.
-/
theorem decode_encode_opposite
    {v : Variant}
    (hWell : v.WellFormed)
    (order : ByteOrder)
    {limit : Nat}
    (hNesting : v.nesting ≤ limit)
    (hLength :
      (v.encode order).length ≤ Framing.maxLength) :
    decode v.type (v.encode order) order.opposite limit =
      .ok v.swapped := by
  have hLevels : v.swapped.nesting < limit + 1 := by
    rw [nesting_swapped]
    exact Nat.lt_succ_of_le hNesting
  rw [← encode_swapped] at hLength
  rw [← encode_swapped, ← v.type_swapped]
  exact
    decodeLevels_encode (wellFormed_swapped hWell) hLevels
      hLength

/-
  Swapping the bytes of a variant that keeps the default
  limit reverses the bytes of its numbers and changes
  nothing else. The result has the same data, the other way,
  and swapping it again gives the variant.
-/
theorem byteswap_eq_ok_swapped
    {v : Variant}
    (hWell : v.WellFormed)
    (hNesting : v.nesting ≤ defaultMaxDepth)
    (hLength :
      (v.encode .little).length ≤ Framing.maxLength) :
    v.byteswap = .ok v.swapped ∧
      v.swapped.type = v.type ∧
        v.swapped.encode .big = v.encode .little ∧
          v.swapped.byteswap = .ok v := by
  refine
    ⟨decode_encode_opposite hWell .little hNesting hLength,
      v.type_swapped, v.encode_swapped .little, ?_⟩
  have hSize :
      (v.swapped.encode .little).length =
        (v.encode .little).length := by
    rw [← v.encode_swapped .little]
    exact v.swapped.length_encode_eq .little .big
  rw [← hSize] at hLength
  rw [← nesting_swapped] at hNesting
  have hBack :=
    decode_encode_opposite (wellFormed_swapped hWell) .little
      hNesting hLength
  rwa [swapped_swapped] at hBack

/- Numbers beside and inside what has no byte order. -/
def mixedLeaves : Variant :=
  .tuple
    [.int .uint16 0x0102, .byte 7, .boolean true,
      .bytes [1, 2], .nothing (.int .int32),
      .scalar (.text .string "ab"),
      .boxed
        (.arrayOf (.dictEntry (.int .handle) .double)
          [.entry (.int .handle 1)
            (.double ⟨0x3FF0000000000000⟩)])]

/- The same with the bytes of the numbers reversed. -/
def mixedLeavesSwapped : Variant :=
  .tuple
    [.int .uint16 0x0201, .byte 7, .boolean true,
      .bytes [1, 2], .nothing (.int .int32),
      .scalar (.text .string "ab"),
      .boxed
        (.arrayOf (.dictEntry (.int .handle) .double)
          [.entry (.int .handle 0x01000000)
            (.double ⟨0xF03F⟩)])]

theorem byteswap_mixedLeaves :
    mixedLeaves.byteswap = .ok mixedLeavesSwapped ∧
      mixedLeavesSwapped.encode .big =
          mixedLeaves.encode .little ∧
        mixedLeavesSwapped.byteswap = .ok mixedLeaves := by
  have hWell : mixedLeaves.WellFormed := by
    simp [mixedLeaves, WellFormed, WellFormedAll, Scalar.Valid,
      TextKind.Accepts, type, Scalar.type, int, byte, boolean,
      double]
  have hSwapped : mixedLeaves.swapped = mixedLeavesSwapped := by
    rfl
  rcases
      byteswap_eq_ok_swapped hWell (by decide) (by decide) with
    ⟨hSwap, _, hData, hBack⟩
  rw [hSwapped] at hSwap hData hBack
  exact ⟨hSwap, hData, hBack⟩

end Variant

end GVariant
