import GVariant.Binary.Flat
import GVariant.Proofs.Binary.Soundness
import GVariant.Proofs.Variant.Flat

/-
  Flat forms are written and read like trees.

  The parts of the type of a flat form are flat forms of the
  parts of the type, so writing it gives the same bytes as
  writing the tree, and reading any data by a type in flat
  form gives the flat form of what the tree decoder reads,
  or the same error.

  Key definitions include:
    * `FlatVariant.FlatAt`

  Main declarations:
    * `FlatVariant.encode_flat`
    * `FlatVariant.decodeSlices_map`
    * `FlatVariant.flatAt_of_levels`
    * `FlatVariant.decode_flat`
    * `FlatVariant.byteswap_flat`
-/

------------------------------------------------------------
-- Writing
------------------------------------------------------------

namespace GVariant

namespace FlatType

theorem isFixedSize_flat
    (type : Ty) :
    type.flat.isFixedSize = type.isFixedSize := by
  rw [isFixedSize, layout_flat]
  rfl

theorem elementLayout_array_flat
    (element : Ty) :
    (Ty.array element).flat.elementLayout = element.layout := by
  rw [elementLayout, element?_flat]
  exact layout_flat element

end FlatType

namespace FlatVariant

open Variant (flat type_flat)

theorem encode_scalar_flat
    (order : ByteOrder)
    (s : Scalar) :
    s.flat.encode order = s.encode order := by
  cases s <;> rfl

theorem encodeAll_map_flat
    {order : ByteOrder}
    {children : List Variant}
    (hChildren :
      ∀ child ∈ children,
        child.flat.encode order = child.encode order) :
    encodeAll order (children.map flat) =
      Variant.encodeAll order children := by
  induction children with
  | nil => rfl
  | cons child children ih =>
      rcases List.forall_mem_cons.mp hChildren with
        ⟨hFirst, hOthers⟩
      rw [List.map_cons, encodeAll, Variant.encodeAll, hFirst,
        ih hOthers]

theorem partAll_map_flat
    {order : ByteOrder}
    {children : List Variant}
    (hChildren :
      ∀ child ∈ children,
        child.flat.encode order = child.encode order) :
    partAll order (children.map flat) =
      Variant.partAll order children := by
  induction children with
  | nil => rfl
  | cons child children ih =>
      rcases List.forall_mem_cons.mp hChildren with
        ⟨hFirst, hOthers⟩
      rw [List.map_cons, partAll, Variant.partAll, hFirst,
        ih hOthers, type_flat, FlatType.layout_flat]

/-
  A flat form is written like the tree. The induction is on
  the tree.
-/
theorem encode_flat
    (v : Variant)
    (order : ByteOrder) :
    v.flat.encode order = v.encode order := by
  induction v with
  | scalar value => exact encode_scalar_flat order value
  | boxed child ih =>
      have hString :
          Utf8.encode child.flat.type.signature =
            child.type.encode := by
        rw [type_flat]
        exact Utf8.encode_signature child.type
      rw [flat, encode, ih, hString, Variant.encode]
  | nothing element => rfl
  | just child ih =>
      rw [flat, encode, ih, type_flat,
        FlatType.isFixedSize_flat, Variant.encode]
  | bytes content => rfl
  | arrayOf element children ih =>
      rw [flat, Variant.flatAll_eq_map, encode,
        FlatType.elementLayout_array_flat,
        encodeAll_map_flat ih, Variant.encode]
      rfl
  | tuple children ih =>
      rw [flat, Variant.flatAll_eq_map, encode,
        FlatType.layout_flat, partAll_map_flat ih,
        Variant.encode]
      rfl
  | entry key value ih =>
      have hChildren :
          ∀ child ∈ [Variant.scalar key, value],
            child.flat.encode order = child.encode order := by
        simpa using ⟨encode_scalar_flat order key, ih⟩
      have hParts := partAll_map_flat hChildren
      rw [flat, encode, FlatType.layout_flat, Variant.encode]
      exact congrArg (Framing.encodeTuple _) hParts

end FlatVariant

end GVariant

------------------------------------------------------------
-- Reading Scalars
------------------------------------------------------------

namespace GVariant

namespace FlatVariant

open Variant (flat)

theorem decodeBoolean_flat
    (data : List UInt8) :
    decodeBoolean Ty.boolean.flat data =
      (Scalar.decodeBoolean data).map Scalar.flat := by
  rcases data with _ | ⟨byte, _ | ⟨next, data⟩⟩
  · rfl
  · simp only [decodeBoolean, Scalar.decodeBoolean]
    split
    · rfl
    · split <;> rfl
  · rfl

theorem decodeInt_flat
    (order : ByteOrder)
    (kind : IntKind)
    (data : List UInt8) :
    decodeInt order (Ty.int kind).flat kind data =
      (Scalar.decodeInt order kind data).map Scalar.flat := by
  rw [decodeInt, Scalar.decodeInt]
  split <;> rfl

theorem decodeDouble_flat
    (order : ByteOrder)
    (data : List UInt8) :
    decodeDouble order Ty.double.flat data =
      (Scalar.decodeDouble order data).map Scalar.flat := by
  rw [decodeDouble, Scalar.decodeDouble]
  split <;> rfl

theorem decodeBasic_flat
    (order : ByteOrder)
    (type : BasicType)
    (data : List UInt8) :
    decodeBasic order (Ty.basic type).flat type data =
      (Variant.decodeBasic order type data).map flat := by
  cases type with
  | boolean =>
      rw [decodeBasic, decodeBoolean_flat, Variant.decodeBasic]
      cases Scalar.decodeBoolean data <;> rfl
  | int kind =>
      rw [decodeBasic, decodeInt_flat, Variant.decodeBasic]
      cases Scalar.decodeInt order kind data <;> rfl
  | double =>
      rw [decodeBasic, decodeDouble_flat, Variant.decodeBasic]
      cases Scalar.decodeDouble order data <;> rfl
  | text kind =>
      have hText :
          decodeText (Ty.text kind).flat data =
            Scalar.decodeText kind data :=
        rfl
      rw [decodeBasic, hText, Variant.decodeBasic]
      cases Scalar.decodeText kind data with
      | error e => rfl
      | ok value => exact text_flat kind value

end FlatVariant

end GVariant

------------------------------------------------------------
-- Reading Members
------------------------------------------------------------

namespace GVariant

namespace FlatVariant

open Variant (flat)

variable
  {decodeOne : Ty → List UInt8 → Except Error Variant}
variable
  {decodeFlat :
    FlatType → List UInt8 → Except Error FlatVariant}

theorem openMaybe_flat
    (element : Ty)
    (data : List UInt8) :
    openMaybe element.flat data =
      Variant.openMaybe element data := by
  rw [openMaybe, FlatType.isFixedSize_flat]
  rfl

/- Slices are decoded alike by types in either form. -/
theorem decodeSlices_map
    (hOne :
      ∀ type content,
        decodeFlat type.flat content =
          (decodeOne type content).map flat)
    (types : List Ty)
    (slices : List Framing.Slice) :
    Variant.decodeSlices decodeFlat (types.map Ty.flat)
        slices =
      (Variant.decodeSlices decodeOne types slices).map
        (List.map flat) := by
  induction types generalizing slices with
  | nil => rfl
  | cons type types ih =>
      cases slices with
      | nil => rfl
      | cons slice slices =>
          simp only [List.map_cons, Variant.decodeSlices]
          cases slice with
          | error fault => rfl
          | ok content =>
              simp only [hOne, ih]
              cases decodeOne type content with
              | error e => rfl
              | ok child =>
                  cases Variant.decodeSlices decodeOne types
                      slices <;>
                    rfl

theorem decodeMembers_flat
    (hOne :
      ∀ type content,
        decodeFlat type.flat content =
          (decodeOne type content).map flat)
    (type : Ty)
    (data : List UInt8) :
    decodeMembers decodeFlat type.flat data =
      (Variant.decodeMembers decodeOne type data).map
        (List.map flat) := by
  have hLayouts :
      type.flat.items.map FlatType.layout =
        Ty.layoutAll type.items := by
    rw [FlatType.items_flat, List.map_map,
      Ty.layoutAll_eq_map]
    exact
      List.map_congr_left fun item _ =>
        FlatType.layout_flat item
  rw [decodeMembers, Variant.decodeMembers, hLayouts,
    FlatType.layout_flat, FlatType.items_flat,
    decodeSlices_map hOne]
  cases type.layout.fixedSize with
  | none => rfl
  | some size =>
      by_cases hSize : data.length ≠ size
      · simp only [if_pos hSize]
        rfl
      · simp only [if_neg hSize]

end FlatVariant

end GVariant

------------------------------------------------------------
-- Reading Variants
------------------------------------------------------------

namespace GVariant

/- Members of the types of an entry are a scalar and a value. -/
theorem Variant.exists_of_typeAll_eq_pair
    {children : List Variant}
    {key : BasicType}
    {value : Ty}
    (hTypes : typeAll children = [.basic key, value]) :
    ∃ (s : Scalar) (v : Variant),
      children = [.scalar s, v] ∧
        s.type = key ∧ v.type = value := by
  rcases children with _ | ⟨first, _ | ⟨v, _ | ⟨_, _⟩⟩⟩ <;>
    simp only [typeAll, List.cons.injEq, reduceCtorEq,
      and_false, and_true] at hTypes
  rcases hTypes with ⟨hKey, hValue⟩
  cases first with
  | scalar s =>
      cases hKey
      exact ⟨s, v, rfl, rfl, hValue⟩
  | _ => cases hKey

namespace FlatVariant

open Variant (flat fits_of_decodeLevels)

/-
  What is read with some levels is the flat form of what the
  tree decoder reads.
-/
def FlatAt
    (order : ByteOrder)
    (limit levels : Nat) : Prop :=
  ∀ type data,
    decodeLevels order limit levels type.flat data =
      (Variant.decodeLevels order limit levels type data).map
        flat

variable {order : ByteOrder}
variable {limit levels : Nat}

theorem FlatAt.decode_variant
    (hBelow : FlatAt order limit levels)
    (data : List UInt8) :
    decodeLevels order limit (levels + 1) Ty.variant.flat
        data =
      (Variant.decodeLevels order limit (levels + 1) .variant
        data).map flat := by
  have hClass : Ty.variant.flat.cls = .variant := rfl
  simp only [decodeLevels, hClass, Variant.decodeLevels]
  cases Variant.openBox limit levels data with
  | error e => rfl
  | ok box =>
      simp only [hBelow box.1 box.2]
      cases Variant.decodeLevels order limit levels box.1
          box.2 <;>
        rfl

theorem FlatAt.decode_maybe
    (hBelow : FlatAt order limit levels)
    (element : Ty)
    (data : List UInt8) :
    decodeLevels order limit (levels + 1)
        (Ty.maybe element).flat data =
      (Variant.decodeLevels order limit (levels + 1)
        (.maybe element) data).map flat := by
  have hClass : (Ty.maybe element).flat.cls = .maybe := rfl
  have hElement :
      elementOf (Ty.maybe element).flat = .ok element.flat := by
    rw [elementOf, FlatType.element?_flat]
    rfl
  simp only [decodeLevels, hClass, hElement,
    Variant.decodeLevels, openMaybe_flat]
  cases data.isEmpty with
  | true => rfl
  | false =>
      simp only [Bool.false_eq_true, if_false]
      cases Variant.openMaybe element data with
      | error fault => rfl
      | ok content =>
          simp only [hBelow element content]
          cases hChild :
              Variant.decodeLevels order limit levels element
                content with
          | error e => rfl
          | ok child =>
              have hType := (fits_of_decodeLevels hChild).type_eq
              simp only [Except.map, flat, hType]

theorem FlatAt.decode_array
    (hBelow : FlatAt order limit levels)
    (element : Ty)
    (data : List UInt8) :
    decodeLevels order limit (levels + 1)
        (Ty.array element).flat data =
      (Variant.decodeLevels order limit (levels + 1)
        (.array element) data).map flat := by
  have hClass : (Ty.array element).flat.cls = .array := rfl
  have hElement :
      elementOf (Ty.array element).flat = .ok element.flat := by
    rw [elementOf, FlatType.element?_flat]
    rfl
  simp only [decodeLevels, hClass, hElement,
    Ty.cls_flat_eq_byte_iff, Variant.decodeLevels, decodeArray,
    FlatType.layout_flat]
  by_cases hByte : element = .byte
  · simp only [hByte]
    rfl
  · simp only [if_neg hByte]
    cases Framing.arraySlices element.layout data with
    | error fault => rfl
    | ok slices =>
        have hTypes :
            (slices.map fun _ => element.flat) =
              (slices.map fun _ => element).map Ty.flat := by
          rw [List.map_map]
          rfl
        simp only [hTypes, decodeSlices_map hBelow]
        cases Variant.decodeSlices
            (Variant.decodeLevels order limit levels)
            (slices.map fun _ => element) slices with
        | error e => rfl
        | ok children =>
            simp only [Except.map, flat,
              Variant.flatAll_eq_map]

theorem FlatAt.decode_tuple
    (hBelow : FlatAt order limit levels)
    (items : List Ty)
    (data : List UInt8) :
    decodeLevels order limit (levels + 1)
        (Ty.tuple items).flat data =
      (Variant.decodeLevels order limit (levels + 1)
        (.tuple items) data).map flat := by
  have hClass : (Ty.tuple items).flat.cls = .tuple := rfl
  simp only [decodeLevels, hClass, Variant.decodeLevels,
    decodeMembers_flat hBelow]
  cases hMembers :
      Variant.decodeMembers
        (Variant.decodeLevels order limit levels)
        (.tuple items) data with
  | error e => rfl
  | ok children =>
      have hTypes : Variant.typeAll children = items :=
        Variant.typeAll_of_decodeMembers
          (fun hChild => (fits_of_decodeLevels hChild).type_eq)
          hMembers
      simp only [Except.map, flat, hTypes,
        Variant.flatAll_eq_map]

theorem FlatAt.decode_dictEntry
    (hBelow : FlatAt order limit levels)
    (key : BasicType)
    (value : Ty)
    (data : List UInt8) :
    decodeLevels order limit (levels + 1)
        (Ty.dictEntry key value).flat data =
      (Variant.decodeLevels order limit (levels + 1)
        (.dictEntry key value) data).map flat := by
  have hClass :
      (Ty.dictEntry key value).flat.cls = .dictEntry := rfl
  simp only [decodeLevels, hClass, Variant.decodeLevels,
    decodeMembers_flat hBelow]
  cases hMembers :
      Variant.decodeMembers
        (Variant.decodeLevels order limit levels)
        (.dictEntry key value) data with
  | error e => rfl
  | ok children =>
      have hTypes :=
        Variant.typeAll_of_decodeMembers
          (fun hChild => (fits_of_decodeLevels hChild).type_eq)
          hMembers
      rcases Variant.exists_of_typeAll_eq_pair hTypes with
        ⟨s, v, rfl, rfl, rfl⟩
      rfl

/-
  Data is read by a type in either form alike. The induction
  is on the levels.
-/
theorem flatAt_of_levels
    (order : ByteOrder)
    (limit levels : Nat) :
    FlatAt order limit levels := by
  induction levels with
  | zero => exact fun _ _ => rfl
  | succ levels ih =>
      intro type data
      cases type with
      | basic type => exact decodeBasic_flat order type data
      | «variant» => exact ih.decode_variant data
      | maybe element => exact ih.decode_maybe element data
      | array element => exact ih.decode_array element data
      | tuple items => exact ih.decode_tuple items data
      | dictEntry key value =>
          exact ih.decode_dictEntry key value data

theorem decode_flat
    (type : Ty)
    (data : List UInt8)
    (order : ByteOrder)
    (limit : Nat) :
    decode type.flat data order limit =
      (Variant.decode type data order limit).map flat :=
  flatAt_of_levels order limit (limit + 1) type data

/- Swapping bytes swaps those of the tree. -/
theorem byteswap_flat
    (v : Variant) :
    v.flat.byteswap = v.byteswap.map flat := by
  rw [byteswap, Variant.type_flat, encode_flat, decode_flat]
  rfl

end FlatVariant

end GVariant
