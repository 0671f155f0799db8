import GVariant.Proofs.Binary.RoundTrip

/-
  What the decoder returns is a value of the type that it
  was asked for.

  Data is untrusted, so nothing is assumed of it. If the
  decoder succeeds, the variant has the type, is well-formed
  and nests below the levels that the decoder had.

  Key definitions include:
    * `Variant.Fits`
    * `Variant.FitsDecoded`

  Main declarations:
    * `Variant.exists_of_decodeBasic`
    * `Variant.decodeSlices_cons_eq_ok_iff`
    * `Variant.typeAll_of_decodeMembers`
    * `Variant.fits_of_decodeLevels`
    * `Variant.fits_of_decode`
-/

------------------------------------------------------------
-- Scalars
------------------------------------------------------------

namespace GVariant

/-
  A variant of a type that is well-formed and has levels
  left.
-/
structure Variant.Fits
    (v : Variant)
    (type : Ty)
    (levels : Nat) : Prop where
  type_eq : v.type = type
  wellFormed : v.WellFormed
  nesting_lt : v.nesting < levels

namespace Variant

/- A decoded scalar is valid and of the basic type. -/
theorem exists_of_decodeBasic
    {order : ByteOrder}
    {type : BasicType}
    {data : List UInt8}
    {v : Variant}
    (hDecode : decodeBasic order type data = .ok v) :
    ∃ value,
      v = .scalar value ∧ value.type = type ∧ value.Valid := by
  cases type with
  | boolean =>
      simp only [decodeBasic, Scalar.decodeBoolean] at hDecode
      split at hDecode
      · cases hDecode
      · rename_i value hValue
        cases hDecode
        split at hValue
        · split at hValue
          · cases hValue
            exact ⟨_, rfl, rfl, True.intro⟩
          · split at hValue
            · cases hValue
              exact ⟨_, rfl, rfl, True.intro⟩
            · cases hValue
        · cases hValue
  | int kind =>
      simp only [decodeBasic, Scalar.decodeInt] at hDecode
      split at hDecode
      · cases hDecode
      · rename_i value hValue
        cases hDecode
        split at hValue
        · cases hValue
          exact ⟨_, rfl, rfl, True.intro⟩
        · cases hValue
  | double =>
      simp only [decodeBasic, Scalar.decodeDouble] at hDecode
      split at hDecode
      · cases hDecode
      · rename_i value hValue
        cases hDecode
        split at hValue
        · cases hValue
          exact ⟨_, rfl, rfl, True.intro⟩
        · cases hValue
  | text kind =>
      simp only [decodeBasic] at hDecode
      split at hDecode
      · cases hDecode
      · rename_i value hValue
        rcases text_eq_ok_iff.mp hDecode with ⟨hAccepts, rfl⟩
        exact ⟨_, rfl, rfl, hAccepts⟩

end Variant

end GVariant

------------------------------------------------------------
-- Members
------------------------------------------------------------

namespace GVariant

namespace Variant

variable {decodeOne : Ty → List UInt8 → Except Error Variant}

/- Members are decoded if the first and the others are. -/
theorem decodeSlices_cons_eq_ok_iff
    {type : Ty}
    {types : List Ty}
    {slice : Framing.Slice}
    {slices : List Framing.Slice}
    {children : List Variant} :
    decodeSlices decodeOne (type :: types)
          (slice :: slices) =
        .ok children ↔
      ∃ content child rest,
        slice = .ok content ∧
          decodeOne type content = .ok child ∧
          decodeSlices decodeOne types slices = .ok rest ∧
          children = child :: rest := by
  cases slice with
  | error fault => simp [decodeSlices]
  | ok content =>
      cases hChild : decodeOne type content with
      | error e => simp [decodeSlices, hChild]
      | ok child =>
          cases hRest : decodeSlices decodeOne types slices with
          | error e => simp [decodeSlices, hChild, hRest]
          | ok rest =>
              simp [decodeSlices, hChild, hRest, eq_comm]

/- Every decoded member was decoded by one of the types. -/
theorem exists_of_mem_decodeSlices
    {types : List Ty}
    {slices : List Framing.Slice}
    {children : List Variant}
    (hDecode :
      decodeSlices decodeOne types slices = .ok children)
    {child : Variant}
    (hMem : child ∈ children) :
    ∃ type ∈ types,
      ∃ content, decodeOne type content = .ok child := by
  induction types generalizing slices children with
  | nil =>
      simp only [decodeSlices] at hDecode
      cases hDecode
      cases hMem
  | cons type types ih =>
      cases slices with
      | nil =>
          simp only [decodeSlices] at hDecode
          cases hDecode
          cases hMem
      | cons slice slices =>
          rcases decodeSlices_cons_eq_ok_iff.mp hDecode with
            ⟨content, first, rest, _, hFirst, hRest, rfl⟩
          rcases List.mem_cons.mp hMem with rfl | hMem
          · exact ⟨type, by simp, content, hFirst⟩
          · rcases ih hRest hMem with ⟨other, hOther, hChild⟩
            exact
              ⟨other, List.mem_cons_of_mem _ hOther, hChild⟩

/-
  The members of a tuple are of its types in order and in
  number. There is a slice or a fault for every type.
-/
theorem typeAll_of_memberSlices
    (hOne :
      ∀ {type content child},
        decodeOne type content = .ok child →
          child.type = type)
    {data : List UInt8}
    {width used position : Nat}
    {types : List Ty}
    {children : List Variant}
    (hDecode :
      decodeSlices decodeOne types
          (Framing.memberSlices data width used position
            (Ty.layoutAll types)) =
        .ok children) :
    typeAll children = types := by
  induction types generalizing used position children with
  | nil =>
      simp only [decodeSlices] at hDecode
      cases hDecode
      rfl
  | cons type types ih =>
      simp only [Ty.layoutAll, Framing.memberSlices] at hDecode
      split at hDecode
      · simp only [decodeSlices] at hDecode
        cases hDecode
      · split at hDecode
        · simp only [decodeSlices] at hDecode
          cases hDecode
        · rcases decodeSlices_cons_eq_ok_iff.mp hDecode with
            ⟨_, child, rest, _, hChild, hRest, rfl⟩
          rw [typeAll, hOne hChild, ih hRest]

/- The slices that are decoded are those of the tuple. -/
theorem decodeSlices_of_decodeMembers
    {type : Ty}
    {data : List UInt8}
    {children : List Variant}
    (hDecode :
      decodeMembers decodeOne type data = .ok children) :
    decodeSlices decodeOne type.items
        (Framing.tupleSlices (Ty.layoutAll type.items) data) =
      .ok children := by
  simp only [decodeMembers] at hDecode
  split at hDecode
  · split at hDecode
    · cases hDecode
    · exact hDecode
  · exact hDecode

/- Decoded members have the types of the items. -/
theorem typeAll_of_decodeMembers
    (hOne :
      ∀ {type content child},
        decodeOne type content = .ok child →
          child.type = type)
    {type : Ty}
    {data : List UInt8}
    {children : List Variant}
    (hDecode :
      decodeMembers decodeOne type data = .ok children) :
    typeAll children = type.items :=
  typeAll_of_memberSlices hOne
    (decodeSlices_of_decodeMembers hDecode)

/- Every member fits if all that are decoded fit. -/
theorem forall_of_decodeSlices
    {levels : Nat}
    (hOne :
      ∀ {type content child},
        decodeOne type content = .ok child →
          child.Fits type levels)
    {types : List Ty}
    {slices : List Framing.Slice}
    {children : List Variant}
    (hDecode :
      decodeSlices decodeOne types slices = .ok children) :
    ∀ child ∈ children,
      ∃ type ∈ types, child.Fits type levels := by
  intro child hMem
  rcases exists_of_mem_decodeSlices hDecode hMem with
    ⟨type, hType, content, hChild⟩
  exact ⟨type, hType, hOne hChild⟩

end Variant

end GVariant

------------------------------------------------------------
-- Boxes
------------------------------------------------------------

namespace GVariant

namespace Variant

/- The type string of an opened box is within the levels. -/
theorem nesting_lt_of_openBox
    {limit levels : Nat}
    {data content : List UInt8}
    {type : Ty}
    (hOpen :
      openBox limit levels data = .ok (type, content)) :
    type.nesting < levels := by
  unfold openBox at hOpen
  split at hOpen
  · cases hOpen
  · split at hOpen
    · cases hOpen
    · split at hOpen
      · cases hOpen
      · rename_i type' r hRead
        split at hOpen
        · cases hOpen
        · cases hOpen
          exact (Reader.took_of_read hRead).2

end Variant

end GVariant

------------------------------------------------------------
-- Decoded Variants
------------------------------------------------------------

namespace GVariant

namespace Variant

/- A box fits if its content and its type string do. -/
theorem fits_boxed
    {child : Variant}
    {inner : Ty}
    {levels : Nat}
    (hFits : child.Fits inner levels)
    (hNested : inner.nesting < levels) :
    (boxed child).Fits .variant (levels + 1) := by
  have hMax :
      max child.nesting child.type.nesting < levels := by
    rw [hFits.type_eq]
    exact Nat.max_lt.mpr ⟨hFits.nesting_lt, hNested⟩
  exact ⟨rfl, hFits.wellFormed, Nat.succ_lt_succ hMax⟩

/- A maybe fits if its content does. -/
theorem fits_just
    {child : Variant}
    {element : Ty}
    {levels : Nat}
    (hFits : child.Fits element levels) :
    (just child).Fits (.maybe element) (levels + 1) :=
  ⟨by rw [type, hFits.type_eq], hFits.wellFormed,
    Nat.succ_lt_succ hFits.nesting_lt⟩

/- An array fits if its elements do. -/
theorem fits_arrayOf
    {element : Ty}
    {children : List Variant}
    {levels : Nat}
    (hByte : element ≠ .byte)
    (hFits : ∀ child ∈ children, child.Fits element levels) :
    (arrayOf element children).Fits (.array element)
      (levels + 1) := by
  refine ⟨rfl, ⟨hByte, ?_, ?_⟩, ?_⟩
  · exact fun child hMem => (hFits child hMem).type_eq
  · rw [wellFormedAll_iff]
    exact fun child hMem => (hFits child hMem).wellFormed
  · refine (nestingAll_lt_iff children).mpr ?_
    exact fun child hMem => (hFits child hMem).nesting_lt

/- A tuple fits if its members do. -/
theorem fits_tuple
    {items : List Ty}
    {children : List Variant}
    {levels : Nat}
    (hTypes : typeAll children = items)
    (hFits :
      ∀ child ∈ children, ∃ type, child.Fits type levels) :
    (tuple children).Fits (.tuple items) (levels + 1) := by
  refine ⟨by rw [type, hTypes], ?_, ?_⟩
  · refine (wellFormedAll_iff children).mpr ?_
    intro child hMem
    rcases hFits child hMem with ⟨_, hChild⟩
    exact hChild.wellFormed
  · refine (nestingAll_lt_iff children).mpr ?_
    intro child hMem
    rcases hFits child hMem with ⟨_, hChild⟩
    exact hChild.nesting_lt

/- What is decoded with some levels fits its type and them. -/
def FitsDecoded
    (order : ByteOrder)
    (limit levels : Nat) : Prop :=
  ∀ {type : Ty} {data : List UInt8} {v : Variant},
    decodeLevels order limit levels type data = .ok v →
      v.Fits type levels

variable {order : ByteOrder}
variable {limit levels : Nat}
variable {data : List UInt8}
variable {v : Variant}

theorem fits_of_decode_basic
    {type : BasicType}
    (hDecode : decodeBasic order type data = .ok v) :
    v.Fits (.basic type) (levels + 1) := by
  rcases exists_of_decodeBasic hDecode with
    ⟨value, rfl, rfl, hValid⟩
  exact ⟨rfl, hValid, Nat.succ_pos levels⟩

theorem fits_of_decode_variant
    (hBelow : FitsDecoded order limit levels)
    (hDecode :
      decodeLevels order limit (levels + 1) .variant data =
        .ok v) :
    v.Fits .variant (levels + 1) := by
  rw [decodeLevels] at hDecode
  split at hDecode
  · cases hDecode
  · rename_i inner content hOpen
    split at hDecode
    · cases hDecode
    · rename_i child hChild
      cases hDecode
      exact
        fits_boxed (hBelow hChild) (nesting_lt_of_openBox hOpen)

theorem fits_of_decode_maybe
    {element : Ty}
    (hBelow : FitsDecoded order limit levels)
    (hDecode :
      decodeLevels order limit (levels + 1) (.maybe element)
          data =
        .ok v) :
    v.Fits (.maybe element) (levels + 1) := by
  rw [decodeLevels] at hDecode
  split at hDecode
  · cases hDecode
    exact ⟨rfl, True.intro, Nat.succ_pos levels⟩
  · split at hDecode
    · cases hDecode
    · split at hDecode
      · cases hDecode
      · rename_i child hChild
        cases hDecode
        exact fits_just (hBelow hChild)

theorem fits_of_decode_array
    {element : Ty}
    (hBelow : FitsDecoded order limit levels)
    (hDecode :
      decodeLevels order limit (levels + 1) (.array element)
          data =
        .ok v) :
    v.Fits (.array element) (levels + 1) := by
  rw [decodeLevels] at hDecode
  split at hDecode
  · rename_i hByte
    cases hDecode
    exact
      ⟨by rw [hByte]; rfl, True.intro, Nat.succ_pos levels⟩
  · rename_i hByte
    split at hDecode
    · cases hDecode
    · split at hDecode
      · cases hDecode
      · rename_i children hChildren
        cases hDecode
        refine fits_arrayOf hByte ?_
        intro child hMem
        rcases forall_of_decodeSlices hBelow hChildren child
            hMem with
          ⟨other, hOther, hFits⟩
        rcases List.mem_map.mp hOther with ⟨_, _, rfl⟩
        exact hFits

/- Decoded members fit and have the types of the items. -/
theorem fits_of_decodeMembers
    {type : Ty}
    {children : List Variant}
    (hBelow : FitsDecoded order limit levels)
    (hDecode :
      decodeMembers (decodeLevels order limit levels) type
          data =
        .ok children) :
    typeAll children = type.items ∧
      ∀ child ∈ children, ∃ item, child.Fits item levels := by
  constructor
  · exact
      typeAll_of_decodeMembers
        (fun hChild => (hBelow hChild).type_eq) hDecode
  · intro child hMem
    rcases
        forall_of_decodeSlices hBelow
          (decodeSlices_of_decodeMembers hDecode) child
          hMem with
      ⟨item, _, hFits⟩
    exact ⟨item, hFits⟩

theorem fits_of_decode_tuple
    {items : List Ty}
    (hBelow : FitsDecoded order limit levels)
    (hDecode :
      decodeLevels order limit (levels + 1) (.tuple items)
          data =
        .ok v) :
    v.Fits (.tuple items) (levels + 1) := by
  rw [decodeLevels] at hDecode
  split at hDecode
  · cases hDecode
  · rename_i children hChildren
    cases hDecode
    rcases fits_of_decodeMembers hBelow hChildren with
      ⟨hTypes, hFits⟩
    exact fits_tuple hTypes hFits

theorem fits_of_decode_dictEntry
    {key : BasicType}
    {value : Ty}
    (hBelow : FitsDecoded order limit levels)
    (hDecode :
      decodeLevels order limit (levels + 1)
          (.dictEntry key value) data =
        .ok v) :
    v.Fits (.dictEntry key value) (levels + 1) := by
  rw [decodeLevels] at hDecode
  split at hDecode
  · cases hDecode
  · rename_i first second hChildren
    cases hDecode
    rcases fits_of_decodeMembers hBelow hChildren with
      ⟨hTypes, hFits⟩
    simp only [typeAll, type, Ty.items, List.cons.injEq,
      Ty.basic.injEq, and_true] at hTypes
    rcases hFits (.scalar first) (by simp) with ⟨_, hKey⟩
    rcases hFits second (by simp) with ⟨_, hValue⟩
    exact
      ⟨by rw [type, hTypes.1, hTypes.2],
        ⟨hKey.wellFormed, hValue.wellFormed⟩,
        Nat.succ_lt_succ hValue.nesting_lt⟩
  · cases hDecode

/-
  Whatever is decoded fits the type and the levels. The
  induction is on the levels: containers hold only what was
  decoded with one level less.
-/
theorem fits_of_decodeLevels :
    FitsDecoded order limit levels := by
  induction levels with
  | zero =>
      intro type data v hDecode
      cases hDecode
  | succ levels ih =>
      intro type data v hDecode
      cases type with
      | basic type =>
          rw [decodeLevels] at hDecode
          exact fits_of_decode_basic hDecode
      | «variant» => exact fits_of_decode_variant ih hDecode
      | maybe element => exact fits_of_decode_maybe ih hDecode
      | array element => exact fits_of_decode_array ih hDecode
      | tuple items => exact fits_of_decode_tuple ih hDecode
      | dictEntry key value =>
          exact fits_of_decode_dictEntry ih hDecode

/-
  A variant that is decoded from any data has the type asked
  for, is well-formed, and keeps the limit.
-/
theorem fits_of_decode
    {type : Ty}
    {data : List UInt8}
    {order : ByteOrder}
    {limit : Nat}
    {v : Variant}
    (hDecode : decode type data order limit = .ok v) :
    v.Fits type (limit + 1) :=
  fits_of_decodeLevels hDecode

end Variant

end GVariant
