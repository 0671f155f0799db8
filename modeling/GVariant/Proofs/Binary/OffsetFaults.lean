import GVariant.Proofs.Binary.ArrayRanges
import GVariant.Proofs.Conversion.ErrorClasses

/-
  The decoder finds every framing offset that it reads.

  An offset is read only where the table has room for it: at
  the end of data that is as long as an offset is wide, or
  so far before the end as offsets were read. So the fault
  of an offset that is not there never comes out, whatever
  the data and the type.

  Main declarations:
    * `Framing.not_mem_memberSlices`
    * `Framing.arraySlices_offsets`
    * `Variant.decodeSlices_ne_error`
    * `Variant.decodeLevels_ne_error`
-/

------------------------------------------------------------
-- Offsets That Are Not There
------------------------------------------------------------

namespace GVariant

namespace Framing

variable {data : List UInt8}

/- An end that is not found has no room in the data. -/
theorem eq_of_memberEnd_eq_error
    {width used position : Nat}
    {member : Layout}
    {isLast : Bool}
    {fault : DataFault}
    (hEnd :
      memberEnd data width used position member isLast =
        .error fault) :
    fault = .tableTooLarge := by
  unfold memberEnd at hEnd
  split at hEnd
  · cases hEnd
  · split at hEnd
    · split at hEnd
      · cases hEnd
      · cases hEnd
        rfl
    · split at hEnd
      · rename_i hTable
        have hRead :
            readOffset data
                (data.length - width * (used + 1)) width =
              .ok _ :=
          if_pos
            (by
              rw [Nat.mul_succ] at hTable ⊢
              omega)
        rw [hRead] at hEnd
        cases hEnd
      · cases hEnd
        rfl

/- No offset of a tuple is read where there is none. -/
theorem not_mem_memberSlices
    {width used position : Nat}
    {members : List Layout} :
    .error .offsetOutOfRange ∉
      memberSlices data width used position members := by
  induction members generalizing used position with
  | nil => exact List.not_mem_nil
  | cons member members ih =>
      unfold memberSlices
      dsimp only
      split
      · rename_i fault hEnd
        rw [eq_of_memberEnd_eq_error hEnd]
        decide
      · split
        · rename_i fault hSlice
          unfold slice at hSlice
          split at hSlice
          · cases hSlice
          · cases hSlice
            simp
        · simp [ih]

/- No offset of an array is read where there is none. -/
theorem not_mem_elementSlices
    {alignment limit start : Nat}
    {offsets : List Nat} :
    .error .offsetOutOfRange ∉
      elementSlices alignment limit data start offsets := by
  induction offsets generalizing data start with
  | nil => exact List.not_mem_nil
  | cons stop offsets ih =>
      unfold elementSlices
      dsimp only
      split
      · simp
      · simp [ih]

theorem arraySlices_offsets
    (data : List UInt8)
    (element : Layout) :
    arraySlices element data ≠ .error .offsetOutOfRange ∧
      ∀ slices,
        arraySlices element data = .ok slices →
          .error .offsetOutOfRange ∉ slices := by
  have hWidth := widthOf_le data.length
  have hRead :
      readOffset data (data.length - widthOf data.length)
          (widthOf data.length) =
        .ok _ :=
    if_pos (by omega)
  unfold arraySlices
  split
  · split
    · simp
    · simp
  · split
    · simp
    · simp only [varyingSlices, hRead]
      split
      · rename_i fault hSlice
        unfold slice at hSlice
        split at hSlice
        · cases hSlice
        · cases hSlice
          simp
      · split
        · simp
        · refine ⟨by simp, ?_⟩
          intro slices hSlices
          cases hSlices
          exact not_mem_elementSlices

end Framing

end GVariant

------------------------------------------------------------
-- Faults Of The Decoder
------------------------------------------------------------

namespace GVariant

namespace Variant

variable {order : ByteOrder}
variable {data : List UInt8}

/- Slices fail by a fault of one of them or of a child. -/
theorem decodeSlices_ne_error
    {decodeOne : Ty → List UInt8 → Except Error Variant}
    {types : List Ty}
    {slices : List Framing.Slice}
    {fault : DataFault}
    (hOne :
      ∀ type content,
        decodeOne type content ≠ .error (.data fault))
    (hSlices : .error fault ∉ slices) :
    decodeSlices decodeOne types slices ≠
      .error (.data fault) := by
  induction types generalizing slices with
  | nil => simp [decodeSlices]
  | cons type types ih =>
      cases slices with
      | nil => simp [decodeSlices]
      | cons slice slices =>
          simp only [List.mem_cons, not_or] at hSlices
          have hRest := ih hSlices.2
          cases slice with
          | error other =>
              simpa [decodeSlices, eq_comm] using hSlices.1
          | ok content =>
              have hFirst := hOne type content
              intro hDecode
              simp only [decodeSlices] at hDecode
              split at hDecode
              · rename_i hChild
                cases hDecode
                exact hFirst hChild
              · split at hDecode
                · rename_i hOthers
                  cases hDecode
                  exact hRest hOthers
                · cases hDecode

theorem decodeBasic_ne_error
    {type : BasicType} :
    decodeBasic order type data ≠
      .error (.data .offsetOutOfRange) := by
  cases type with
  | boolean =>
      simp only [decodeBasic, Scalar.decodeBoolean]
      split
      · rename_i fault hFault
        split at hFault
        · split at hFault
          · cases hFault
          · split at hFault
            · cases hFault
            · cases hFault
              simp
        · cases hFault
          simp
      · simp
  | int kind =>
      by_cases hSize : data.length = kind.size
      · simp [decodeBasic, Scalar.decodeInt, hSize]
      · simp [decodeBasic, Scalar.decodeInt, hSize]
  | double =>
      by_cases hSize : data.length = 8
      · simp [decodeBasic, Scalar.decodeDouble, hSize]
      · simp [decodeBasic, Scalar.decodeDouble, hSize]
  | text kind =>
      intro hDecode
      simp only [decodeBasic, Scalar.decodeText] at hDecode
      split at hDecode
      · rename_i e hText
        cases hDecode
        split at hText
        · split at hText
          · cases hText
          · split at hText
            · cases hText
            · cases hText
        · cases hText
      · have hValue := isValueError_of_text hDecode
        cases hValue

/- The type string of a box fails as a signature does. -/
theorem openBox_ne_error
    {limit levels : Nat} :
    openBox limit levels data ≠
      .error (.data .offsetOutOfRange) := by
  intro hOpen
  unfold openBox at hOpen
  split at hOpen
  · cases hOpen
  · split at hOpen
    · cases hOpen
    · split at hOpen
      · rename_i hRead
        cases hOpen
        cases Reader.read_fails _ _ _ _ hRead
      · split at hOpen
        · rename_i hEnd
          cases hOpen
          unfold Reader.expectEnd at hEnd
          split at hEnd <;> cases hEnd
        · cases hOpen

theorem openMaybe_ne_error
    {element : Ty} :
    openMaybe element data ≠ .error .offsetOutOfRange := by
  intro hOpen
  unfold openMaybe at hOpen
  split at hOpen
  · cases hOpen
  · split at hOpen <;> cases hOpen

/- Members fail so only if one of them does. -/
theorem decodeMembers_ne_error
    {decodeOne : Ty → List UInt8 → Except Error Variant}
    {type : Ty}
    (hOne :
      ∀ type content,
        decodeOne type content ≠
          .error (.data .offsetOutOfRange)) :
    decodeMembers decodeOne type data ≠
      .error (.data .offsetOutOfRange) := by
  have hSlices :
      decodeSlices decodeOne type.items
          (Framing.tupleSlices (Ty.layoutAll type.items)
            data) ≠
        .error (.data .offsetOutOfRange) :=
    decodeSlices_ne_error hOne Framing.not_mem_memberSlices
  unfold decodeMembers
  dsimp only
  split
  · split
    · simp
    · exact hSlices
  · exact hSlices

/-
  No framing offset is read where there is none, at any
  depth.
-/
theorem decodeLevels_ne_error
    {limit levels : Nat}
    {type : Ty} :
    decodeLevels order limit levels type data ≠
      .error (.data .offsetOutOfRange) := by
  induction levels generalizing type data with
  | zero => simp [decodeLevels]
  | succ levels ih =>
      have hOne :
          ∀ type content,
            decodeLevels order limit levels type content ≠
              .error (.data .offsetOutOfRange) :=
        fun _ _ => ih
      intro hDecode
      cases type with
      | basic type => exact decodeBasic_ne_error hDecode
      | «variant» =>
          simp only [decodeLevels] at hDecode
          split at hDecode
          · rename_i hOpen
            cases hDecode
            exact openBox_ne_error hOpen
          · split at hDecode
            · rename_i hChild
              cases hDecode
              exact ih hChild
            · cases hDecode
      | maybe element =>
          simp only [decodeLevels] at hDecode
          split at hDecode
          · cases hDecode
          · split at hDecode
            · rename_i hOpen
              cases hDecode
              exact openMaybe_ne_error hOpen
            · split at hDecode
              · rename_i hChild
                cases hDecode
                exact ih hChild
              · cases hDecode
      | array element =>
          have hArray :=
            Framing.arraySlices_offsets data element.layout
          simp only [decodeLevels] at hDecode
          split at hDecode
          · cases hDecode
          · split at hDecode
            · rename_i hSlices
              cases hDecode
              exact hArray.1 hSlices
            · rename_i slices hSlices
              split at hDecode
              · rename_i hChildren
                cases hDecode
                exact
                  decodeSlices_ne_error hOne
                    (hArray.2 slices hSlices) hChildren
              · cases hDecode
      | tuple items =>
          simp only [decodeLevels] at hDecode
          split at hDecode
          · rename_i hError
            cases hDecode
            exact decodeMembers_ne_error hOne hError
          · cases hDecode
      | dictEntry key value =>
          simp only [decodeLevels] at hDecode
          split at hDecode
          · rename_i hError
            cases hDecode
            exact decodeMembers_ne_error hOne hError
          · cases hDecode
          · cases hDecode

end Variant

end GVariant
