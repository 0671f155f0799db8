import GVariant.Proofs.Conversion.Packed
import GVariant.Proofs.Signature.Grammar

/-
  Packing and reading agree on what one type is.

  Where a value is packed, the type that is read in its
  place is that of the result, and both leave the reader at
  the same position. It follows that a signature that was
  checked to be one type is taken as a whole by packing:
  what packing leaves of it never has to be checked.

  Main declarations:
    * `Conversion.readType_of_packNext`
    * `Conversion.expectEnd_of_packNext`
    * `Conversion.packAs_eq_readWhole`
    * `Conversion.readType_eq_of_packNext`
-/

------------------------------------------------------------
-- One Type
------------------------------------------------------------

namespace GVariant

namespace Conversion

variable {conv : Conversion}
variable {value : Value}
variable {v : Variant}

/- The type of what was packed is the type that is read. -/
theorem readType_of_packNext
    {r r' : Reader}
    (hPack : conv.packNext value r = (.ok v, r')) :
    r.readType false = (.ok v.type, r') := by
  have hInside : ∀ w ∈ value.variants, True := by
    simp
  have hPacked := packed_of_packNext hInside hPack
  apply Reader.readType_eq_ok_iff.mpr
  refine ⟨hPacked.took, ?_, by simp⟩
  have hNested := hPacked.nesting_le
  rwa [Nat.zero_add] at hNested

/- The type string of what was packed is the signature. -/
theorem signature_type_of_packAs
    {signature : String}
    (hPack : conv.packAs signature value = .ok v) :
    v.type.signature = signature := by
  have hInside : ∀ w ∈ value.variants, True := by
    simp
  rcases packed_of_packAs hInside hPack with ⟨_, hChars, _⟩
  rw [Ty.signature, hChars, String.ofList_toList]

/-
  If a type is all that a reader has left, then so it is
  for packing: both leave the reader at the same position.
-/
theorem expectEnd_of_packNext
    {r r' rest : Reader}
    {type : Ty}
    (hRead : r.readType false = (.ok type, rest))
    (hEnd : rest.expectEnd = .ok ())
    (hPack : conv.packNext value r = (.ok v, r')) :
    r'.expectEnd = .ok () := by
  rw [readType_of_packNext hPack] at hRead
  have hSame : r' = rest := (Prod.mk.inj hRead).2
  rwa [hSame]

/-
  Packing by a signature is reading it as a whole and then
  packing by its start. Nothing is left to be checked.
-/
theorem packAs_eq_readWhole
    (conv : Conversion)
    (signature : String)
    (value : Value) :
    conv.packAs signature value =
      match (Reader.ofString signature
          conv.maxDepth).readWhole with
      | .error e => .error e
      | .ok _ =>
          (conv.packNext value
            (Reader.ofString signature conv.maxDepth)).1 := by
  simp only [packAs, Reader.readWhole]
  rcases hRead :
      (Reader.ofString signature conv.maxDepth).readType
        false with ⟨checked, rest⟩
  cases checked with
  | error e => rfl
  | ok type =>
      cases hRest : rest.expectEnd with
      | error e => simp [bind, Except.bind, hRest]
      | ok _ =>
          rcases hPack :
              conv.packNext value
                (Reader.ofString signature conv.maxDepth) with
            ⟨result, after⟩
          cases result with
          | error e => simp [bind, Except.bind, hRest]
          | ok packed =>
              have hAfter :=
                expectEnd_of_packNext hRead hRest hPack
              simp [bind, Except.bind, pure, Except.pure,
                hRest, hAfter]

/-
  Packing agrees with reading, for any reader, conversion
  and value: where a value is packed, the reader would have
  read the type of the result, up to the same position. A
  value that is packed by a signature has the signature as
  its type string, and once the signature was checked to be
  one type, packing leaves nothing of it.
-/
theorem readType_eq_of_packNext :
    (∀ (conv : Conversion) (value : Value) (r : Reader) v r',
        conv.packNext value r = (.ok v, r') →
          r.readType false = (.ok v.type, r')) ∧
      (∀ (conv : Conversion) (value : Value) signature v,
        conv.packAs signature value = .ok v →
          v.type.signature = signature) ∧
        ∀ (conv : Conversion) (value : Value) signature,
          let r := Reader.ofString signature conv.maxDepth
          ∀ type rest v r',
            r.readType false = (.ok type, rest) →
              rest.expectEnd = .ok () →
                conv.packNext value r = (.ok v, r') →
                  r'.expectEnd = .ok () := by
  refine ⟨?_, ?_, ?_⟩
  · intro conv value r v r' hPack
    exact readType_of_packNext hPack
  · intro conv value signature v hPack
    exact signature_type_of_packAs hPack
  · intro conv value signature r type rest v r' hRead hEnd
      hPack
    exact expectEnd_of_packNext hRead hEnd hPack

/-
  A value is packed by a maybe of pairs, behind a boolean
  and before text that is no type.
-/
def behindBoolean : Reader where
  rest := ['m', '(', 's', 'm', 'i', ')', ')', 'é']
  position := 1
  maxDepth := 3

def pairWithNull : Value :=
  .array [.string "a", .null, .bool true]

def packedPair : Variant :=
  .just
    (.tuple
      [.scalar (.text .string "a"), .nothing (.int .int32)])

theorem readType_eq_of_packNext_behindBoolean :
    standard.packNext pairWithNull behindBoolean =
        (.ok packedPair, ⟨[')', 'é'], 7, 3⟩) ∧
      behindBoolean.readType false =
          (.ok packedPair.type, ⟨[')', 'é'], 7, 3⟩) ∧
        standard.packAs "m(smi)" pairWithNull =
            .ok packedPair ∧
          packedPair.type.signature = "m(smi)" := by
  have hNext :
      standard.packNext pairWithNull behindBoolean =
        (.ok packedPair, ⟨[')', 'é'], 7, 3⟩) := rfl
  have hReader :
      Reader.ofString "m(smi)" standard.maxDepth =
        .ofChars ['m', '(', 's', 'm', 'i', ')'] 64 := by
    rfl
  have hAs :
      standard.packAs "m(smi)" pairWithNull =
        .ok packedPair := by
    rw [packAs, hReader]
    rfl
  exact
    ⟨hNext,
      readType_eq_of_packNext.1 standard pairWithNull
        behindBoolean _ _ hNext,
      hAs,
      readType_eq_of_packNext.2.1 standard pairWithNull _ _
        hAs⟩

end Conversion

end GVariant
