import GVariant.Proofs.Signature.Cutoff
import GVariant.Proofs.Binary.Levels
import GVariant.Proofs.Conversion.ByType
import GVariant.Proofs.Conversion.Unpacking

/-
  A limit of nesting cuts off, and changes no answer.

  Reading types, packing by a signature, unpacking and
  decoding are all cut off at their limit or do what they do
  under any larger limit. For packing this rests on the
  check of the signature, which comes first and is the only
  place where the limit matters: what is packed by a type
  that was read has no limit.

  Main declarations:
    * `Conversion.packAs_cutOff`
    * `Conversion.unpackVariant_cutOff`
    * `Variant.decode_cutOff`
    * `Conversion.eq_of_larger_limit`
-/

------------------------------------------------------------
-- Operations That Are Cut Off
------------------------------------------------------------

namespace GVariant

namespace Conversion

variable {limit limit' : Nat}

/- Packing is cut off while the signature is checked. -/
theorem packAs_cutOff
    (hLimits : limit ≤ limit')
    (codec : Codec)
    (signature : String)
    (value : Value) :
    CutOff limit (packAs ⟨limit, codec⟩ signature value)
      (packAs ⟨limit', codec⟩ signature value) := by
  let r := Reader.ofString signature limit
  let r' := Reader.ofString signature limit'
  have hWhole : CutOff limit r.readWhole r'.readWhole :=
    r.readWhole_cutOff hLimits
  cases hRead : r.readWhole with
  | error e =>
      have hPack :
          packAs ⟨limit, codec⟩ signature value = .error e := by
        rw [packAs_eq_readWhole, hRead]
      rw [hRead] at hWhole
      rw [hPack]
      rcases hWhole with hStopped | hSame
      · left
        cases hStopped
        rfl
      · right
        rw [packAs_eq_readWhole, hSame]
  | ok type =>
      have hRead' : r'.readWhole = .ok type :=
        hWhole.eq_of_ok hRead
      have hPack :
          packAs ⟨limit, codec⟩ signature value =
            codec.variantOf value type :=
        packAs_eq_variantOf value hRead
      have hPack' :
          packAs ⟨limit', codec⟩ signature value =
            codec.variantOf value type :=
        packAs_eq_variantOf value hRead'
      right
      rw [hPack, hPack']

/- Unpacking is cut off where it goes too deep. -/
theorem unpackVariant_cutOff
    (hLimits : limit ≤ limit')
    (codec : Codec)
    (v : Variant)
    (deep recursive : Bool) :
    CutOff limit
      (unpackVariant ⟨limit, codec⟩ v deep recursive)
      (unpackVariant ⟨limit', codec⟩ v deep recursive) := by
  have hCodec :
      (⟨limit', codec⟩ : Conversion).codec =
        (⟨limit, codec⟩ : Conversion).codec := rfl
  exact unpackLevels_cutOff hCodec (Nat.succ_le_succ hLimits) v

end Conversion

/- So is decoding, in boxes and in their type strings. -/
theorem Variant.decode_cutOff
    {limit limit' : Nat}
    (hLimits : limit ≤ limit')
    (type : Ty)
    (data : List UInt8)
    (order : ByteOrder) :
    CutOff limit (decode type data order limit)
      (decode type data order limit') :=
  decodeLevels_cutOff (Nat.succ_le_succ hLimits) type data

end GVariant

------------------------------------------------------------
-- Larger Limits
------------------------------------------------------------

namespace GVariant

namespace Conversion

/-
  What is not cut off at a limit is the same under every
  larger limit: the type that is read or the failure to read
  one, with the place where the reader is left, and what
  packing, unpacking and decoding give.
-/
theorem eq_of_larger_limit
    {limit limit' : Nat}
    (hLimits : limit ≤ limit') :
    (∀ (r : Reader) (forceSimple : Bool),
        let step := (r.withLimit limit).readType forceSimple
        step.1 ≠ .error (.maxNestingExceeded limit) →
          (r.withLimit limit').readType forceSimple =
            step.withLimit limit') ∧
      (∀ (codec : Codec) (signature : String)
          (value : Value),
        let result :=
          packAs ⟨limit, codec⟩ signature value
        result ≠ .error (.maxNestingExceeded limit) →
          packAs ⟨limit', codec⟩ signature value = result) ∧
        (∀ (codec : Codec) (v : Variant)
            (deep recursive : Bool),
          let result :=
            unpackVariant ⟨limit, codec⟩ v deep recursive
          result ≠ .error (.maxNestingExceeded limit) →
            unpackVariant ⟨limit', codec⟩ v deep recursive =
              result) ∧
          ∀ (type : Ty) (data : List UInt8)
            (order : ByteOrder),
            let result := Variant.decode type data order limit
            result ≠ .error (.maxNestingExceeded limit) →
              Variant.decode type data order limit' =
                result := by
  refine ⟨?_, ?_, ?_, ?_⟩
  · intro r forceSimple step hInside
    have hStep :=
      (r.withLimit limit).readType_cutOff forceSimple hLimits
    exact hStep.resolve_left hInside
  · intro codec signature value result hInside
    exact
      (packAs_cutOff hLimits codec signature value).eq_of_ne
        hInside
  · intro codec v deep recursive result hInside
    exact
      (unpackVariant_cutOff hLimits codec v deep
        recursive).eq_of_ne hInside
  · intro type data order result hInside
    exact
      (Variant.decode_cutOff hLimits type data order).eq_of_ne
        hInside

/-
  Under a limit of one level: a reader that is left before a
  character that ends its text, a number that is out of
  range, a box that a shallow unpacking opens no further,
  and an array of booleans.
-/
theorem eq_of_larger_limit_one :
    (Reader.ofChars ['(', 'i', '!'] 64).readType false =
        (.error (.unexpectedCharacter '!' 2), ⟨[], 3, 64⟩) ∧
      packAs { maxDepth := 64 } "ai"
            (.array [.double (.infinity true)]) =
          .error (.outOfRange "-inf" 'i') ∧
        unpackVariant { maxDepth := 64 }
              (.boxed (.boxed (.just (Variant.byte 1)))) false
              true =
            .ok (.variant (.boxed (.just (Variant.byte 1)))) ∧
          Variant.decode (.array .boolean) [0, 1] .little 64 =
            .ok
              (.arrayOf .boolean
                [.boolean false, .boolean true]) := by
  have hLimits : 1 ≤ 64 := by
    decide
  rcases eq_of_larger_limit hLimits with
    ⟨hReads, hPacks, hUnpacks, hDecodes⟩
  have hReader :
      Reader.ofString "ai" 1 = .ofChars ['a', 'i'] 1 := by
    rfl
  have hRead :
      (Reader.ofChars ['(', 'i', '!'] 1).readType false =
        (.error (.unexpectedCharacter '!' 2), ⟨[], 3, 1⟩) := by
    rfl
  have hPack :
      packAs { maxDepth := 1 } "ai"
          (.array [.double (.infinity true)]) =
        .error (.outOfRange "-inf" 'i') := by
    rw [packAs, hReader]
    rfl
  have hUnpack :
      unpackVariant { maxDepth := 1 }
          (.boxed (.boxed (.just (Variant.byte 1)))) false
          true =
        .ok (.variant (.boxed (.just (Variant.byte 1)))) := by
    rfl
  have hDecode :
      Variant.decode (.array .boolean) [0, 1] .little 1 =
        .ok
          (.arrayOf .boolean
            [.boolean false, .boolean true]) := by
    rfl
  refine ⟨?_, ?_, ?_, ?_⟩
  · have hSame :=
      hReads (.ofChars ['(', 'i', '!'] 1) false
        (by rintro hCut; cases hCut)
    exact hSame.trans (congrArg (Step.withLimit · 64) hRead)
  · have hSame :=
      hPacks .nulTerminated "ai"
        (.array [.double (.infinity true)])
        (by rw [hPack]; rintro hCut; cases hCut)
    exact hSame.trans hPack
  · have hSame :=
      hUnpacks .nulTerminated
        (.boxed (.boxed (.just (Variant.byte 1)))) false true
        (by rintro hCut; cases hCut)
    exact hSame.trans hUnpack
  · have hSame :=
      hDecodes (.array .boolean) [0, 1] .little
        (by rintro hCut; cases hCut)
    exact hSame.trans hDecode

end Conversion

end GVariant
