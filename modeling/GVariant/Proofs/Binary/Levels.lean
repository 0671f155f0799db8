import GVariant.Proofs.Binary.Soundness
import GVariant.Proofs.Signature.Cutoff

/-
  What the levels of the decoder decide.

  With fewer levels the decoder is cut off at the limit, or
  it gives the same variant or fails with the same fault.
  The serialised form of a variant is therefore decoded
  under exactly those limits that the variant keeps, and
  always to the variant itself.

  Main declarations:
    * `Variant.openBox_cutOff`
    * `Variant.decodeSlices_cutOff`
    * `Variant.decodeLevels_cutOff`
    * `Variant.decodeLevels_of_le`
    * `Variant.decode_encode_eq_ok_iff`
-/

------------------------------------------------------------
-- More Levels
------------------------------------------------------------

namespace GVariant

namespace Variant

variable {order : ByteOrder}
variable {limit limit' levels levels' : Nat}

/- A box is opened alike with more levels for its type. -/
theorem openBox_cutOff
    (hLevels : levels ≤ levels')
    (data : List UInt8) :
    CutOff limit (openBox limit levels data)
      (openBox limit' levels' data) := by
  unfold openBox
  split
  · exact .refl limit _
  · split
    · exact .refl limit _
    · rename_i text _
      have hRead :
          ((Reader.ofString text limit).read levels).CutOff
            limit limit'
            ((Reader.ofString text limit').read levels') :=
        Reader.read_cutOff hLevels rfl
      refine
        hRead.elim (fun _ => .inl rfl)
          (fun _ _ => .inr rfl) ?_
      intro type r _
      exact .inr rfl

variable {decodeOne decodeMore :
  Ty → List UInt8 → Except Error Variant}

/- Slices are decoded up to the first that is cut off. -/
theorem decodeSlices_cutOff
    (hOne :
      ∀ type content,
        CutOff limit (decodeOne type content)
          (decodeMore type content))
    (types : List Ty)
    (slices : List Framing.Slice) :
    CutOff limit (decodeSlices decodeOne types slices)
      (decodeSlices decodeMore types slices) := by
  induction types generalizing slices with
  | nil =>
      simp only [decodeSlices]
      exact .refl limit _
  | cons type types ih =>
      cases slices with
      | nil =>
          simp only [decodeSlices]
          exact .refl limit _
      | cons slice slices =>
          simp only [decodeSlices]
          cases slice with
          | error fault => exact .refl limit _
          | ok content =>
              dsimp only
              refine
                (hOne type content).elim (.inl rfl)
                  (fun _ => .inr rfl) ?_
              intro child
              exact
                (ih slices).elim (.inl rfl)
                  (fun _ => .inr rfl) fun _ => .inr rfl

/- The same for the members of a tuple or an entry. -/
theorem decodeMembers_cutOff
    (hOne :
      ∀ type content,
        CutOff limit (decodeOne type content)
          (decodeMore type content))
    (type : Ty)
    (data : List UInt8) :
    CutOff limit (decodeMembers decodeOne type data)
      (decodeMembers decodeMore type data) := by
  unfold decodeMembers
  split
  · split
    · exact .refl limit _
    · exact decodeSlices_cutOff hOne _ _
  · exact decodeSlices_cutOff hOne _ _

/-
  With more levels the decoder does the same, unless it is
  cut off, whatever the larger limit is said to be. The
  induction is on the levels of the smaller limit.
-/
theorem decodeLevels_cutOff
    (hLevels : levels ≤ levels')
    (type : Ty)
    (data : List UInt8) :
    CutOff limit (decodeLevels order limit levels type data)
      (decodeLevels order limit' levels' type data) := by
  induction levels generalizing levels' type data with
  | zero => exact .inl rfl
  | succ levels ih =>
      cases levels' with
      | zero => cases hLevels
      | succ levels' =>
          have hLess := Nat.le_of_succ_le_succ hLevels
          cases type with
          | basic type => exact .refl limit _
          | «variant» =>
              simp only [decodeLevels]
              refine
                (openBox_cutOff hLess data).elim (.inl rfl)
                  (fun _ => .inr rfl) ?_
              rintro ⟨type, content⟩
              dsimp only
              exact
                (ih hLess type content).elim (.inl rfl)
                  (fun _ => .inr rfl) fun _ => .inr rfl
          | maybe element =>
              simp only [decodeLevels]
              split
              · exact .refl limit _
              · split
                · exact .refl limit _
                · rename_i content _
                  exact
                    (ih hLess element content).elim (.inl rfl)
                      (fun _ => .inr rfl) fun _ => .inr rfl
          | array element =>
              simp only [decodeLevels]
              split
              · exact .refl limit _
              · split
                · exact .refl limit _
                · rename_i slices _
                  exact
                    (decodeSlices_cutOff (ih hLess) _
                        slices).elim
                      (.inl rfl) (fun _ => .inr rfl)
                      fun _ => .inr rfl
          | tuple items =>
              have hMembers :=
                decodeMembers_cutOff (ih hLess) (.tuple items)
                  data
              simp only [decodeLevels]
              exact
                hMembers.elim (.inl rfl) (fun _ => .inr rfl)
                  fun _ => .inr rfl
          | dictEntry key value =>
              have hMembers :=
                decodeMembers_cutOff (ih hLess)
                  (.dictEntry key value) data
              simp only [decodeLevels]
              exact
                hMembers.elim (.inl rfl) (fun _ => .inr rfl)
                  fun _ => .inr rfl

/- What is decoded is decoded with more levels. -/
theorem decodeLevels_of_le
    {type : Ty}
    {data : List UInt8}
    {v : Variant}
    (hLevels : levels ≤ levels')
    (hDecode :
      decodeLevels order limit levels type data = .ok v) :
    decodeLevels order limit' levels' type data = .ok v :=
  (decodeLevels_cutOff hLevels type data).eq_of_ok hDecode

end Variant

end GVariant

------------------------------------------------------------
-- Serialised Forms
------------------------------------------------------------

namespace GVariant

namespace Variant

/-
  The serialised form of a variant is decoded exactly under
  the limits that the variant keeps, and to nothing else
  than the variant.
-/
theorem decode_encode_eq_ok_iff
    {v w : Variant}
    (hWell : v.WellFormed)
    {order : ByteOrder}
    {limit : Nat}
    (hLength :
      (v.encode order).length ≤ Framing.maxLength) :
    decode v.type (v.encode order) order limit = .ok w ↔
      v.nesting ≤ limit ∧ w = v := by
  constructor
  · intro hDecode
    have hEnough :
        decodeLevels order limit (max limit v.nesting + 1)
            v.type (v.encode order) =
          .ok w :=
      decodeLevels_of_le (by omega) hDecode
    have hSelf :
        decodeLevels order limit (max limit v.nesting + 1)
            v.type (v.encode order) =
          .ok v :=
      decodeLevels_encode hWell (by omega) hLength
    rw [hSelf] at hEnough
    cases hEnough
    have hNested := (fits_of_decode hDecode).nesting_lt
    exact ⟨Nat.le_of_lt_succ hNested, rfl⟩
  · rintro ⟨hNesting, rfl⟩
    exact
      decodeLevels_encode hWell (Nat.lt_succ_of_le hNesting)
        hLength

end Variant

end GVariant
