import GVariant.Proofs.Binary.Levels
import GVariant.Proofs.Conversion.Host
import GVariant.Proofs.Conversion.Packed
import GVariant.Proofs.Conversion.Unpacking

/-
  What keeps the limit of nesting.

  Decoding, packing and unpacking each count levels of their
  own. A variant is decoded only if it keeps the limit, with
  its boxes opened, and then unpacking reaches all of it. A
  packer counts the levels of the signature alone. The
  boxes that a host value holds are taken as they are, so
  what is packed may nest deeper than the limit inside of
  its boxes, and nowhere else.

  Key definitions include:
    * `Conversion.UnpacksWithin`
    * `Variant.boxesFrom`

  Main declarations:
    * `Conversion.unpacksWithin_of_wellFormed`
    * `Variant.within_limit_of_decode`
    * `Variant.nesting_le_iff_of_wellTyped`
    * `Conversion.nesting_le_iff_of_packAs`
-/

------------------------------------------------------------
-- Unpacking Within The Levels
------------------------------------------------------------

namespace GVariant

namespace Conversion

variable {conv : Conversion}
variable {deep recursive : Bool}

/- A variant is unpacked with more levels than it nests. -/
def UnpacksWithin
    (conv : Conversion)
    (deep recursive : Bool)
    (v : Variant) : Prop :=
  ∀ levels,
    v.nesting < levels →
      ∃ value,
        conv.unpackLevels deep recursive levels v = .ok value

/-
  A well-formed variant is unpacked within its levels, in
  every mode. It is no higher than it nests.
-/
theorem unpacksWithin_of_wellFormed
    {v : Variant}
    (hWell : v.WellFormed) :
    conv.UnpacksWithin deep recursive v := by
  intro levels hLevels
  have hHeight : v.height < levels :=
    Nat.lt_of_le_of_lt v.height_le_nesting hLevels
  exact exists_unpackLevels hWell hHeight

end Conversion

end GVariant

------------------------------------------------------------
-- Decoded Variants
------------------------------------------------------------

namespace GVariant

namespace Variant

/-
  Whatever the decoder accepts, in normal form or not, keeps
  the limit with its boxes opened. Within the same limit it
  is decoded again from its serialised form, and a
  conversion unpacks all of it.
-/
theorem within_limit_of_decode
    {type : Ty}
    {data : List UInt8}
    {order : ByteOrder}
    {limit : Nat}
    {v : Variant}
    (hDecode : decode type data order limit = .ok v) :
    v.nesting ≤ limit ∧
      (∀ order',
        (v.encode order').length ≤ Framing.maxLength →
          decode type (v.encode order') order' limit =
            .ok v) ∧
        ∀ conv : Conversion,
          conv.maxDepth = limit →
            ∃ value, conv.recursiveUnpack v = .ok value := by
  have hFits := fits_of_decode hDecode
  have hNesting : v.nesting ≤ limit :=
    Nat.le_of_lt_succ hFits.nesting_lt
  refine ⟨hNesting, ?_, ?_⟩
  · intro order' hLength
    rw [← hFits.type_eq]
    exact
      (decode_encode_eq_ok_iff hFits.wellFormed hLength).mpr
        ⟨hNesting, rfl⟩
  · rintro conv rfl
    exact
      Conversion.unpacksWithin_of_wellFormed hFits.wellFormed
        (conv.maxDepth + 1) hFits.nesting_lt

/- A byte, and a box of a byte in a maybe. -/
def byteAndBox : Variant :=
  .tuple [byte 3, .boxed (.just (byte 5))]

/-
  The same in other data than it is serialised to, with
  padding that is not zero.
-/
theorem within_limit_loosePadding :
    decode byteAndBox.type
          [3, 9, 9, 9, 9, 9, 9, 9, 5, 0, 109, 121] .big 3 =
        .ok byteAndBox ∧
      byteAndBox.nesting = 3 ∧
        decode byteAndBox.type (byteAndBox.encode .little)
            .little 3 =
          .ok byteAndBox ∧
          ∃ value,
            ({ maxDepth := 3 } : Conversion).recursiveUnpack
                byteAndBox =
              .ok value := by
  have hDecode :
      decode byteAndBox.type
          [3, 9, 9, 9, 9, 9, 9, 9, 5, 0, 109, 121] .big 3 =
        .ok byteAndBox := by
    rfl
  rcases within_limit_of_decode hDecode with
    ⟨_, hAgain, hUnpack⟩
  exact
    ⟨hDecode, by decide, hAgain .little (by decide),
      hUnpack _ rfl⟩

end Variant

end GVariant

------------------------------------------------------------
-- Boxes Of A Variant
------------------------------------------------------------

namespace GVariant

namespace Variant

mutual

/-
  What the boxes of a variant hold that are in no other box,
  each with the level that it is found at. The variant is at
  the level given.
-/
def boxesFrom :
    (level : Nat) → Variant → List (Nat × Variant)
| _, .scalar _ => []
| level, .boxed child => [(level, child)]
| _, .nothing _ => []
| level, .just child => child.boxesFrom (level + 1)
| _, .bytes _ => []
| level, .arrayOf _ children =>
    boxesFromAll (level + 1) children
| level, .tuple children => boxesFromAll (level + 1) children
| level, .entry _ value => value.boxesFrom (level + 1)

/- The boxes of several variants at one level. -/
def boxesFromAll :
    (level : Nat) → List Variant → List (Nat × Variant)
| _, [] => []
| level, child :: children =>
    child.boxesFrom level ++ boxesFromAll level children

end

theorem forall_boxesFromAll_iff
    {holds : Nat × Variant → Prop}
    {level : Nat}
    (children : List Variant) :
    (∀ box ∈ boxesFromAll level children, holds box) ↔
      ∀ child ∈ children,
        ∀ box ∈ child.boxesFrom level, holds box := by
  induction children with
  | nil => simp [boxesFromAll]
  | cons child children ih =>
      simp only [boxesFromAll, List.forall_mem_append,
        List.forall_mem_cons, ih]

/- Children nest one level deeper than their container. -/
theorem add_nestingAll_le_iff
    {level limit : Nat}
    (hLevel : level ≤ limit)
    (children : List Variant) :
    level + nestingAll children ≤ limit ↔
      ∀ child ∈ children,
        level + 1 + child.nesting ≤ limit := by
  induction children with
  | nil => simpa [nestingAll] using hLevel
  | cons child children ih =>
      simp only [nestingAll, List.forall_mem_cons, ← ih]
      omega

/- Children keep a limit as their boxes do. -/
theorem nestingAll_le_iff_of_forall
    {children : List Variant}
    {level limit : Nat}
    (hLevel : level ≤ limit)
    (hChildren :
      ∀ child ∈ children,
        level + 1 + child.nesting ≤ limit ↔
          ∀ box ∈ child.boxesFrom (level + 1),
            box.1 + (boxed box.2).nesting ≤ limit) :
    level + nestingAll children ≤ limit ↔
      ∀ box ∈ boxesFromAll (level + 1) children,
        box.1 + (boxed box.2).nesting ≤ limit := by
  rw [add_nestingAll_le_iff hLevel, forall_boxesFromAll_iff]
  exact forall₂_congr hChildren

variable {inside : Variant → Prop}

/-
  A variant whose type keeps a limit keeps it itself exactly
  if its boxes do. Outside of them it nests as its type.
-/
theorem nesting_le_iff_of_wellTyped
    {v : Variant}
    (hTyped : v.WellTyped inside)
    (level : Nat)
    {limit : Nat}
    (hType : level + v.type.nesting ≤ limit) :
    level + v.nesting ≤ limit ↔
      ∀ box ∈ v.boxesFrom level,
        box.1 + (boxed box.2).nesting ≤ limit := by
  induction v generalizing level with
  | boxed child _ => simp [boxesFrom]
  | just child ih =>
      rw [type, Ty.nesting] at hType
      rw [nesting, boxesFrom,
        ← ih hTyped (level + 1) (by omega)]
      omega
  | arrayOf element children ih =>
      have hAll :=
        (wellTypedAll_iff inside children).mp hTyped.2.2
      rw [type, Ty.nesting] at hType
      apply nestingAll_le_iff_of_forall (by omega)
      intro child hMem
      have hChild := ih child hMem (hAll child hMem) (level + 1)
      rw [hTyped.2.1 child hMem] at hChild
      exact hChild (by omega)
  | tuple children ih =>
      have hAll := (wellTypedAll_iff inside children).mp hTyped
      apply nestingAll_le_iff_of_forall (by omega)
      intro child hMem
      have hChild := nesting_type_lt_of_mem_tuple hMem
      exact
        ih child hMem (hAll child hMem) (level + 1) (by omega)
  | entry key value ih =>
      rw [type, Ty.nesting] at hType
      rw [nesting, boxesFrom,
        ← ih hTyped.2 (level + 1) (by omega)]
      omega
  | _ =>
      simp only [boxesFrom, nesting, List.not_mem_nil,
        false_implies, implies_true, iff_true]
      omega

/-
  What is in the boxes is what is said to be inside, and no
  box is deeper than the type of the variant nests.
-/
theorem forall_boxesFrom_of_wellTyped
    {v : Variant}
    (hTyped : v.WellTyped inside)
    (level : Nat) :
    ∀ box ∈ v.boxesFrom level,
      inside box.2 ∧ box.1 ≤ level + v.type.nesting := by
  induction v generalizing level with
  | boxed child _ =>
      have hInside : inside child := hTyped
      simpa [boxesFrom] using hInside
  | just child ih =>
      intro box hBox
      have hChild := ih hTyped (level + 1) box hBox
      rw [type, Ty.nesting]
      exact ⟨hChild.1, by omega⟩
  | arrayOf element children ih =>
      have hAll :=
        (wellTypedAll_iff inside children).mp hTyped.2.2
      rw [boxesFrom, forall_boxesFromAll_iff]
      intro child hMem box hBox
      have hChild :=
        ih child hMem (hAll child hMem) (level + 1) box hBox
      rw [hTyped.2.1 child hMem] at hChild
      rw [type, Ty.nesting]
      exact ⟨hChild.1, by omega⟩
  | tuple children ih =>
      have hAll := (wellTypedAll_iff inside children).mp hTyped
      rw [boxesFrom, forall_boxesFromAll_iff]
      intro child hMem box hBox
      have hChild :=
        ih child hMem (hAll child hMem) (level + 1) box hBox
      have hNested := nesting_type_lt_of_mem_tuple hMem
      exact ⟨hChild.1, by omega⟩
  | entry key value ih =>
      intro box hBox
      have hValue := ih hTyped.2 (level + 1) box hBox
      rw [type, Ty.nesting]
      exact ⟨hValue.1, by omega⟩
  | _ => simp [boxesFrom]

end Variant

end GVariant

------------------------------------------------------------
-- Packed Variants
------------------------------------------------------------

namespace GVariant

namespace Conversion

/-
  What is packed keeps the limit outside of its boxes, and
  these hold variants of the host value, no deeper than the
  signature nests. It keeps the limit exactly if each box
  does at its place, and this is also what decides whether
  its serialised form is decoded within the limit.
-/
theorem nesting_le_iff_of_packAs
    {conv : Conversion}
    {signature : String}
    {value : Value}
    {v : Variant}
    (hPack : conv.packAs signature value = .ok v) :
    v.type.nesting ≤ conv.maxDepth ∧
      (∀ box ∈ v.boxesFrom 0,
        box.2 ∈ value.variants ∧ box.1 ≤ v.type.nesting) ∧
      (v.nesting ≤ conv.maxDepth ↔
        ∀ box ∈ v.boxesFrom 0,
          box.1 + (Variant.boxed box.2).nesting ≤
            conv.maxDepth) ∧
      ((∀ w ∈ value.variants,
          v.type.nesting + (Variant.boxed w).nesting ≤
            conv.maxDepth) →
        v.nesting ≤ conv.maxDepth) ∧
      ((∀ w ∈ value.variants, w.WellFormed) →
        ∀ (order : ByteOrder) (w : Variant),
          (v.encode order).length ≤ Framing.maxLength →
            (Variant.decode v.type (v.encode order) order
                  conv.maxDepth =
                .ok w ↔
              v.nesting ≤ conv.maxDepth ∧ w = v)) := by
  have hSelf :
      ∀ w ∈ value.variants, (· ∈ value.variants) w :=
    fun _ hMem => hMem
  rcases packed_of_packAs hSelf hPack with
    ⟨hTyped, _, hType⟩
  have hBoxes :
      ∀ box ∈ v.boxesFrom 0,
        box.2 ∈ value.variants ∧ box.1 ≤ v.type.nesting := by
    simpa using
      Variant.forall_boxesFrom_of_wellTyped hTyped 0
  have hNesting :
      v.nesting ≤ conv.maxDepth ↔
        ∀ box ∈ v.boxesFrom 0,
          box.1 + (Variant.boxed box.2).nesting ≤
            conv.maxDepth := by
    have hLimit : 0 + v.type.nesting ≤ conv.maxDepth := by
      omega
    simpa using
      Variant.nesting_le_iff_of_wellTyped hTyped 0 hLimit
  refine ⟨hType, hBoxes, hNesting, ?_, ?_⟩
  · intro hHeld
    rw [hNesting]
    intro box hBox
    rcases hBoxes box hBox with ⟨hMem, hLevel⟩
    have hFits := hHeld box.2 hMem
    omega
  · intro hInside order w hLength
    have hWell : v.WellFormed := by
      rw [Variant.wellFormed_iff_wellTyped]
      exact (packed_of_packAs hInside hPack).1
    exact Variant.decode_encode_eq_ok_iff hWell hLength

/- A dictionary with a byte array in a box. -/
def boxedEntry : Variant :=
  .arrayOf (.dictEntry (.text .string) .variant)
    [.entry (.text .string "k") (.boxed (.bytes [1]))]

theorem nesting_le_boxedEntry :
    ({ maxDepth := 4 } : Conversion).packAs "a\x7bsv\x7d"
          (.map [("k", .variant (.bytes [1]))]) =
        .ok boxedEntry ∧
      boxedEntry.boxesFrom 0 = [(2, .bytes [1])] ∧
        boxedEntry.nesting ≤ 4 ∧
          Variant.decode boxedEntry.type
              (boxedEntry.encode .big) .big 4 =
            .ok boxedEntry := by
  have hPack :
      ({ maxDepth := 4 } : Conversion).packAs "a\x7bsv\x7d"
          (.map [("k", .variant (.bytes [1]))]) =
        .ok boxedEntry := by
    rfl
  have hBoxes :
      boxedEntry.boxesFrom 0 = [(2, .bytes [1])] := by
    rfl
  rcases nesting_le_iff_of_packAs hPack with
    ⟨_, _, hNesting, _, hDecode⟩
  have hLimit : boxedEntry.nesting ≤ 4 := by
    refine hNesting.mpr ?_
    rw [hBoxes]
    decide
  have hInside :
      ∀ w ∈ (Value.map
          [("k", .variant (.bytes [1]))]).variants,
        w.WellFormed := by
    simp [Value.variants, Value.variantsOfEntries,
      Variant.WellFormed]
  exact
    ⟨hPack, hBoxes, hLimit,
      (hDecode hInside .big boxedEntry (by decide)).mpr
        ⟨hLimit, rfl⟩⟩

/-
  No level is left for what is in a box, but the signature
  has no more than the box. What is packed cannot be decoded
  with the same limit.
-/
theorem not_nesting_le_boxedByte :
    ({ maxDepth := 0 } : Conversion).packAs "v"
          (.variant (Variant.byte 1)) =
        .ok (.boxed (Variant.byte 1)) ∧
      ¬ (Variant.boxed (Variant.byte 1)).nesting ≤ 0 ∧
        Variant.decode .variant
            ((Variant.boxed (Variant.byte 1)).encode .little)
            .little 0 =
          .error (.maxNestingExceeded 0) :=
  ⟨by rfl, by decide, by rfl⟩

end Conversion

end GVariant
