import GVariant.Proofs.Binary.Checked
import Mathlib.Order.Bounds.Basic
import Mathlib.Tactic.NormNum

/-
  The width of framing offsets, as it is chosen and as it is
  found again.

  The encoder knows the bytes of the members and the number
  of offsets, and the decoder knows the size of the whole.
  Both look for the least width that holds the size of the
  whole, but the table is part of it, so that its own size
  may demand a greater width. Where the greatest table is
  no larger than what a word can count, they find the same
  width, and an offset is read back from its lowest bytes.

  Key definitions include:
    * `Framing.Holds`
    * `Framing.SharedWidth`

  Main declarations:
    * `Checked.offsetWidth_eq`
    * `Framing.isLeast_offsetWidth`
    * `Framing.sharedWidth_offsetWidth`
-/

------------------------------------------------------------
-- The Width As A Machine Finds It
------------------------------------------------------------

namespace GVariant

namespace Checked

/- No sum is too great if the greatest of them is not. -/
theorem offsetWidth_eq
    {most body count : Nat}
    (hMost : body + 4 * count ≤ most) :
    offsetWidth most body count =
      pure (Framing.offsetWidth body count) := by
  have hNarrow :
      add most body count = pure (body + count) :=
    add_eq (by omega)
  have hPairs : mul most 2 count = pure (2 * count) :=
    mul_eq (by omega)
  have hMedium :
      add most body (2 * count) = pure (body + 2 * count) :=
    add_eq (by omega)
  have hFours : mul most 4 count = pure (4 * count) :=
    mul_eq (by omega)
  have hWide :
      add most body (4 * count) = pure (body + 4 * count) :=
    add_eq hMost
  simp only [offsetWidth, Framing.offsetWidth, hNarrow,
    hPairs, hMedium, hFours, hWide, pure_bind]
  split_ifs <;> rfl

end Checked

end GVariant

------------------------------------------------------------
-- The Least Width
------------------------------------------------------------

namespace GVariant

namespace Framing

/-
  Offsets of a width hold the size of a container with
  `body` bytes of members and `count` such offsets.
-/
def Holds (body count width : Nat) : Prop :=
  body + count * width ≤ 256 ^ width - 1

variable {body count : Nat}

theorem holds_one_iff :
    Holds body count 1 ↔ body + count ≤ 0xFF := by
  simp [Holds]

theorem holds_two_iff :
    Holds body count 2 ↔ body + 2 * count ≤ 0xFFFF := by
  simp [Holds, Nat.mul_comm count]

theorem holds_four_iff :
    Holds body count 4 ↔ body + 4 * count ≤ 0xFFFFFFFF := by
  simp [Holds, Nat.mul_comm count]

theorem holds_eight_iff :
    Holds body count 8 ↔ body + 8 * count < 2 ^ 64 := by
  rw [Holds, Nat.mul_comm count]
  norm_num
  omega

instance (width : Nat) :
    Decidable (Holds body count width) :=
  inferInstanceAs (Decidable (_ ≤ _))

/- The widths are tried from the least on. -/
theorem offsetWidth_eq_ite
    (hCount : count ≠ 0) :
    offsetWidth body count =
      if Holds body count 1 then 1
      else if Holds body count 2 then 2
      else if Holds body count 4 then 4
      else 8 := by
  simp only [offsetWidth, if_neg hCount, holds_one_iff,
    holds_two_iff, holds_four_iff]

/-
  The chosen width is the least that holds the size of the
  whole, if eight bytes do.
-/
theorem isLeast_offsetWidth
    (hCount : count ≠ 0)
    (hFits : body + 8 * count < 2 ^ 64) :
    IsLeast
      {width ∈ ({1, 2, 4, 8} : Set Nat) |
        Holds body count width}
      (offsetWidth body count) := by
  rw [← holds_eight_iff] at hFits
  rw [offsetWidth_eq_ite hCount]
  constructor
  · split_ifs with hOne hTwo hFour
    · exact ⟨by simp, hOne⟩
    · exact ⟨by simp, hTwo⟩
    · exact ⟨by simp, hFour⟩
    · exact ⟨by simp, hFits⟩
  · rintro width ⟨rfl | rfl | rfl | rfl, hHolds⟩ <;>
      split_ifs <;> omega

end Framing

end GVariant

------------------------------------------------------------
-- Offsets Read Back
------------------------------------------------------------

namespace GVariant

namespace Bytes

/- The low bytes of a number are its bytes of less width. -/
theorem take_littleEndian
    {size width : Nat}
    (hWidth : width ≤ size)
    (n : Nat) :
    (littleEndian size n).take width =
      littleEndian width n := by
  induction width generalizing size n with
  | zero => rfl
  | succ width ih =>
      cases size with
      | zero => exact absurd hWidth (Nat.not_succ_le_zero _)
      | succ size =>
          rw [littleEndian, List.take_succ_cons,
            ih (Nat.le_of_succ_le_succ hWidth)]
          rfl

end Bytes

namespace Framing

variable {body count : Nat}

/- Offsets are at most eight bytes wide. -/
theorem offsetWidth_le_eight
    (body count : Nat) :
    offsetWidth body count ≤ 8 := by
  unfold offsetWidth
  split_ifs <;> omega

/-
  An offset into the members is read back from its lowest
  bytes, by a machine as well.
-/
theorem readOffset_low_bytes
    (hCount : count ≠ 0)
    (hBody : body ≤ maxLength)
    {offset : Nat}
    (hOffset : offset ≤ body)
    (behind : List UInt8) :
    let width := offsetWidth body count
    let data :=
      (Bytes.littleEndian 8 offset).take width ++ behind
    readOffset data 0 width = .ok offset ∧
      Checked.readOffset maxLength data width =
        pure offset := by
  intro width data
  have hWidth : width ≤ 8 := offsetWidth_le_eight body count
  have hData :
      data = Bytes.littleEndian width offset ++ behind :=
    congrArg (· ++ behind)
      (Bytes.take_littleEndian hWidth offset)
  have hLow :
      data.take width = Bytes.littleEndian width offset := by
    rw [hData,
      List.take_left' (Bytes.length_littleEndian _ _)]
  have hInside : width ≤ data.length := by
    rw [hData, List.length_append, Bytes.length_littleEndian]
    omega
  have hNumber :
      Bytes.ofLittleEndian (data.take width) = offset := by
    rw [hLow]
    exact
      Bytes.ofLittleEndian_littleEndian_of_lt
        (Nat.lt_of_le_of_lt hOffset
          (lt_pow_offsetWidth hCount hBody))
  constructor
  · rw [readOffset, if_pos (by omega), List.drop_zero, hNumber]
  · rw [Checked.readOffset_eq (Nat.le_refl _) hWidth hInside,
      hNumber]

end Framing

end GVariant

------------------------------------------------------------
-- One Width For Both Sides
------------------------------------------------------------

namespace GVariant

namespace Framing

/-
  A width for the offsets of a container with `body` bytes
  of members and `count` offsets, on which both sides agree.
  It is found from the members and from the size of the
  whole, it is the least that holds this size, and offsets
  are read back from their lowest bytes, alone or from the
  table behind the members.
-/
structure SharedWidth (body count width : Nat) : Prop where
  computed :
    Checked.offsetWidth maxLength body count = pure width
  widthOf_eq : widthOf (body + count * width) = width
  isLeast :
    IsLeast
      {width ∈ ({1, 2, 4, 8} : Set Nat) |
        Holds body count width}
      width
  reads :
    ∀ (offset : Nat) (behind : List UInt8),
      offset ≤ body →
        let data :=
          (Bytes.littleEndian 8 offset).take width ++ behind
        readOffset data 0 width = .ok offset ∧
          Checked.readOffset maxLength data width =
            pure offset
  readsTable :
    ∀ (content : List UInt8) (before : List Nat)
      (offset : Nat) (after : List Nat),
      content.length = body →
        (before ++ offset :: after).length = count →
          offset ≤ body →
            let data :=
              withTable content (before ++ offset :: after)
            widthOf data.length = width ∧
              readOffset data (body + width * before.length)
                  width =
                .ok offset

/-
  The width that is chosen for any members and at least one
  offset is shared, if the whole can be as large as with
  offsets of eight bytes.
-/
theorem sharedWidth_offsetWidth
    {body count : Nat}
    (hCount : 1 ≤ count)
    (hFits : body + 8 * count < 2 ^ 64) :
    SharedWidth body count (offsetWidth body count) := by
  have hSome : count ≠ 0 := Nat.ne_of_gt hCount
  have hWord : body + 8 * count ≤ maxLength :=
    Nat.le_pred_of_lt hFits
  refine ⟨?_, ?_, isLeast_offsetWidth hSome hFits, ?_, ?_⟩
  · exact Checked.offsetWidth_eq (by omega)
  · rw [Nat.mul_comm count]
    exact widthOf_offsetWidth hSome
  · intro offset behind hOffset
    exact readOffset_low_bytes hSome (by omega) hOffset behind
  · rintro content before offset after rfl rfl hOffset
    have hLength :
        (withTable content
          (before ++ offset :: after)).length ≤ maxLength := by
      have hWidth :=
        offsetWidth_le_eight content.length
          (before ++ offset :: after).length
      have hTable :=
        Nat.mul_le_mul_right
          (before ++ offset :: after).length hWidth
      rw [length_withTable]
      omega
    exact
      ⟨widthOf_withTable content (by simp),
        readOffset_withTable after rfl hLength hOffset⟩

/-
  At each threshold, one more byte of members widens the
  offset, since the table counts as well.
-/
theorem sharedWidth_offsetWidth_thresholds :
    SharedWidth 254 1 1 ∧
      SharedWidth 255 1 2 ∧
      SharedWidth 65533 1 2 ∧
      SharedWidth 65534 1 4 ∧
      SharedWidth 4294967291 1 4 ∧
      SharedWidth 4294967292 1 8 := by
  exact
    ⟨sharedWidth_offsetWidth (by decide) (by decide),
      sharedWidth_offsetWidth (by decide) (by decide),
      sharedWidth_offsetWidth (by decide) (by decide),
      sharedWidth_offsetWidth (by decide) (by decide),
      sharedWidth_offsetWidth (by decide) (by decide),
      sharedWidth_offsetWidth (by decide) (by decide)⟩

end Framing

end GVariant
