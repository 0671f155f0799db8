import GVariant.Ty.Basic

/-
  Alignment and size of serialised values, by type.

  Every type has an alignment of one, two, four or eight
  bytes. A type whose values all have the same size is
  fixed; members of a fixed tuple are placed at multiples of
  their alignment, and the whole is padded to a multiple of
  its own. The empty tuple takes one byte.

  Key definitions include:
    * `Layout`
    * `alignUp`
    * `Ty.layout`
    * `Ty.isFixedSize`

  Rounding up gives the least multiple from an offset on:
    * `le_alignUp`
    * `alignUp_mod`
    * `alignUp_of_mod`
-/

------------------------------------------------------------
-- Alignment
------------------------------------------------------------

namespace GVariant

/-
  The alignment of the values of a type, and their common
  size if they have one.
-/
structure Layout where
  alignment : Nat
  fixedSize : Option Nat
  deriving DecidableEq, Repr

/- The least multiple of `alignment` from `offset` on. -/
def alignUp (offset alignment : Nat) : Nat :=
  if offset % alignment = 0 then
    offset
  else
    offset + (alignment - offset % alignment)

/- Rounding up does not go below. -/
theorem le_alignUp
    (offset alignment : Nat) :
    offset ≤ alignUp offset alignment := by
  unfold alignUp
  split
  · exact Nat.le_refl offset
  · exact Nat.le_add_right offset _

/- Rounding up gives a multiple. -/
theorem alignUp_mod
    (offset : Nat)
    {alignment : Nat}
    (hPos : 0 < alignment) :
    alignUp offset alignment % alignment = 0 := by
  unfold alignUp
  split
  · assumption
  · have hLess := Nat.mod_lt offset hPos
    have hSplit := Nat.div_add_mod offset alignment
    have hSum :
        offset + (alignment - offset % alignment) =
          alignment * (offset / alignment + 1) := by
      rw [Nat.mul_add, Nat.mul_one]
      omega
    rw [hSum]
    exact Nat.mul_mod_right alignment _

/- Multiples stay as they are. -/
theorem alignUp_of_mod
    {offset alignment : Nat}
    (hMod : offset % alignment = 0) :
    alignUp offset alignment = offset := by
  simp [alignUp, hMod]

namespace Layout

/- A fixed size that is its own alignment. -/
def fixed (size : Nat) : Layout :=
  ⟨size, some size⟩

/- A size that depends on the value. -/
def varying (alignment : Nat) : Layout :=
  ⟨alignment, none⟩

/- Whether all values of the type have the same size. -/
def isFixed (layout : Layout) : Bool :=
  layout.fixedSize.isSome

/-
  The layout of a tuple up to a member, extended by the
  layout of that member.
-/
def extend (whole member : Layout) : Layout :=
  { alignment := max whole.alignment member.alignment
    fixedSize :=
      match whole.fixedSize, member.fixedSize with
      | some size, some memberSize =>
          some (alignUp size member.alignment + memberSize)
      | _, _ => none }

/-
  The layout of a complete tuple: a fixed size is rounded
  up to the alignment, and is one for the empty tuple.
-/
def close (whole : Layout) : Layout :=
  match whole.fixedSize with
  | some 0 => fixed 1
  | some size =>
      ⟨whole.alignment,
        some (alignUp size whole.alignment)⟩
  | none => varying whole.alignment

/- The layout of a tuple with the given members. -/
def tuple (members : List Layout) : Layout :=
  (members.foldl extend ⟨1, some 0⟩).close

end Layout

end GVariant

------------------------------------------------------------
-- Layout Of A Type
------------------------------------------------------------

namespace GVariant

/- Numbers are aligned to their size, texts not at all. -/
def BasicType.layout : BasicType → Layout
| .boolean => .fixed 1
| .int kind => .fixed kind.size
| .double => .fixed 8
| .text _ => .varying 1

namespace Ty

mutual

/- The layout of the values of a type. -/
def layout : Ty → Layout
| .basic type => type.layout
| .variant => .varying 8
| .maybe element => .varying element.layout.alignment
| .array element => .varying element.layout.alignment
| .tuple items => .tuple (layoutAll items)
| .dictEntry key value =>
    .tuple [key.layout, value.layout]

/- The layouts of several types. -/
def layoutAll : List Ty → List Layout
| [] => []
| item :: items => item.layout :: layoutAll items

end

theorem layoutAll_eq_map
    (items : List Ty) :
    layoutAll items = items.map layout := by
  induction items with
  | nil => rfl
  | cons item items ih => simp [layoutAll, ih]

/- Whether all values of the type have the same size. -/
def isFixedSize (type : Ty) : Bool :=
  type.layout.isFixed

end Ty

end GVariant
