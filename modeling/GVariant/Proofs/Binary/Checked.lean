import GVariant.Binary.Checked
import GVariant.Proofs.Binary.Sizes

/-
  Steps of the machine that do not trap.

  Where the words are wide enough, each step on words gives
  what the same step on natural numbers gives, and so do
  the layouts of types.

  Main declarations:
    * `Checked.readOffset_eq`
    * `Checked.alignUp_eq`
    * `Checked.layout_eq`
-/

------------------------------------------------------------
-- Steps That Do Not Trap
------------------------------------------------------------

namespace GVariant

namespace Checked

variable {α β : Type}
variable {most a b : Nat}
variable {data : List UInt8}

/- After a result the next step is taken. -/
theorem ofResult_ok_bind
    (a : α)
    (step : α → Checked β) :
    (ofResult (.ok a) >>= step) = step a :=
  rfl

theorem add_eq
    (hMost : a + b ≤ most) :
    add most a b = pure (a + b) :=
  if_pos hMost

theorem mul_eq
    (hMost : a * b ≤ most) :
    mul most a b = pure (a * b) :=
  if_pos hMost

theorem sub_eq
    (hLe : b ≤ a) :
    sub a b = pure (a - b) :=
  if_pos hLe

theorem div_eq
    (hPos : 0 < b) :
    div a b = pure (a / b) :=
  if_neg (Nat.ne_of_gt hPos)

theorem rem_eq
    (hPos : 0 < b) :
    rem a b = pure (a % b) :=
  if_neg (Nat.ne_of_gt hPos)

theorem sliceFrom_eq
    (hLe : a ≤ data.length) :
    sliceFrom data a = pure (data.drop a) :=
  if_pos hLe

theorem sliceTo_eq
    (hLe : b ≤ data.length) :
    sliceTo data b = pure (data.take b) :=
  if_pos hLe

theorem sliceBetween_eq
    (hLe : a ≤ b)
    (hInside : b ≤ data.length) :
    sliceBetween data a b =
      pure ((data.drop a).take (b - a)) :=
  if_pos ⟨hLe, hInside⟩

theorem chunks_eq
    (hPos : 0 < a) :
    chunks a data = pure (Framing.chunks a data) :=
  if_neg (Nat.ne_of_gt hPos)

/- Offsets are numbers of at most eight bytes. -/
theorem readOffset_eq
    (hMost : Framing.maxLength ≤ most)
    (hSize : a ≤ 8)
    (hInside : a ≤ data.length) :
    readOffset most data a =
      pure (Bytes.ofLittleEndian (data.take a)) := by
  have hLess := Bytes.ofLittleEndian_lt (data.take a)
  have hPower :
      Nat.pow 256 (data.take a).length ≤ Nat.pow 256 8 := by
    apply Nat.pow_le_pow_right (by decide)
    rw [List.length_take]
    omega
  have hWord : Nat.pow 256 8 = Framing.maxLength + 1 := by
    decide
  rw [readOffset, if_neg (by omega), if_pos hInside]
  exact if_pos (by omega)

/-
  Rounding up goes beyond the result before it is back. A
  multiple stays as it is.
-/
theorem alignUp_eq
    (hPos : 0 < b)
    (hMost : a % b ≠ 0 → a + b ≤ most) :
    alignUp most a b = pure (GVariant.alignUp a b) := by
  have hLess := Nat.mod_lt a hPos
  rw [alignUp, rem_eq hPos, pure_bind]
  by_cases hExcess : a % b = 0
  · rw [if_pos hExcess, alignUp_of_mod hExcess]
  · rw [if_neg hExcess, add_eq (hMost hExcess), pure_bind,
      sub_eq (by omega), GVariant.alignUp, if_neg hExcess]
    congr 1
    omega

end Checked

end GVariant

------------------------------------------------------------
-- Layouts That Fit The Words
------------------------------------------------------------

namespace GVariant

namespace Ty

/- A type string in a row is no longer than the row. -/
theorem length_chars_le_of_mem
    {items : List Ty}
    {item : Ty}
    (hMem : item ∈ items) :
    item.chars.length ≤ (charsAll items).length := by
  induction items with
  | nil => cases hMem
  | cons head items ih =>
      simp only [charsAll, List.length_append]
      rcases List.mem_cons.mp hMem with rfl | hMem
      · omega
      · have hLe := ih hMem
        omega

end Ty

namespace Checked

variable {most : Nat}

/- An alignment is at most eight. -/
theorem alignment_le
    (type : Ty) :
    type.layout.alignment ≤ 8 :=
  Nat.le_of_dvd (by decide)
    type.regular_layout.alignment_dvd_eight

/- A layout is extended if words can hold what is bounded. -/
theorem extend_eq
    {whole : Layout}
    {item : Ty}
    {length : Nat}
    (hWhole :
      ∀ size,
        whole.fixedSize = some size → size ≤ 8 * length)
    (hMost : 8 * (length + item.chars.length) + 7 ≤ most) :
    extend most whole item.layout =
      pure (whole.extend item.layout) := by
  have hItem := item.length_chars_pos
  have hAlignment := alignment_le item
  cases hSize : whole.fixedSize with
  | none => simp only [extend, Layout.extend, hSize]
  | some size =>
      have hBound := hWhole size hSize
      cases hMember : item.layout.fixedSize with
      | none =>
          simp only [extend, Layout.extend, hSize, hMember]
      | some memberSize =>
          have hMemberBound := Ty.fixedSize_le hMember
          have hAligned :
              GVariant.alignUp size item.layout.alignment ≤
                8 * length :=
            alignUp_le_of_dvd
              (Nat.dvd_mul_right_of_dvd
                item.regular_layout.alignment_dvd_eight
                length)
              hBound
          have hStart :
              alignUp most size item.layout.alignment =
                pure _ :=
            alignUp_eq item.regular_layout.alignment_pos
              fun _ => by omega
          have hStop :
              add most
                  (GVariant.alignUp size
                    item.layout.alignment)
                  memberSize =
                pure _ :=
            add_eq (by omega)
          simp only [extend, Layout.extend, hSize, hMember,
            hStart, hStop, pure_bind]

/- So is a row of them. -/
theorem layoutItems_eq
    {whole : Layout}
    {items : List Ty}
    {length : Nat}
    (hItems :
      ∀ item ∈ items,
        layout most item = pure item.layout)
    (hWhole :
      ∀ size,
        whole.fixedSize = some size → size ≤ 8 * length)
    (hMost :
      8 * (length + (Ty.charsAll items).length) + 7 ≤ most) :
    layoutItems most whole items =
      pure ((Ty.layoutAll items).foldl Layout.extend
        whole) := by
  induction items generalizing whole length with
  | nil => rfl
  | cons item items ih =>
      rcases List.forall_mem_cons.mp hItems with
        ⟨hItem, hOthers⟩
      simp only [Ty.charsAll, List.length_append] at hMost
      have hExtend :
          extend most whole item.layout =
            pure (whole.extend item.layout) :=
        extend_eq hWhole (by omega)
      have hExtended :
          ∀ size,
            (whole.extend item.layout).fixedSize =
                some size →
              size ≤ 8 * (length + item.chars.length) :=
        Layout.fixedSize_extend_le hWhole
          fun _ => Ty.fixedSize_le
      rw [layoutItems, hItem, pure_bind, hExtend, pure_bind,
        ih hOthers hExtended (by omega)]
      rfl

theorem layoutItems_start
    {items : List Ty}
    (hItems :
      ∀ item ∈ items,
        layout most item = pure item.layout)
    (hMost : 8 * (Ty.charsAll items).length + 7 ≤ most) :
    layoutItems most ⟨1, some 0⟩ items =
      pure ((Ty.layoutAll items).foldl Layout.extend
        ⟨1, some 0⟩) := by
  have hStart :
      ∀ size, some 0 = some size → size ≤ 8 * 0 := by
    simp
  exact layoutItems_eq hItems hStart (by omega)

/- An entry is laid out like the tuple of its two items. -/
theorem layout_dictEntry
    (key : BasicType)
    (value : Ty) :
    layout most (.dictEntry key value) =
      (do
        let whole ←
          layoutItems most ⟨1, some 0⟩ [.basic key, value]
        close most whole) := by
  simp only [layout, layoutItems, pure_bind, bind_assoc,
    bind_pure]

/- A complete layout is rounded up within the words. -/
theorem close_eq
    {whole : Layout}
    {length : Nat}
    (hAlignment : whole.alignment ∈ Layout.alignments)
    (hWhole :
      ∀ size,
        whole.fixedSize = some size → size ≤ 8 * length)
    (hMost : 8 * length + 7 ≤ most) :
    close most whole = pure whole.close := by
  rcases Layout.pos_and_dvd_of_mem_alignments hAlignment with
    ⟨hPos, hDvd⟩
  have hLe := Nat.le_of_dvd (by decide) hDvd
  cases hSize : whole.fixedSize with
  | none => simp only [close, Layout.close, hSize]
  | some size =>
      have hBound := hWhole size hSize
      -- The greatest size is a multiple of the alignment.
      have hExcess :
          size % whole.alignment ≠ 0 →
            size + whole.alignment ≤ most := by
        intro hRest
        have hLess : size ≠ 8 * length := by
          rintro rfl
          exact
            hRest
              (Nat.mod_eq_zero_of_dvd
                (Nat.dvd_mul_right_of_dvd hDvd length))
        omega
      have hRounded :
          alignUp most size whole.alignment = pure _ :=
        alignUp_eq hPos hExcess
      cases size with
      | zero => simp only [close, Layout.close, hSize]
      | succ size =>
          simp only [close, Layout.close, hSize, hRounded,
            pure_bind]

/- The layouts of items are closed within the words. -/
theorem close_items
    {items : List Ty}
    (hMost : 8 * (Ty.charsAll items).length + 7 ≤ most) :
    close most
        ((Ty.layoutAll items).foldl Layout.extend
          ⟨1, some 0⟩) =
      pure (Layout.tuple (Ty.layoutAll items)) := by
  have hAlignments :
      ∀ member ∈ Ty.layoutAll items,
        member.alignment ∈ Layout.alignments := by
    rw [Ty.layoutAll_eq_map, List.forall_mem_map]
    intro item _
    exact item.regular_layout.alignment_mem
  have hAlignment :=
    Layout.alignment_foldl_extend ⟨1, some 0⟩ (by decide)
      hAlignments
  have hBound :=
    Layout.fixedSize_foldl_extend_le ⟨1, some 0⟩ 0 (by simp)
      fun item (_ : item ∈ items) _ => Ty.fixedSize_le
  exact close_eq hAlignment.1 hBound (by omega)

/-
  The layout of a type is computed within words that can
  hold eight bytes for each character of the type string.
  The brackets of a tuple or an entry need no room.
-/
theorem layout_eq
    {type : Ty}
    (hMost : 8 * type.chars.length ≤ most + 9) :
    layout most type = pure type.layout := by
  induction type with
  | basic type => rfl
  | «variant» => rfl
  | maybe element ih =>
      simp only [Ty.chars, List.length_cons] at hMost
      rw [layout, ih (by omega), pure_bind]
      rfl
  | array element ih =>
      simp only [Ty.chars, List.length_cons] at hMost
      rw [layout, ih (by omega), pure_bind]
      rfl
  | tuple items ih =>
      simp only [Ty.chars, List.length_cons,
        List.length_append, List.length_nil] at hMost
      have hItems :
          ∀ item ∈ items,
            layout most item = pure item.layout := by
        intro item hMem
        have hLe := Ty.length_chars_le_of_mem hMem
        exact ih item hMem (by omega)
      rw [layout, layoutItems_start hItems (by omega),
        pure_bind]
      exact close_items (by omega)
  | dictEntry key value ih =>
      simp only [Ty.chars, List.length_cons,
        List.length_append, List.length_nil] at hMost
      have hChars :
          (Ty.charsAll [.basic key, value]).length =
            value.chars.length + 1 := by
        simp [Ty.charsAll, Ty.chars]
      have hItems :
          ∀ item ∈ [.basic key, value],
            layout most item = pure item.layout := by
        simp only [List.forall_mem_cons, List.not_mem_nil,
          false_implies, implies_true, and_true]
        exact ⟨rfl, ih (by omega)⟩
      have hWhole :=
        layoutItems_start hItems (by omega)
      rw [layout_dictEntry, hWhole, pure_bind]
      exact close_items (by omega)

end Checked

end GVariant
