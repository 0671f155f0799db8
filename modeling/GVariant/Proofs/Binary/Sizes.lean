import GVariant.Proofs.Binary.Ranges

/-
  The sizes that types give their values.

  An alignment is one, two, four or eight, so of two
  alignments the lesser divides the greater. The alignment
  of a tuple is therefore a multiple of that of each member,
  and a fixed size is a multiple of the alignment. A type is
  fixed exactly if its type string has no mark of a type of
  varying size, and its size is bounded by the length of the
  type string.

  Key definitions include:
    * `Layout.alignments`
    * `Layout.Regular`
    * `Ty.varyingMarks`

  Main declarations:
    * `alignUp_le_of_dvd`
    * `Layout.regular_tuple`
    * `Layout.alignment_dvd_tuple`
    * `Ty.regular_layout`
    * `Ty.isFixedSize_iff_chars`
    * `Ty.fixedSize_le`
    * `Ty.layout_sizes`
-/

------------------------------------------------------------
-- Alignments
------------------------------------------------------------

namespace GVariant

/- No lesser multiple is behind an offset. -/
theorem alignUp_le_of_dvd
    {offset alignment bound : Nat}
    (hBound : alignment ∣ bound)
    (hOffset : offset ≤ bound) :
    alignUp offset alignment ≤ bound := by
  unfold alignUp
  split
  · exact hOffset
  · rename_i hRest
    rcases hBound with ⟨count, rfl⟩
    have hPos : 0 < alignment := by
      rcases Nat.eq_zero_or_pos alignment with rfl | hPos
      · simp only [Nat.zero_mul, Nat.le_zero] at hOffset
        exact absurd (by simp [hOffset]) hRest
      · exact hPos
    have hSplit := Nat.div_add_mod offset alignment
    have hLess := Nat.mod_lt offset hPos
    -- The offset is no multiple, so it is below the bound.
    have hQuotient : offset / alignment < count := by
      rw [Nat.div_lt_iff_lt_mul hPos, Nat.mul_comm]
      refine Nat.lt_of_le_of_ne hOffset ?_
      rintro rfl
      exact hRest (Nat.mul_mod_right alignment count)
    have hNext :
        alignment * (offset / alignment + 1) ≤
          alignment * count :=
      Nat.mul_le_mul_left alignment hQuotient
    rw [Nat.mul_succ] at hNext
    omega

/- Rounding up adds at most the alignment. -/
theorem alignUp_lt_add
    (offset : Nat)
    {alignment : Nat}
    (hPos : 0 < alignment) :
    alignUp offset alignment < offset + alignment := by
  unfold alignUp
  split <;> omega

namespace Layout

/- The alignments that there are. -/
def alignments : List Nat :=
  [1, 2, 4, 8]

/- Of two alignments the lesser divides the greater. -/
theorem dvd_of_le
    {a b : Nat}
    (hA : a ∈ alignments)
    (hB : b ∈ alignments)
    (hLe : a ≤ b) :
    a ∣ b := by
  simp only [alignments, List.mem_cons, List.not_mem_nil,
    or_false] at hA hB
  rcases hA with rfl | rfl | rfl | rfl <;>
    rcases hB with rfl | rfl | rfl | rfl <;>
      first
      | decide
      | exact absurd hLe (by decide)

/- The greater of two alignments is a multiple of both. -/
theorem max_mem_alignments
    {a b : Nat}
    (hA : a ∈ alignments)
    (hB : b ∈ alignments) :
    max a b ∈ alignments ∧ a ∣ max a b ∧ b ∣ max a b := by
  rcases Nat.le_total a b with hLe | hLe
  · rw [Nat.max_eq_right hLe]
    exact ⟨hB, dvd_of_le hA hB hLe, Nat.dvd_refl b⟩
  · rw [Nat.max_eq_left hLe]
    exact ⟨hA, Nat.dvd_refl a, dvd_of_le hB hA hLe⟩

/- An alignment is positive and divides eight. -/
theorem pos_and_dvd_of_mem_alignments
    {a : Nat}
    (hA : a ∈ alignments) :
    0 < a ∧ a ∣ 8 := by
  have hLe : 0 < a ∧ a ≤ 8 := by
    simp only [alignments, List.mem_cons, List.not_mem_nil,
      or_false] at hA
    omega
  exact ⟨hLe.1, dvd_of_le hA (by decide) hLe.2⟩

end Layout

end GVariant

------------------------------------------------------------
-- Regular Layouts
------------------------------------------------------------

namespace GVariant

namespace Layout

/-
  The alignment is one of those that there are, and a fixed
  size is a positive multiple of it.
-/
structure Regular (layout : Layout) : Prop where
  alignment_mem : layout.alignment ∈ alignments
  size_pos :
    ∀ size, layout.fixedSize = some size → 0 < size
  alignment_dvd :
    ∀ size,
      layout.fixedSize = some size → layout.alignment ∣ size

theorem Regular.alignment_pos
    {layout : Layout}
    (hRegular : layout.Regular) :
    0 < layout.alignment :=
  (pos_and_dvd_of_mem_alignments hRegular.alignment_mem).1

theorem Regular.alignment_dvd_eight
    {layout : Layout}
    (hRegular : layout.Regular) :
    layout.alignment ∣ 8 :=
  (pos_and_dvd_of_mem_alignments hRegular.alignment_mem).2

/- A fixed size that is an alignment is regular. -/
theorem regular_fixed
    {size : Nat}
    (hSize : size ∈ alignments) :
    (fixed size).Regular where
  alignment_mem := hSize
  size_pos := by
    intro other hOther
    cases hOther
    exact (pos_and_dvd_of_mem_alignments hSize).1
  alignment_dvd := by
    intro other hOther
    cases hOther
    exact Nat.dvd_refl size

/- A varying size leaves only the alignment to be checked. -/
theorem regular_varying
    {alignment : Nat}
    (hAlignment : alignment ∈ alignments) :
    (varying alignment).Regular where
  alignment_mem := hAlignment
  size_pos := by
    intro size hSize
    cases hSize
  alignment_dvd := by
    intro size hSize
    cases hSize

/-
  The alignment of members taken together is a multiple of
  the alignment of each of them.
-/
theorem alignment_foldl_extend
    (whole : Layout)
    {members : List Layout}
    (hWhole : whole.alignment ∈ alignments)
    (hMembers :
      ∀ member ∈ members, member.alignment ∈ alignments) :
    (members.foldl extend whole).alignment ∈ alignments ∧
      whole.alignment ∣
          (members.foldl extend whole).alignment ∧
        ∀ member ∈ members,
          member.alignment ∣
            (members.foldl extend whole).alignment := by
  induction members generalizing whole with
  | nil => exact ⟨hWhole, Nat.dvd_refl _, by simp⟩
  | cons member members ih =>
      rcases List.forall_mem_cons.mp hMembers with
        ⟨hMember, hOthers⟩
      rcases max_mem_alignments hWhole hMember with
        ⟨hMax, hWholeMax, hMemberMax⟩
      rcases ih (whole.extend member) hMax hOthers with
        ⟨hMem, hExtended, hAll⟩
      refine ⟨hMem, Nat.dvd_trans hWholeMax hExtended, ?_⟩
      exact
        List.forall_mem_cons.mpr
          ⟨Nat.dvd_trans hMemberMax hExtended, hAll⟩

/- Members that take space leave no size of zero behind. -/
theorem fixedSize_foldl_extend_ne_zero
    {whole : Layout}
    {members : List Layout}
    (hMembers :
      ∀ member ∈ members, member.fixedSize ≠ some 0)
    (hSome : whole.fixedSize ≠ some 0 ∨ members ≠ []) :
    (members.foldl extend whole).fixedSize ≠ some 0 := by
  induction members generalizing whole with
  | nil => exact hSome.resolve_right (by simp)
  | cons member members ih =>
      rcases List.forall_mem_cons.mp hMembers with
        ⟨hMember, hOthers⟩
      refine ih hOthers (.inl ?_)
      intro hZero
      simp only [extend] at hZero
      split at hZero
      · rename_i hSize
        rw [hSize] at hMember
        simp only [Option.some.injEq,
          Nat.add_eq_zero_iff] at hZero
        exact hMember (congrArg some hZero.2)
      · cases hZero

/- The layout of a tuple of regular members is regular. -/
theorem regular_tuple
    {members : List Layout}
    (hMembers : ∀ member ∈ members, member.Regular) :
    (tuple members).Regular := by
  have hAlignment :=
    alignment_foldl_extend ⟨1, some 0⟩ (by decide)
      fun member hMem => (hMembers member hMem).alignment_mem
  have hPos :=
    (pos_and_dvd_of_mem_alignments hAlignment.1).1
  unfold tuple close
  split
  · exact regular_fixed (by decide)
  · rename_i size hSize _
    refine ⟨hAlignment.1, ?_, ?_⟩
    · intro rounded hRounded
      cases hRounded
      exact
        Nat.lt_of_lt_of_le (Nat.pos_of_ne_zero hSize)
          (le_alignUp size _)
    · intro rounded hRounded
      cases hRounded
      exact Nat.dvd_of_mod_eq_zero (alignUp_mod size hPos)
  · exact regular_varying hAlignment.1

/- A tuple is aligned like every regular member of it. -/
theorem alignment_dvd_tuple
    {members : List Layout}
    (hMembers : ∀ member ∈ members, member.Regular)
    {member : Layout}
    (hMem : member ∈ members) :
    member.alignment ∣ (tuple members).alignment := by
  have hAlignment :=
    alignment_foldl_extend ⟨1, some 0⟩ (by decide)
      fun member hMem => (hMembers member hMem).alignment_mem
  have hNonzero :
      (members.foldl extend ⟨1, some 0⟩).fixedSize ≠
        some 0 := by
    apply fixedSize_foldl_extend_ne_zero
    · intro other hOther hZero
      exact
        Nat.lt_irrefl 0
          ((hMembers other hOther).size_pos 0 hZero)
    · exact .inr (List.ne_nil_of_mem hMem)
  unfold tuple close
  split
  · rename_i hZero
    exact absurd hZero hNonzero
  · exact hAlignment.2.2 member hMem
  · exact hAlignment.2.2 member hMem

end Layout

/- The layout of every basic type is regular. -/
theorem BasicType.regular_layout
    (type : BasicType) :
    type.layout.Regular := by
  cases type with
  | boolean => exact Layout.regular_fixed (by decide)
  | int kind =>
      cases kind <;> exact Layout.regular_fixed (by decide)
  | double => exact Layout.regular_fixed (by decide)
  | text kind => exact Layout.regular_varying (by decide)

namespace Ty

/- The layout of every type is regular. -/
theorem regular_layout
    (type : Ty) :
    type.layout.Regular := by
  induction type with
  | basic type => exact type.regular_layout
  | «variant» => exact Layout.regular_varying (by decide)
  | maybe element ih =>
      exact Layout.regular_varying ih.alignment_mem
  | array element ih =>
      exact Layout.regular_varying ih.alignment_mem
  | tuple items ih =>
      rw [layout, layoutAll_eq_map]
      exact Layout.regular_tuple (List.forall_mem_map.mpr ih)
  | dictEntry key value ih =>
      exact
        Layout.regular_tuple
          (by simp [key.regular_layout, ih])

end Ty

end GVariant

------------------------------------------------------------
-- Types Of Fixed Size
------------------------------------------------------------

namespace GVariant

namespace Layout

/- Fixed layouts taken together are fixed. -/
theorem isFixed_foldl_extend
    (whole : Layout)
    {members : List Layout}
    (hWhole : whole.isFixed)
    (hMembers : ∀ member ∈ members, member.isFixed) :
    (members.foldl extend whole).isFixed := by
  induction members generalizing whole with
  | nil => exact hWhole
  | cons member members ih =>
      rcases List.forall_mem_cons.mp hMembers with
        ⟨hMember, hOthers⟩
      rcases Option.isSome_iff_exists.mp hWhole with
        ⟨start, hStart⟩
      rcases Option.isSome_iff_exists.mp hMember with
        ⟨size, hSize⟩
      refine ih (whole.extend member) ?_ hOthers
      simp [isFixed, extend, hStart, hSize]

/- A tuple is fixed exactly if all of its members are. -/
theorem isFixed_tuple_iff
    (members : List Layout) :
    (tuple members).isFixed ↔
      ∀ member ∈ members, member.isFixed := by
  constructor
  · exact Framing.isFixed_of_mem_tuple
  · intro hMembers
    have hFold :=
      isFixed_foldl_extend ⟨1, some 0⟩ rfl hMembers
    unfold tuple close
    split
    · rfl
    · rfl
    · rename_i hNone
      rw [isFixed, hNone] at hFold
      cases hFold

end Layout

namespace Ty

/-
  The characters that stand for types of varying size: the
  texts, the box, the array and the maybe.
-/
def varyingMarks : List Char :=
  ['s', 'o', 'g', 'v', 'a', 'm']

/- A character of a row of type strings is in one of them. -/
theorem mem_charsAll_iff
    {items : List Ty}
    {c : Char} :
    c ∈ charsAll items ↔ ∃ item ∈ items, c ∈ item.chars := by
  induction items with
  | nil => simp [charsAll]
  | cons item items ih => simp [charsAll, ih]

/- A basic type is fixed unless it is a text. -/
theorem isFixed_basic_iff
    (type : BasicType) :
    type.layout.isFixed ↔ type.char ∉ varyingMarks := by
  cases type with
  | boolean => decide
  | int kind => cases kind <;> decide
  | double => decide
  | text kind => cases kind <;> decide

/-
  A type is fixed exactly if its type string has no mark of
  a varying size. The induction is on the type: what holds
  other values is fixed if they are, but for arrays and
  maybes, which have marks of their own.
-/
theorem isFixedSize_iff_chars
    (type : Ty) :
    type.isFixedSize ↔
      ∀ c ∈ type.chars, c ∉ varyingMarks := by
  induction type with
  | basic type =>
      simp only [isFixedSize, layout, isFixed_basic_iff, chars,
        List.mem_singleton, forall_eq]
  | «variant» =>
      constructor
      · intro hFixed
        cases hFixed
      · intro hChars
        exact absurd (by decide) (hChars 'v' (by simp [chars]))
  | maybe element _ =>
      constructor
      · intro hFixed
        cases hFixed
      · intro hChars
        exact absurd (by decide) (hChars 'm' (by simp [chars]))
  | array element _ =>
      constructor
      · intro hFixed
        cases hFixed
      · intro hChars
        exact absurd (by decide) (hChars 'a' (by simp [chars]))
  | tuple items ih =>
      have hOpen : '(' ∉ varyingMarks := by
        decide
      have hClose : ')' ∉ varyingMarks := by
        decide
      rw [isFixedSize, layout, Layout.isFixed_tuple_iff,
        layoutAll_eq_map, List.forall_mem_map]
      simp only [chars, List.mem_cons, List.mem_append,
        List.not_mem_nil, or_false, mem_charsAll_iff]
      constructor
      · rintro hItems c (rfl | ⟨item, hMem, hChar⟩ | rfl)
        · exact hOpen
        · exact (ih item hMem).mp (hItems item hMem) c hChar
        · exact hClose
      · intro hChars item hMem
        refine (ih item hMem).mpr fun c hChar => ?_
        exact hChars c (.inr (.inl ⟨item, hMem, hChar⟩))
  | dictEntry key value ih =>
      have hOpen : '{' ∉ varyingMarks := by
        decide
      have hClose : '}' ∉ varyingMarks := by
        decide
      rw [isFixedSize] at ih
      rw [isFixedSize, layout, Layout.isFixed_tuple_iff]
      simp only [List.forall_mem_cons, List.not_mem_nil,
        false_implies, implies_true, and_true, ih,
        isFixed_basic_iff, chars, List.forall_mem_append,
        hOpen, hClose, not_false_eq_true, true_and]

end Ty

end GVariant

------------------------------------------------------------
-- Sizes And Type Strings
------------------------------------------------------------

namespace GVariant

namespace Layout

/-
  A member behind others keeps to eight bytes for each
  character if they and it do. What they take together is
  bounded by a multiple of eight, and so of any alignment.
-/
theorem fixedSize_extend_le
    {whole : Layout}
    {item : Ty}
    {length : Nat}
    (hWhole :
      ∀ size,
        whole.fixedSize = some size → size ≤ 8 * length)
    (hItem :
      ∀ size,
        item.layout.fixedSize = some size →
          size ≤ 8 * item.chars.length) :
    ∀ size,
      (whole.extend item.layout).fixedSize = some size →
        size ≤ 8 * (length + item.chars.length) := by
  intro size hExtended
  simp only [extend] at hExtended
  split at hExtended
  · rename_i before taken hBefore hTaken
    cases hExtended
    have hAligned :
        alignUp before item.layout.alignment ≤ 8 * length :=
      alignUp_le_of_dvd
        (Nat.dvd_mul_right_of_dvd
          item.regular_layout.alignment_dvd_eight length)
        (hWhole before hBefore)
    have hSize := hItem taken hTaken
    omega
  · cases hExtended

/- So do all the members of a row. -/
theorem fixedSize_foldl_extend_le
    (whole : Layout)
    {items : List Ty}
    (length : Nat)
    (hWhole :
      ∀ size,
        whole.fixedSize = some size → size ≤ 8 * length)
    (hItems :
      ∀ item ∈ items,
        ∀ size,
          item.layout.fixedSize = some size →
            size ≤ 8 * item.chars.length) :
    ∀ size,
      ((Ty.layoutAll items).foldl extend whole).fixedSize =
          some size →
        size ≤ 8 * (length + (Ty.charsAll items).length) := by
  induction items generalizing whole length with
  | nil => simpa [Ty.charsAll, Ty.layoutAll] using hWhole
  | cons item items ih =>
      rcases List.forall_mem_cons.mp hItems with
        ⟨hItem, hOthers⟩
      have hRest :=
        ih (whole.extend item.layout)
          (length + item.chars.length)
          (fixedSize_extend_le hWhole hItem) hOthers
      simp only [Ty.charsAll, List.length_append,
        ← Nat.add_assoc]
      exact hRest

/- A complete tuple is at most rounded up to eight bytes. -/
theorem fixedSize_tuple_le
    {items : List Ty}
    {size : Nat}
    (hItems :
      ∀ item ∈ items,
        ∀ size,
          item.layout.fixedSize = some size →
            size ≤ 8 * item.chars.length)
    (hSize :
      (tuple (Ty.layoutAll items)).fixedSize = some size) :
    size ≤ 8 * ((Ty.charsAll items).length + 1) := by
  have hFold :=
    fixedSize_foldl_extend_le ⟨1, some 0⟩ 0 (by simp) hItems
  have hAlignments :
      ∀ member ∈ Ty.layoutAll items,
        member.alignment ∈ alignments := by
    rw [Ty.layoutAll_eq_map, List.forall_mem_map]
    intro item _
    exact item.regular_layout.alignment_mem
  have hAlignment :=
    alignment_foldl_extend ⟨1, some 0⟩ (by decide) hAlignments
  have hEight :=
    (pos_and_dvd_of_mem_alignments hAlignment.1).2
  unfold tuple close at hSize
  split at hSize
  · cases hSize
    omega
  · rename_i inner _ hInner
    cases hSize
    have hBound := hFold inner hInner
    exact
      alignUp_le_of_dvd (Nat.dvd_mul_right_of_dvd hEight _)
        (by omega)
  · cases hSize

end Layout

namespace Ty

/-
  A fixed size is at most eight bytes for each character of
  the type string.
-/
theorem fixedSize_le
    {type : Ty}
    {size : Nat}
    (hSize : type.layout.fixedSize = some size) :
    size ≤ 8 * type.chars.length := by
  have hBasic :
      ∀ (type : BasicType) (size : Nat),
        type.layout.fixedSize = some size → size ≤ 8 := by
    intro type size hSize
    cases type with
    | boolean =>
        cases hSize
        decide
    | int kind =>
        cases hSize
        cases kind <;> decide
    | double =>
        cases hSize
        decide
    | text kind => cases hSize
  induction type generalizing size with
  | basic type => exact hBasic type size hSize
  | «variant» => cases hSize
  | maybe element _ => cases hSize
  | array element _ => cases hSize
  | tuple items ih =>
      have hLe :=
        Layout.fixedSize_tuple_le
          (fun item hMem _ => ih item hMem) hSize
      simp only [chars, List.length_cons, List.length_append,
        List.length_nil]
      omega
  | dictEntry key value ih =>
      have hItems :
          ∀ item ∈ [.basic key, value],
            ∀ size,
              item.layout.fixedSize = some size →
                size ≤ 8 * item.chars.length := by
        simp only [List.forall_mem_cons, List.not_mem_nil,
          false_implies, implies_true, and_true]
        exact ⟨hBasic key, fun _ => ih⟩
      have hLe := Layout.fixedSize_tuple_le hItems hSize
      simp only [charsAll, chars, List.length_append,
        List.length_cons, List.length_nil] at hLe ⊢
      omega

end Ty

end GVariant

------------------------------------------------------------
-- Sizes Of Values
------------------------------------------------------------

namespace GVariant

namespace Ty

/-
  Every type has an alignment of one, two, four or eight. It
  has a fixed size exactly if its type string has none of
  the marks of a varying size. The size is then positive and
  a multiple of the alignment, and every variant of the type
  is serialised to that many bytes in either byte order.
-/
theorem layout_sizes
    (type : Ty) :
    type.layout.alignment ∈ [1, 2, 4, 8] ∧
      ((∃ size, type.layout.fixedSize = some size) ↔
        ∀ c ∈ type.signature.toList,
          c ∉ ['s', 'o', 'g', 'v', 'a', 'm']) ∧
      ∀ size,
        type.layout.fixedSize = some size →
          1 ≤ size ∧
            type.layout.alignment ∣ size ∧
            ∀ (v : Variant) (order : ByteOrder),
              v.WellFormed →
                v.type = type →
                  (v.encode order).length = size := by
  have hRegular := type.regular_layout
  have hFixed :
      (∃ size, type.layout.fixedSize = some size) ↔
        type.isFixedSize :=
    Option.isSome_iff_exists.symm
  refine ⟨hRegular.alignment_mem, ?_, ?_⟩
  · rw [hFixed, isFixedSize_iff_chars, signature,
      String.toList_ofList]
    rfl
  · intro size hSize
    refine
      ⟨hRegular.size_pos size hSize,
        hRegular.alignment_dvd size hSize, ?_⟩
    rintro v order - rfl
    exact Variant.length_encode_of_fixed hSize

/-
  A byte before a tuple that is aligned to eight bytes, and
  the empty tuple at the end.
-/
def paddedTuple : Ty :=
  .tuple [.byte, .tuple [.double, .boolean], .unit]

theorem layout_sizes_paddedTuple :
    paddedTuple.signature = "(y(db)())" ∧
      paddedTuple.layout = ⟨8, some 32⟩ ∧
        ((Variant.tuple
            [.byte 1,
              .tuple [.double ⟨0⟩, .boolean true],
              .tuple []]).encode .big).length =
          32 := by
  refine ⟨by decide, by decide, ?_⟩
  refine
    ((layout_sizes paddedTuple).2.2 32 (by decide)).2.2
      _ _ ?_ rfl
  simp [Variant.WellFormed, Variant.WellFormedAll,
    Variant.byte, Variant.double, Variant.boolean,
    Scalar.Valid]

end Ty

end GVariant
