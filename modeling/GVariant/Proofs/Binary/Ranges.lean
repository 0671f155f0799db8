import GVariant.Proofs.Binary.Soundness
import GVariant.Variant.Access

/-
  Where the decoder finds the members of a tuple.

  Every member is a range of the data. The ranges are in
  order, and what is between them is alignment padding, for
  any data that is decoded. Behind them is the table of
  framing offsets. A member of varying size that is the last
  one ends where the table starts. If the last member is
  fixed, it ends where its size says, and nothing compares
  that with the table: the member may reach into the table,
  or leave bytes before it that belong to nothing.

  Key definitions include:
    * `Framing.Range`
    * `Framing.memberRanges`
    * `Framing.Tiles`
    * `Framing.tableStart`
    * `Framing.Found`
    * `Framing.Framed`

  Main declarations:
    * `Framing.exists_ranges_of_decodeSlices`
    * `Framing.found_of_memberRanges`
    * `Framing.framed_iff`
    * `Variant.framed_iff_of_decodeLevels`
-/

------------------------------------------------------------
-- Ranges
------------------------------------------------------------

namespace GVariant

namespace Framing

/- The bytes from `start` up to but not at `stop`. -/
structure Range where
  start : Nat
  stop : Nat
  deriving DecidableEq, Repr

/- The bytes of a range. -/
def Range.slice (range : Range) (data : List UInt8) : Slice :=
  Framing.slice data range.start range.stop

/-
  The ranges of the members of a tuple from a position on,
  by the ends that the decoder computes or reads.
-/
def memberRanges
    (data : List UInt8)
    (width : Nat) :
    (used position : Nat) → List Layout →
      Except DataFault (List Range)
| _, _, [] => .ok []
| used, position, member :: members =>
    let start := alignUp position member.alignment
    match memberEnd data width used start member
        members.isEmpty with
    | .error fault => .error fault
    | .ok (stop, used') =>
        match slice data start stop with
        | .error fault => .error fault
        | .ok _ =>
            match memberRanges data width used' stop
                members with
            | .error fault => .error fault
            | .ok ranges => .ok (⟨start, stop⟩ :: ranges)

/- The ranges of all members of a tuple. -/
def tupleRanges
    (members : List Layout)
    (data : List UInt8) : Except DataFault (List Range) :=
  memberRanges data (widthOf data.length) 0 0 members

/-
  What is decoded member by member are the bytes of these
  ranges, one for every member.
-/
theorem exists_ranges_of_decodeSlices
    {decodeOne : Ty → List UInt8 → Except Error Variant}
    {data : List UInt8}
    {width used position : Nat}
    {types : List Ty}
    {children : List Variant}
    (hDecode :
      Variant.decodeSlices decodeOne types
          (memberSlices data width used position
            (Ty.layoutAll types)) =
        .ok children) :
    ∃ ranges,
      memberRanges data width used position
            (Ty.layoutAll types) =
          .ok ranges ∧
        Variant.decodeSlices decodeOne types
            (ranges.map fun range => range.slice data) =
          .ok children := by
  induction types generalizing used position children with
  | nil => exact ⟨[], rfl, hDecode⟩
  | cons type types ih =>
      simp only [Ty.layoutAll, memberSlices] at hDecode
      split at hDecode
      · simp only [Variant.decodeSlices] at hDecode
        cases hDecode
      · rename_i stop used' hEnd
        split at hDecode
        · simp only [Variant.decodeSlices] at hDecode
          cases hDecode
        · rename_i content hSlice
          rcases Variant.decodeSlices_cons_eq_ok_iff.mp
              hDecode with
            ⟨_, child, rest, hContent, hChild, hRest, rfl⟩
          cases hContent
          rcases ih hRest with ⟨ranges, hRanges, hOthers⟩
          have hFirst :
              Range.slice
                  ⟨alignUp position type.layout.alignment,
                    stop⟩ data =
                .ok content := hSlice
          simp only [Ty.layoutAll, memberRanges, hEnd, hSlice,
            hRanges]
          refine ⟨_, rfl, ?_⟩
          exact
            Variant.decodeSlices_cons_eq_ok_iff.mpr
              ⟨content, child, rest, hFirst, hChild, hOthers,
                rfl⟩

end Framing

end GVariant

------------------------------------------------------------
-- Ranges Without Gaps
------------------------------------------------------------

namespace GVariant

namespace Framing

/-
  Ranges for all members, one after another from a position
  on, with alignment padding between them.
-/
inductive Tiles :
    (position : Nat) → List Layout → List Range → Prop
  | nil (position : Nat) :
      Tiles position [] []
  | cons
      {position : Nat}
      {member : Layout}
      {members : List Layout}
      {range : Range}
      {ranges : List Range} :
      range.start = alignUp position member.alignment →
        range.start ≤ range.stop →
          Tiles range.stop members ranges →
            Tiles position (member :: members)
              (range :: ranges)

/- The end of the last range, or the position if none is. -/
def lastStop : (position : Nat) → List Range → Nat
| position, [] => position
| _, range :: ranges => lastStop range.stop ranges

/- Whether a byte is alignment padding before a member. -/
def IsPadding :
    (position : Nat) → List Layout → List Range →
      (index : Nat) → Prop
| position, member :: members, range :: ranges, index =>
    (position ≤ index ∧
        index < alignUp position member.alignment) ∨
      IsPadding range.stop members ranges index
| _, _, _, _ => False

namespace Tiles

variable {position index : Nat}
variable {members : List Layout}
variable {ranges : List Range}

theorem le_lastStop
    (hTiles : Tiles position members ranges) :
    position ≤ lastStop position ranges := by
  induction hTiles with
  | nil position => exact Nat.le_refl position
  | @cons position member _ range _ hStart hStop _ ih =>
      have hAlign := le_alignUp position member.alignment
      rw [lastStop]
      omega

/- No range starts before the position or ends too late. -/
theorem bounds
    (hTiles : Tiles position members ranges) :
    ∀ range ∈ ranges,
      position ≤ range.start ∧
        range.start ≤ range.stop ∧
          range.stop ≤ lastStop position ranges := by
  induction hTiles with
  | nil => simp
  | @cons position member _ _ _ hStart hStop hOthers ih =>
      have hAlign := le_alignUp position member.alignment
      have hLast := hOthers.le_lastStop
      intro other hMem
      rw [lastStop]
      rcases List.mem_cons.mp hMem with rfl | hMem
      · omega
      · have hOther := ih other hMem
        omega

/- What bounds the last end bounds the end of every range. -/
theorem stop_le_of_mem
    {limit : Nat}
    (hTiles : Tiles position members ranges)
    (hLimit : lastStop position ranges ≤ limit) :
    ∀ range ∈ ranges, range.stop ≤ limit := by
  intro range hMem
  have hRange := hTiles.bounds range hMem
  omega

/- Every range ends before the next ones start. -/
theorem pairwise
    (hTiles : Tiles position members ranges) :
    ranges.Pairwise fun range next =>
      range.stop ≤ next.start := by
  induction hTiles with
  | nil => exact List.Pairwise.nil
  | cons _ _ hOthers ih =>
      apply List.Pairwise.cons
      · intro next hMem
        exact (hOthers.bounds next hMem).1
      · exact ih

/- The last end is that of a range, if there is any. -/
theorem exists_stop_eq_lastStop
    (hTiles : Tiles position members ranges)
    (hMembers : members ≠ []) :
    ∃ range ∈ ranges,
      range.stop = lastStop position ranges := by
  induction hTiles with
  | nil => exact absurd rfl hMembers
  | @cons _ _ members range ranges _ _ hOthers ih =>
      by_cases hLast : members = []
      · subst hLast
        cases hOthers
        exact ⟨range, by simp, rfl⟩
      · rcases ih hLast with ⟨other, hMem, hStop⟩
        exact
          ⟨other, List.mem_cons_of_mem range hMem, hStop⟩

/- Up to the last end every byte is in a range or padding. -/
theorem covers
    (hTiles : Tiles position members ranges)
    (hPosition : position ≤ index)
    (hIndex : index < lastStop position ranges) :
    (∃ range ∈ ranges,
        range.start ≤ index ∧ index < range.stop) ∨
      IsPadding position members ranges index := by
  induction hTiles with
  | nil => exact absurd hIndex (Nat.not_lt.mpr hPosition)
  | @cons _ _ _ range _ hStart _ _ ih =>
      by_cases hBefore : index < range.start
      · right
        left
        exact ⟨hPosition, hStart ▸ hBefore⟩
      · by_cases hInside : index < range.stop
        · left
          exact
            ⟨range, by simp, Nat.not_lt.mp hBefore, hInside⟩
        · rw [lastStop] at hIndex
          rcases ih (Nat.not_lt.mp hInside) hIndex with
            ⟨other, hMem, hOther⟩ | hPadding
          · left
            exact
              ⟨other, List.mem_cons_of_mem range hMem,
                hOther⟩
          · right
            right
            exact hPadding

/- Padding is before the end of a range. -/
theorem lt_lastStop_of_isPadding
    (hTiles : Tiles position members ranges)
    (hPadding : IsPadding position members ranges index) :
    index < lastStop position ranges := by
  induction hTiles with
  | nil => cases hPadding
  | cons hStart hStop hOthers ih =>
      have hLast := hOthers.le_lastStop
      rw [lastStop]
      rcases hPadding with hFirst | hPadding
      · omega
      · exact ih hPadding

end Tiles

end Framing

end GVariant

------------------------------------------------------------
-- The Table
------------------------------------------------------------

namespace GVariant

namespace Framing

/-
  The number of offsets of a tuple: one for every member of
  varying size but the last member.
-/
def offsetCount : List Layout → Nat
| [] => 0
| member :: members =>
    if member.isFixed ∨ members.isEmpty then
      offsetCount members
    else
      offsetCount members + 1

/- Where the table of offsets of a tuple starts. -/
def tableStart
    (members : List Layout)
    (data : List UInt8) : Nat :=
  data.length - widthOf data.length * offsetCount members

/-
  What the end of a member says of the table: an offset was
  read for it exactly if one is recorded, within the data,
  and a last member of varying size ends at the table.
-/
theorem used_of_memberEnd
    {data : List UInt8}
    {width used position stop used' : Nat}
    {member : Layout}
    {isLast : Bool}
    (hEnd :
      memberEnd data width used position member isLast =
        .ok (stop, used')) :
    used' =
        (if member.isFixed ∨ isLast then used else used + 1) ∧
      (width * used ≤ data.length →
        width * used' ≤ data.length) ∧
      (member.isFixed = false →
        isLast = true → stop = data.length - width * used) := by
  unfold memberEnd at hEnd
  cases hSize : member.fixedSize with
  | some size =>
      have hFixed : member.isFixed = true := by
        rw [Layout.isFixed, hSize]
        rfl
      rw [hSize] at hEnd
      cases hEnd
      simp [hFixed]
  | none =>
      have hVarying : member.isFixed = false := by
        rw [Layout.isFixed, hSize]
        rfl
      rw [hSize] at hEnd
      cases isLast with
      | true =>
          simp only [if_true] at hEnd
          split at hEnd
          · cases hEnd
            simp [hVarying]
          · cases hEnd
      | false =>
          simp only [Bool.false_eq_true, if_false] at hEnd
          split at hEnd
          · rename_i hTable
            split at hEnd
            · cases hEnd
            · cases hEnd
              simp [hVarying, hTable]
          · cases hEnd

/-
  The ranges that were found from a position on, after a
  number of offsets.
-/
structure Found
    (data : List UInt8)
    (width used position : Nat)
    (members : List Layout)
    (ranges : List Range) : Prop where
  tiles : Tiles position members ranges
  lastStop_le :
    position ≤ data.length →
      lastStop position ranges ≤ data.length
  table_le :
    width * used ≤ data.length →
      width * (used + offsetCount members) ≤ data.length
  lastStop_eq :
    (∃ last ∈ members.getLast?, last.isFixed = false) →
      lastStop position ranges =
        data.length - width * (used + offsetCount members)

/-
  Whatever the data, the ranges that were found tile it, and
  the offsets that were read are those of the table. The
  induction is on the members, over what was used before.
-/
theorem found_of_memberRanges
    {data : List UInt8}
    {width used position : Nat}
    {members : List Layout}
    {ranges : List Range}
    (hRanges :
      memberRanges data width used position members =
        .ok ranges) :
    Found data width used position members ranges := by
  induction members generalizing used position ranges with
  | nil =>
      cases hRanges
      exact ⟨.nil position, id, id, by simp⟩
  | cons member members ih =>
      simp only [memberRanges] at hRanges
      split at hRanges
      · cases hRanges
      · rename_i stop used' hEnd
        split at hRanges
        · cases hRanges
        · rename_i content hSlice
          split at hRanges
          · cases hRanges
          · rename_i others hOthers
            cases hRanges
            have hFound := ih hOthers
            have hInside :
                alignUp position member.alignment ≤ stop ∧
                  stop ≤ data.length := by
              unfold slice at hSlice
              split at hSlice
              · assumption
              · cases hSlice
            rcases used_of_memberEnd hEnd with
              ⟨hUsed, hTable, hStop⟩
            have hCount :
                used' + offsetCount members =
                  used + offsetCount (member :: members) := by
              rw [hUsed, offsetCount]
              split
              · rfl
              · omega
            refine
              ⟨.cons rfl hInside.1 hFound.tiles, ?_, ?_, ?_⟩
            · intro _
              exact hFound.lastStop_le hInside.2
            · intro hBefore
              rw [← hCount]
              exact hFound.table_le (hTable hBefore)
            · rintro ⟨last, hLast, hVarying⟩
              rw [← hCount, lastStop]
              cases members with
              | nil =>
                  cases hLast
                  cases hFound.tiles
                  rw [lastStop, hStop hVarying rfl, hUsed]
                  simp [offsetCount]
              | cons next members =>
                  exact
                    hFound.lastStop_eq ⟨last, hLast, hVarying⟩

/- Without members of varying size there is no table. -/
theorem offsetCount_of_fixed
    {members : List Layout}
    (hFixed : ∀ member ∈ members, member.isFixed) :
    offsetCount members = 0 := by
  induction members with
  | nil => rfl
  | cons member members ih =>
      rcases List.forall_mem_cons.mp hFixed with
        ⟨hFirst, hOthers⟩
      rw [offsetCount, if_pos (.inl hFirst), ih hOthers]

/- A layout is extended to a fixed one only by fixed ones. -/
theorem isFixed_of_foldl_extend
    {whole : Layout}
    {members : List Layout}
    (hFold : (members.foldl Layout.extend whole).isFixed) :
    whole.isFixed ∧ ∀ member ∈ members, member.isFixed := by
  induction members generalizing whole with
  | nil => exact ⟨hFold, by simp⟩
  | cons member members ih =>
      rcases ih hFold with ⟨hExtended, hOthers⟩
      have hBoth : whole.isFixed ∧ member.isFixed := by
        cases hWhole : whole.fixedSize <;>
          cases hMember : member.fixedSize <;>
            simp_all [Layout.extend, Layout.isFixed]
      exact
        ⟨hBoth.1, List.forall_mem_cons.mpr ⟨hBoth.2, hOthers⟩⟩

/- In a tuple of a fixed size all members are fixed. -/
theorem isFixed_of_mem_tuple
    {members : List Layout}
    (hTuple : (Layout.tuple members).isFixed) :
    ∀ member ∈ members, member.isFixed := by
  unfold Layout.tuple Layout.close at hTuple
  have hFold :
      (members.foldl Layout.extend ⟨1, some 0⟩).isFixed := by
    rw [Layout.isFixed]
    split at hTuple
    · rename_i hSize
      rw [hSize]
      rfl
    · rename_i hSize
      rw [hSize]
      rfl
    · cases hTuple
  exact (isFixed_of_foldl_extend hFold).2

/- A tuple of a fixed size has no table. -/
theorem tableStart_of_fixed
    {members : List Layout}
    {data : List UInt8}
    (hTuple : (Layout.tuple members).isFixed) :
    tableStart members data = data.length := by
  have hCount : offsetCount members = 0 :=
    offsetCount_of_fixed (isFixed_of_mem_tuple hTuple)
  rw [tableStart, hCount, Nat.mul_zero, Nat.sub_zero]

end Framing

end GVariant

------------------------------------------------------------
-- Framed Data
------------------------------------------------------------

namespace GVariant

namespace Framing

/-
  No member reaches into the table, and every byte before
  it is in a member, or padding before a member, or padding
  at the end of a tuple of a fixed size.
-/
structure Framed
    (members : List Layout)
    (data : List UInt8)
    (ranges : List Range) : Prop where
  stop_le :
    ∀ range ∈ ranges, range.stop ≤ tableStart members data
  covered :
    ∀ index < tableStart members data,
      (∃ range ∈ ranges,
          range.start ≤ index ∧ index < range.stop) ∨
        IsPadding 0 members ranges index ∨
          ((Layout.tuple members).isFixed ∧
            ∀ range ∈ ranges, range.stop ≤ index)

/-
  Ranges that were found leave nothing out, and keep off the
  table, exactly if the last one ends at the table. A tuple
  of a fixed size has no table, and may end with padding.
-/
theorem framed_iff
    {data : List UInt8}
    {members : List Layout}
    {ranges : List Range}
    (hFound :
      Found data (widthOf data.length) 0 0 members ranges) :
    Framed members data ranges ↔
      (Layout.tuple members).isFixed ∨
        lastStop 0 ranges = tableStart members data := by
  have hTiles := hFound.tiles
  constructor
  · intro hFramed
    by_cases hFixed : (Layout.tuple members).isFixed
    · left
      exact hFixed
    · right
      have hMembers : members ≠ [] := by
        rintro rfl
        exact hFixed rfl
      rcases hTiles.exists_stop_eq_lastStop hMembers with
        ⟨last, hLast, hStop⟩
      have hLe := hFramed.stop_le last hLast
      -- A gap before the table would start at the last end.
      have hNoGap :
          ¬ lastStop 0 ranges < tableStart members data := by
        intro hGap
        rcases hFramed.covered _ hGap with
          ⟨range, hMem, hInside⟩ | hPadding | hEnd
        · have hRange := hTiles.bounds range hMem
          omega
        · exact
            Nat.lt_irrefl _
              (hTiles.lt_lastStop_of_isPadding hPadding)
        · exact hFixed hEnd.1
      omega
  · intro hEnd
    have hLast :
        lastStop 0 ranges ≤ tableStart members data := by
      rcases hEnd with hFixed | hTable
      · rw [tableStart_of_fixed hFixed]
        exact hFound.lastStop_le (Nat.zero_le _)
      · exact Nat.le_of_eq hTable
    constructor
    · exact hTiles.stop_le_of_mem hLast
    · intro index hIndex
      by_cases hInside : index < lastStop 0 ranges
      · rcases hTiles.covers (Nat.zero_le index) hInside with
          hRange | hPadding
        · left
          exact hRange
        · right
          left
          exact hPadding
      · rcases hEnd with hFixed | hTable
        · right
          right
          exact
            ⟨hFixed,
              hTiles.stop_le_of_mem (Nat.not_lt.mp hInside)⟩
        · exact absurd (hTable ▸ hIndex) hInside

end Framing

end GVariant

------------------------------------------------------------
-- Decoded Tuples
------------------------------------------------------------

namespace GVariant

namespace Ty

/- Tuples and entries are laid out by their items. -/
theorem layout_eq_tuple
    {type : Ty}
    (hClass : type.cls = .tuple ∨ type.cls = .dictEntry) :
    type.layout = .tuple (layoutAll type.items) := by
  cases type <;> simp_all [cls, layout, layoutAll, items]

end Ty

namespace Variant

/- A decoded tuple or entry holds its decoded members. -/
theorem decodeMembers_of_decodeLevels
    {order : ByteOrder}
    {limit levels : Nat}
    {type : Ty}
    {data : List UInt8}
    {v : Variant}
    (hClass : type.cls = .tuple ∨ type.cls = .dictEntry)
    (hDecode :
      decodeLevels order limit (levels + 1) type data =
        .ok v) :
    decodeMembers (decodeLevels order limit levels) type
        data =
      .ok v.children := by
  cases type with
  | tuple items =>
      rw [decodeLevels] at hDecode
      split at hDecode
      · cases hDecode
      · rename_i children hChildren
        cases hDecode
        exact hChildren
  | dictEntry key value =>
      rw [decodeLevels] at hDecode
      split at hDecode
      · cases hDecode
      · rename_i hChildren
        cases hDecode
        exact hChildren
      · cases hDecode
  | _ => simp [Ty.cls] at hClass

/-
  The members of a decoded tuple or entry are in order and
  within the data, and so is the table. They keep off the
  table and leave nothing out exactly if the size is fixed
  or the last member ends at the table, as it does if its
  own size is not fixed.
-/
theorem framed_iff_of_decodeLevels
    {order : ByteOrder}
    {limit levels : Nat}
    {type : Ty}
    {data : List UInt8}
    {v : Variant}
    (hClass : type.cls = .tuple ∨ type.cls = .dictEntry)
    (hDecode :
      decodeLevels order limit (levels + 1) type data =
        .ok v) :
    ∃ ranges,
      Framing.tupleRanges (Ty.layoutAll type.items) data =
          .ok ranges ∧
        decodeSlices (decodeLevels order limit levels)
            type.items
            (ranges.map fun range => range.slice data) =
          .ok v.children ∧
        (ranges.Pairwise fun range next =>
          range.stop ≤ next.start) ∧
        (∀ range ∈ ranges,
          range.start ≤ range.stop ∧
            range.stop ≤ data.length) ∧
        Framing.widthOf data.length *
              Framing.offsetCount (Ty.layoutAll type.items) ≤
            data.length ∧
        (Framing.Framed (Ty.layoutAll type.items) data
            ranges ↔
          type.isFixedSize ∨
            Framing.lastStop 0 ranges =
              Framing.tableStart (Ty.layoutAll type.items)
                data) ∧
        ((∃ last ∈ (Ty.layoutAll type.items).getLast?,
            last.isFixed = false) →
          Framing.Framed (Ty.layoutAll type.items) data
            ranges) := by
  have hMembers :=
    decodeSlices_of_decodeMembers
      (decodeMembers_of_decodeLevels hClass hDecode)
  rcases Framing.exists_ranges_of_decodeSlices hMembers with
    ⟨ranges, hRanges, hSlices⟩
  have hFound := Framing.found_of_memberRanges hRanges
  have hLast := hFound.lastStop_le (Nat.zero_le _)
  have hFramed := Framing.framed_iff hFound
  refine
    ⟨ranges, hRanges, hSlices, hFound.tiles.pairwise,
      ?_, ?_, ?_, ?_⟩
  · intro range hMem
    have hRange := hFound.tiles.bounds range hMem
    omega
  · have hTable := hFound.table_le (Nat.zero_le _)
    rwa [Nat.zero_add] at hTable
  · rw [Ty.isFixedSize, Ty.layout_eq_tuple hClass]
    exact hFramed
  · intro hVarying
    apply hFramed.mpr
    right
    have hStop := hFound.lastStop_eq hVarying
    rw [Nat.zero_add] at hStop
    exact hStop

/- Two texts around a pair that is aligned to four bytes. -/
def textsAroundPair : Variant :=
  .tuple
    [.scalar (.text .string "a"),
      .tuple [byte 5, .scalar (.int .uint32 7)],
      .scalar (.text .string "b")]

example :
    textsAroundPair.encode .little =
      [97, 0, 0, 0, 5, 0, 0, 0, 7, 0, 0, 0, 98, 0, 2] := by
  rfl

theorem framed_textsAroundPair :
    textsAroundPair.type.cls = .tuple ∧
      decodeLevels .little 3 3 textsAroundPair.type
            (textsAroundPair.encode .little) =
          .ok textsAroundPair ∧
        Framing.tupleRanges
              (Ty.layoutAll textsAroundPair.type.items)
              (textsAroundPair.encode .little) =
            .ok [⟨0, 2⟩, ⟨4, 12⟩, ⟨12, 14⟩] ∧
          Framing.Framed
            (Ty.layoutAll textsAroundPair.type.items)
            (textsAroundPair.encode .little)
            [⟨0, 2⟩, ⟨4, 12⟩, ⟨12, 14⟩] := by
  have hDecode :
      decodeLevels .little 3 3 textsAroundPair.type
          (textsAroundPair.encode .little) =
        .ok textsAroundPair := by
    rfl
  have hFound :
      Framing.tupleRanges
          (Ty.layoutAll textsAroundPair.type.items)
          (textsAroundPair.encode .little) =
        .ok [⟨0, 2⟩, ⟨4, 12⟩, ⟨12, 14⟩] := by
    rfl
  rcases framed_iff_of_decodeLevels (.inl rfl) hDecode with
    ⟨ranges, hRanges, _, _, _, _, _, hFramed⟩
  cases hFound.symm.trans hRanges
  exact ⟨rfl, hDecode, hFound, hFramed ⟨_, rfl, rfl⟩⟩

/-
  A string and a byte in two bytes: the byte that is decoded
  is the table, which says that the string takes one byte.
-/
theorem not_framed_byteInTable :
    decode (.tuple [.string, .byte]) [0, 1] .little =
        .ok (.tuple [.scalar (.text .string ""), byte 1]) ∧
      Framing.tupleRanges (Ty.layoutAll [.string, .byte])
            [0, 1] =
          .ok [⟨0, 1⟩, ⟨1, 2⟩] ∧
        Framing.tableStart (Ty.layoutAll [.string, .byte])
              [0, 1] =
            1 ∧
          ¬ Framing.Framed (Ty.layoutAll [.string, .byte])
            [0, 1] [⟨0, 1⟩, ⟨1, 2⟩] := by
  have hStart :
      Framing.tableStart (Ty.layoutAll [.string, .byte])
          [0, 1] =
        1 := by
    rfl
  refine ⟨by rfl, by rfl, hStart, ?_⟩
  intro hFramed
  have hStop := hFramed.stop_le ⟨1, 2⟩ (by simp)
  rw [hStart] at hStop
  exact absurd hStop (by decide)

/- With more bytes, two before the table are in no member. -/
example :
    decode (.tuple [.string, .byte]) [0, 7, 0xAA, 0xBB, 1]
          .little =
        .ok (.tuple [.scalar (.text .string ""), byte 7]) ∧
      Framing.tupleRanges (Ty.layoutAll [.string, .byte])
            [0, 7, 0xAA, 0xBB, 1] =
          .ok [⟨0, 1⟩, ⟨1, 2⟩] ∧
        Framing.tableStart (Ty.layoutAll [.string, .byte])
            [0, 7, 0xAA, 0xBB, 1] =
          4 :=
  ⟨by rfl, by rfl, by rfl⟩

end Variant

end GVariant
