import GVariant.Proofs.Ty.Flat
import GVariant.Proofs.Variant.Reachable

/-
  The children of a variant, and the variant put together
  from them.

  Boxes, maybes, buffers of bytes and lists of members all
  show their children by an index and by a walk. The
  children have the types that the type string of the
  variant declares. A walk gives the children in order and
  then nothing, for as long as it is asked, and knows at
  each point how many are still to come.

  The constructor of the class of a variant, applied to the
  children and the declared element type, gives the variant
  again.

  Key definitions include:
    * `ChildCursor.pending`
    * `ChildCursor.after`
    * `ChildCursor.answers`
    * `Variant.IsChild`
    * `Variant.assemble?`

  Main declarations:
    * `ChildCursor.answers_eq`
    * `Variant.WellFormed.isChild`
    * `Variant.WellFormed.assemble?_children`
    * `Variant.children_of_wellFormed`
-/

------------------------------------------------------------
-- Walks
------------------------------------------------------------

namespace GVariant

namespace ChildCursor

/- The children that a walk has not come to. -/
def pending (cursor : ChildCursor) : List Variant :=
  cursor.parent.children.drop cursor.index

/- A walk after some steps. -/
def after : (steps : Nat) → ChildCursor → ChildCursor
| 0, cursor => cursor
| steps + 1, cursor => after steps cursor.next.2

/- What some steps of a walk give. -/
def answers :
    (steps : Nat) → ChildCursor → List (Option Variant)
| 0, _ => []
| steps + 1, cursor =>
    cursor.next.1 :: answers steps cursor.next.2

/- A step gives the first child still to come, if any. -/
theorem fst_next
    (cursor : ChildCursor) :
    cursor.next.1 = cursor.pending.head? := by
  rw [next, pending, List.head?_drop,
    Variant.child?_eq_getElem?]

/- A step takes this child off. -/
theorem pending_next
    (cursor : ChildCursor) :
    cursor.next.2.pending = cursor.pending.tail := by
  rw [pending, pending, List.tail_drop]
  rfl

theorem pending_after
    (steps : Nat)
    (cursor : ChildCursor) :
    (after steps cursor).pending =
      cursor.pending.drop steps := by
  induction steps generalizing cursor with
  | zero => rfl
  | succ steps ih =>
      rw [after, ih, pending_next, List.drop_tail]

/- The bounds are the number of children still to come. -/
theorem sizeHint_eq
    (cursor : ChildCursor) :
    cursor.sizeHint =
      (cursor.pending.length, some cursor.pending.length) := by
  rw [sizeHint, remaining, pending, List.length_drop,
    Variant.length_children]

/-
  A walk gives the children still to come, and nothing once
  there are none. The induction is on the steps.
-/
theorem answers_eq
    (steps : Nat)
    (cursor : ChildCursor) :
    cursor.answers steps =
      (cursor.pending.take steps).map some ++
        List.replicate (steps - cursor.pending.length)
          none := by
  induction steps generalizing cursor with
  | zero => simp [answers]
  | succ steps ih =>
      rw [answers, ih, fst_next, pending_next]
      cases cursor.pending with
      | nil => simp [List.replicate_succ]
      | cons child children => simp

end ChildCursor

end GVariant

------------------------------------------------------------
-- Children Of Their Types
------------------------------------------------------------

namespace GVariant

namespace Variant

/-
  A child at an index agrees with the type string of its
  parent: it has the element type that is read from it, or
  the member type at the same index.
-/
structure IsChild
    (v : Variant)
    (index : Nat)
    (child : Variant) : Prop where
  wellFormed : child.WellFormed
  element :
    v.cls = .array ∨ v.cls = .maybe →
      v.type.flat.element? = some child.type.flat
  item :
    v.cls = .tuple ∨ v.cls = .dictEntry →
      v.type.flat.items[index]? = some child.type.flat

variable {v : Variant}

namespace WellFormed

/- Every child of a well-formed variant agrees with it. -/
theorem isChild
    (hWell : v.WellFormed)
    {index : Nat}
    {child : Variant}
    (hChild : v.child? index = some child) :
    v.IsChild index child := by
  rw [child?_eq_getElem?] at hChild
  have hMem := List.mem_of_getElem? hChild
  refine ⟨hWell.of_mem_children hMem, ?_, ?_⟩
  · intro hClass
    rcases exists_element hClass with ⟨element, hElement⟩
    rw [FlatType.element?_flat, hElement,
      hWell.type_of_mem_children hElement hMem]
    rfl
  · intro hClass
    rw [FlatType.items_flat, ← map_type_children hClass,
      List.getElem?_map, List.getElem?_map, hChild]
    rfl

end WellFormed

end Variant

end GVariant

------------------------------------------------------------
-- Put Together From Children
------------------------------------------------------------

namespace GVariant

namespace Variant

/-
  The constructor of a class, applied to children and to an
  element type where it takes one. Boxes have one child,
  maybes at most one and entries two.
-/
def assemble? :
    TypeClass → (element : Option Ty) →
      (children : List Variant) →
      Option (Except Error Variant)
| .variant, _, [child] => some (.ok (.boxed child))
| .maybe, some element, [] => some (maybe element none)
| .maybe, some element, [child] =>
    some (maybe element (some child))
| .array, some element, children =>
    some (array element children)
| .tuple, _, children => some (.ok (.tuple children))
| .dictEntry, _, [key, value] => some (dictEntry key value)
| _, _, _ => none

/- Bytes are read back from the children of their buffer. -/
theorem filterMap_byte?_map_byte
    (content : List UInt8) :
    (content.map byte).filterMap byte? = content := by
  rw [List.filterMap_map]
  exact List.filterMap_some

/- A variant is made again of its children. -/
theorem WellFormed.assemble?_children
    {v : Variant}
    (hWell : v.WellFormed)
    (hContainer : v.cls.isContainer = true) :
    assemble? v.cls v.type.element? v.children =
      some (.ok v) := by
  cases v with
  | scalar value => cases hContainer
  | boxed child => rfl
  | nothing element => rfl
  | just child =>
      have hMaybe :
          maybe child.type (some child) = .ok (.just child) :=
        if_pos rfl
      exact congrArg some hMaybe
  | bytes content =>
      have hArray :
          array .byte (content.map byte) =
            .ok (.bytes content) := by
        refine array_eq_ok_iff.mpr ⟨?_, ?_⟩
        · intro child hMem
          rcases List.mem_map.mp hMem with ⟨_, _, rfl⟩
          rfl
        · rw [packed, if_pos rfl, filterMap_byte?_map_byte]
      exact congrArg some hArray
  | arrayOf element children =>
      have hArray :
          array element children =
            .ok (.arrayOf element children) := by
        refine array_eq_ok_iff.mpr ⟨hWell.2.1, ?_⟩
        rw [packed, if_neg hWell.1]
      exact congrArg some hArray
  | tuple children => rfl
  | entry key value => rfl

end Variant

end GVariant

------------------------------------------------------------
-- Children Of Well-Formed Variants
------------------------------------------------------------

namespace GVariant

namespace Variant

/- The children are those at the indices, in order. -/
theorem map_some_children
    (v : Variant) :
    v.children.map some =
      (List.range v.childCount).map v.child? := by
  apply List.ext_getElem
  · simp [length_children]
  · intro index hLess _
    have hIndex : index < v.children.length := by
      simpa using hLess
    simp [child?_eq_getElem?, hIndex]

/-
  The children of a well-formed variant are those below
  their number, well-formed and of the types that its type
  string declares. After any steps of a walk its bounds are
  the number of indices still to come, and further steps
  give the children at these, in order, and then nothing.
  From the children and the declared element type, the
  constructor of its class makes the variant again.
-/
theorem children_of_wellFormed
    {v : Variant}
    (hWell : v.WellFormed) :
    (∀ index,
        (v.child? index).isSome ↔ index < v.childCount) ∧
      (∀ index child,
        v.child? index = some child →
          v.IsChild index child) ∧
      (∀ steps,
        let cursor := (ChildCursor.start v).after steps
        let indices := (List.range v.childCount).drop steps
        cursor.sizeHint =
            (indices.length, some indices.length) ∧
          ∀ more,
            cursor.answers more =
              (indices.take more).map v.child? ++
                List.replicate (more - indices.length)
                  none) ∧
      v.children.map some =
          (List.range v.childCount).map v.child? ∧
        ∀ element : Option Ty,
          v.cls.isContainer = true →
            v.type.flat.element? = element.map Ty.flat →
              assemble? v.cls element v.children =
                some (.ok v) := by
  refine
    ⟨v.isSome_child?_iff, fun _ _ => hWell.isChild, ?_,
      v.map_some_children, ?_⟩
  · intro steps cursor indices
    have hPending : cursor.pending = v.children.drop steps :=
      ChildCursor.pending_after steps _
    have hMap :
        cursor.pending.map some = indices.map v.child? := by
      rw [hPending, List.map_drop, v.map_some_children,
        ← List.map_drop]
    have hLength : cursor.pending.length = indices.length := by
      have hLengths := congrArg List.length hMap
      simpa using hLengths
    constructor
    · rw [cursor.sizeHint_eq, hLength]
    · intro more
      rw [ChildCursor.answers_eq, hLength, List.map_take, hMap,
        ← List.map_take]
  · intro element hContainer hElement
    rw [FlatType.element?_flat] at hElement
    have hSame : v.type.element? = element :=
      Option.map_injective Ty.flat_injective hElement
    rw [← hSame]
    exact hWell.assemble?_children hContainer

/- A box with no number, bytes, and an array without strings. -/
def mixedMembers : Variant :=
  .tuple
    [.boxed (double (.nan true)), .bytes [0, 255],
      .arrayOf .string []]

theorem children_of_wellFormed_mixedMembers :
    mixedMembers.WellFormed ∧
      mixedMembers.IsChild 1 (.bytes [0, 255]) ∧
      (ChildCursor.start mixedMembers).answers 4 =
        [some (.boxed (double (.nan true))),
          some (.bytes [0, 255]),
          some (.arrayOf .string []), none] ∧
      ((ChildCursor.start mixedMembers).after 5).sizeHint =
        (0, some 0) ∧
      assemble? .tuple none mixedMembers.children =
        some (.ok mixedMembers) ∧
      assemble? .array (some .byte) [byte 0, byte 255] =
        some (.ok (.bytes [0, 255])) ∧
      assemble? .array (some .string) [] =
        some (.ok (.arrayOf .string [])) := by
  have hWell : mixedMembers.WellFormed := by
    simp [mixedMembers, WellFormed, WellFormedAll, double,
      Scalar.Valid]
  have hEmpty : (arrayOf .string []).WellFormed := by
    simp [WellFormed, WellFormedAll]
  have hBytes : (bytes [0, 255]).WellFormed := True.intro
  rcases children_of_wellFormed hWell with
    ⟨_, hChild, hWalk, _, hAgain⟩
  rcases children_of_wellFormed hBytes with
    ⟨_, _, _, _, hBytesAgain⟩
  rcases children_of_wellFormed hEmpty with
    ⟨_, _, _, _, hEmptyAgain⟩
  exact
    ⟨hWell, hChild 1 _ rfl, (hWalk 0).2 4, (hWalk 5).1,
      hAgain none rfl rfl, hBytesAgain (some .byte) rfl rfl,
      hEmptyAgain (some .string) rfl rfl⟩

end Variant

end GVariant
