import GVariant.Variant.Basic
import GVariant.Ty.Pattern

/-
  Taking variants apart.

  The accessors answer only for variants of their own kind.
  Every container, byte arrays and boxes included, presents
  its members as children with an index.

  Key definitions include:
    * `Variant.bool?` and the other accessors
    * `Variant.members?`
    * `Variant.childCount`
    * `Variant.child?`
    * `ChildCursor`

  The list of the children agrees with their indices:
    * `Variant.length_children`
    * `Variant.child?_eq_getElem?`
    * `Variant.isSome_child?_iff`
-/

------------------------------------------------------------
-- Accessors
------------------------------------------------------------

namespace GVariant

namespace Variant

/- The boolean. -/
def bool? : Variant → Option Bool
| .scalar (.boolean value) => some value
| _ => none

/- The integer, if it is of the kind asked for. -/
def int?
    (v : Variant)
    (kind : IntKind) : Option Int :=
  match v with
  | .scalar (.int kind' word) =>
      if kind' = kind then some (kind'.value word) else none
  | _ => none

/- The double. -/
def double? : Variant → Option Double
| .scalar (.double value) => some value
| _ => none

/- The text of a string, object path or signature. -/
def text? : Variant → Option String
| .scalar (.text _ value) => some value
| _ => none

/- The content of a byte array. -/
def bytes? : Variant → Option (List UInt8)
| .bytes content => some content
| _ => none

/- The content of a box. -/
def boxed? : Variant → Option Variant
| .boxed child => some child
| _ => none

/-
  The content of a maybe; the inner option is empty when the
  maybe is.
-/
def maybe? : Variant → Option (Option Variant)
| .nothing _ => some none
| .just child => some (some child)
| _ => none

/-
  The members of a tuple, of a dictionary entry, or of an
  array other than a byte array.
-/
def members? : Variant → Option (List Variant)
| .arrayOf _ children => some children
| .tuple children => some children
| .entry key value => some [.scalar key, value]
| _ => none

/- The texts of a string array. -/
def strings? (v : Variant) : Option (List String) :=
  if v.type = .strings then
    v.members?.bind fun children => children.mapM text?
  else
    none

/- The key and the value of a dictionary entry. -/
def entry? : Variant → Option (Scalar × Variant)
| .entry key value => some (key, value)
| _ => none

/- Whether the type of a variant matches a pattern. -/
def isOfType (v : Variant) (pattern : String) : Bool :=
  v.type.isSubtypeOf pattern

end Variant

end GVariant

------------------------------------------------------------
-- Children
------------------------------------------------------------

namespace GVariant

namespace Variant

/- The number of children. -/
def childCount : Variant → Nat
| .scalar _ => 0
| .boxed _ => 1
| .nothing _ => 0
| .just _ => 1
| .bytes content => content.length
| .arrayOf _ children => children.length
| .tuple children => children.length
| .entry _ _ => 2

/- The child at an index. -/
def child? (v : Variant) (index : Nat) : Option Variant :=
  match v with
  | .scalar _ => none
  | .boxed child => [child][index]?
  | .nothing _ => none
  | .just child => [child][index]?
  | .bytes content => content[index]?.map byte
  | .arrayOf _ children => children[index]?
  | .tuple children => children[index]?
  | .entry key value => [.scalar key, value][index]?

/- All children in order. -/
def children : Variant → List Variant
| .scalar _ => []
| .boxed child => [child]
| .nothing _ => []
| .just child => [child]
| .bytes content => content.map byte
| .arrayOf _ children => children
| .tuple children => children
| .entry key value => [.scalar key, value]

theorem length_children
    (v : Variant) :
    v.children.length = v.childCount := by
  cases v <;> simp [children, childCount]

/- A child at an index is the one at its place in the list. -/
theorem child?_eq_getElem?
    (v : Variant)
    (index : Nat) :
    v.child? index = v.children[index]? := by
  cases v <;> simp [child?, children]

/- There is a child exactly below the number of children. -/
theorem isSome_child?_iff
    (v : Variant)
    (index : Nat) :
    (v.child? index).isSome ↔ index < v.childCount := by
  rw [child?_eq_getElem?, ← length_children]
  simp

/- What is wrong with an index beyond the last child. -/
def indexFault (v : Variant) (index : Nat) : String :=
  s!"Child index {index} out of range for variant of type {v.quotedType}"

end Variant

/- A walk over the children of a variant. -/
structure ChildCursor where
  parent : Variant
  index : Nat

namespace ChildCursor

/- The walk before its first step. -/
def start (parent : Variant) : ChildCursor :=
  ⟨parent, 0⟩

/- The next child, if there is one, and the walk after it. -/
def next (cursor : ChildCursor) :
    Option Variant × ChildCursor :=
  (cursor.parent.child? cursor.index,
    { cursor with index := cursor.index + 1 })

/- The number of children still to come. -/
def remaining (cursor : ChildCursor) : Nat :=
  cursor.parent.childCount - cursor.index

/- The least and the greatest number of them. -/
def sizeHint (cursor : ChildCursor) : Nat × Option Nat :=
  (cursor.remaining, some cursor.remaining)

end ChildCursor

end GVariant
