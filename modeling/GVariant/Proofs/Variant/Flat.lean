import GVariant.Variant.Access
import GVariant.Variant.Flat
import GVariant.Proofs.Ty.Flat
import GVariant.Proofs.Variant.WellFormed

/-
  The flat form of a variant.

  A tree that computes its type is, in flat form, that type
  beside the content. Constructors and access to children
  do the same to flat forms as they do to trees.

  Key definitions include:
    * `Scalar.content`
    * `Variant.flat`

  Main declarations:
    * `Variant.type_flat`
    * `FlatVariant.array_flat`
    * `FlatVariant.dictEntry_flat`
    * `FlatVariant.child?_flat`
-/

------------------------------------------------------------
-- Flat Forms
------------------------------------------------------------

namespace GVariant

namespace Scalar

/- A scalar without its type. A text loses its kind. -/
def content : Scalar → Content FlatVariant
| .boolean value => .boolean value
| .int kind word => .int kind word
| .double value => .double value
| .text _ value => .text value

/- The flat form of a scalar. -/
def flat (s : Scalar) : FlatVariant :=
  .ofParts (Ty.basic s.type).flat s.content

end Scalar

namespace Variant

mutual

/- The flat form of a variant. -/
def flat : Variant → FlatVariant
| .scalar value => value.flat
| .boxed child => .ofParts Ty.variant.flat (.boxed child.flat)
| .nothing element =>
    .ofParts (Ty.maybe element).flat (.maybe none)
| .just child =>
    .ofParts (Ty.maybe child.type).flat
      (.maybe (some child.flat))
| .bytes content =>
    .ofParts Ty.byteString.flat (.bytes content)
| .arrayOf element children =>
    .ofParts (Ty.array element).flat
      (.container (flatAll children))
| .tuple children =>
    .ofParts (Ty.tuple (typeAll children)).flat
      (.container (flatAll children))
| .entry key value =>
    .ofParts (Ty.dictEntry key.type value.type).flat
      (.container [key.flat, value.flat])

/- The flat forms of several variants. -/
def flatAll : List Variant → List FlatVariant
| [] => []
| child :: children => child.flat :: flatAll children

end

theorem flatAll_eq_map
    (children : List Variant) :
    flatAll children = children.map flat := by
  induction children with
  | nil => rfl
  | cons child children ih => simp [flatAll, ih]

/- The type that is kept is the one that is computed. -/
@[simp]
theorem type_flat
    (v : Variant) :
    v.flat.type = v.type.flat := by
  cases v <;> rfl

/- Types of flat forms are compared like types of trees. -/
theorem type_flat_eq_iff
    {v : Variant}
    {type : Ty} :
    v.flat.type = type.flat ↔ v.type = type := by
  rw [type_flat]
  exact Ty.flat_injective.eq_iff

theorem map_type_map_flat
    (children : List Variant) :
    (children.map flat).map FlatVariant.type =
      (typeAll children).map Ty.flat := by
  rw [typeAll_eq_map, List.map_map, List.map_map]
  exact List.map_congr_left fun child _ => type_flat child

end Variant

end GVariant

------------------------------------------------------------
-- Constructors
------------------------------------------------------------

namespace GVariant

/- The only type of the class of bytes is that of bytes. -/
theorem Ty.cls_flat_eq_byte_iff
    (type : Ty) :
    type.flat.cls = .basic (.int .byte) ↔ type = .byte := by
  cases type with
  | basic type => simp [Ty.flat, Ty.cls]
  | _ => simp [Ty.flat, Ty.cls]

namespace FlatVariant

open Variant (flat type_flat)

theorem quotedType_flat
    (v : Variant) :
    v.flat.quotedType = v.quotedType := by
  rw [quotedType, type_flat]
  rfl

theorem text_flat
    (kind : TextKind)
    (value : String) :
    text kind value = (Variant.text kind value).map flat := by
  cases kind with
  | string =>
      rw [text, Variant.text, string, Variant.string]
      split <;> rfl
  | objectPath =>
      rw [text, Variant.text, objectPath, Variant.objectPath]
      split <;> rfl
  | signature =>
      rw [text, Variant.text, signature, Variant.signature]
      split <;> rfl

theorem just_flat
    (child : Variant) :
    just child.flat = (Variant.just child).flat := by
  rw [just, type_flat]
  rfl

theorem maybe_flat
    (element : Ty)
    (child : Option Variant) :
    maybe element.flat (child.map flat) =
      (Variant.maybe element child).map flat := by
  cases child with
  | none => rfl
  | some child =>
      rw [Option.map_some, maybe, Variant.maybe]
      by_cases hType : child.type = element
      · subst hType
        rw [if_pos (type_flat child), if_pos rfl]
        rfl
      · have hOther : child.flat.type ≠ element.flat :=
          fun hSame =>
            hType (Variant.type_flat_eq_iff.mp hSame)
        rw [if_neg hOther, if_neg hType, quotedType_flat]
        rfl

theorem byte?_flat
    (v : Variant) :
    v.flat.byte? = v.byte? := by
  cases v with
  | scalar value =>
      cases value with
      | int kind word => cases kind <;> rfl
      | _ => rfl
  | _ => rfl

theorem array_flat
    (element : Ty)
    (children : List Variant) :
    array element.flat (children.map flat) =
      (Variant.array element children).map flat := by
  have hOther :
      (fun child : FlatVariant =>
            child.type != element.flat) ∘ flat =
        fun child => child.type != element := by
    funext child
    rw [Function.comp_apply, Bool.eq_iff_iff, bne_iff_ne,
      bne_iff_ne, ne_eq, ne_eq, Variant.type_flat_eq_iff]
  have hBytes : byte? ∘ flat = Variant.byte? :=
    funext byte?_flat
  rw [array, Variant.array, List.find?_map, hOther]
  cases children.find? fun child => child.type != element with
  | some child =>
      simp only [Option.map_some, quotedType_flat]
      rfl
  | none =>
      rw [Option.map_none]
      by_cases hByte : element = .byte
      · rw [if_pos ((Ty.cls_flat_eq_byte_iff element).mpr hByte),
          if_pos hByte, List.filterMap_map, hBytes, hByte]
        rfl
      · rw [if_neg fun hClass =>
            hByte ((Ty.cls_flat_eq_byte_iff element).mp hClass),
          if_neg hByte, ← Variant.flatAll_eq_map]
        rfl

theorem strings_flat
    (values : List String) :
    strings values = (Variant.strings values).map flat := by
  have hEach :
      values.mapM string =
        (values.mapM Variant.string).map (List.map flat) :=
    mapM_map fun value _ => text_flat .string value
  rw [strings, Variant.strings, hEach]
  cases values.mapM Variant.string with
  | error e => rfl
  | ok children =>
      simp only [Except.map, Variant.flat,
        Variant.flatAll_eq_map]

theorem tuple_flat
    (children : List Variant) :
    tuple (children.map flat) =
      (Variant.tuple children).flat := by
  rw [tuple, Variant.map_type_map_flat,
    FlatType.tuple_map_flat, ← Variant.flatAll_eq_map]
  rfl

theorem dictEntry_flat
    (key value : Variant) :
    dictEntry key.flat value.flat =
      (Variant.dictEntry key value).map flat := by
  rw [dictEntry, type_flat, type_flat, FlatType.entry_flat]
  cases key <;> rfl

end FlatVariant

end GVariant

------------------------------------------------------------
-- Children
------------------------------------------------------------

namespace GVariant

namespace FlatVariant

open Variant (flat)

/- Children of the flat form are flat forms of children. -/
theorem child?_flat
    (v : Variant)
    (index : Nat) :
    v.flat.child? index = (v.child? index).map flat := by
  cases v with
  | scalar value => cases value <;> rfl
  | boxed child =>
      exact List.getElem?_map (f := flat) (l := [child])
  | nothing element => rfl
  | just child =>
      exact List.getElem?_map (f := flat) (l := [child])
  | bytes content =>
      simp only [child?, Variant.flat, Variant.child?,
        Option.map_map]
      rfl
  | arrayOf element children =>
      simp only [child?, Variant.flat, Variant.child?,
        Variant.flatAll_eq_map, List.getElem?_map]
  | tuple children =>
      simp only [child?, Variant.flat, Variant.child?,
        Variant.flatAll_eq_map, List.getElem?_map]
  | entry key value =>
      exact
        List.getElem?_map (f := flat)
          (l := [.scalar key, value])

end FlatVariant

end GVariant
