import GVariant.Variant.Basic
import GVariant.Binary.Framing

/-
  The serialised form of variants.

  Numbers are written in a byte order, texts with a final
  NUL. A box is its content, a NUL and the type string of
  the content. A maybe that is present is its content, with
  a NUL behind it unless the size is fixed.

  Key definitions include:
    * `Scalar.encode`
    * `Variant.encode`
-/

------------------------------------------------------------
-- Type Strings And Scalars
------------------------------------------------------------

namespace GVariant

/- The bytes of a type string, which is ASCII. -/
def Ty.encode (type : Ty) : List UInt8 :=
  type.chars.map fun c => UInt8.ofNat c.toNat

namespace Scalar

/- The serialised form of a scalar. -/
def encode (order : ByteOrder) : Scalar → List UInt8
| .boolean value => [if value then 1 else 0]
| .int kind word => Bytes.ofNat order kind.size word.toNat
| .double value => Bytes.ofNat order 8 value.bits.toNat
| .text _ value => Utf8.encode value ++ [0]

/- A scalar with the layout of its type. -/
def part (order : ByteOrder) (s : Scalar) : Framing.Part :=
  ⟨s.type.layout, s.encode order⟩

end Scalar

end GVariant

------------------------------------------------------------
-- Variants
------------------------------------------------------------

namespace GVariant

namespace Variant

mutual

/- The serialised form of a variant. -/
def encode (order : ByteOrder) : Variant → List UInt8
| .scalar value => value.encode order
| .boxed child =>
    child.encode order ++ 0 :: child.type.encode
| .nothing _ => []
| .just child =>
    if child.type.isFixedSize then
      child.encode order
    else
      child.encode order ++ [0]
| .bytes content => content
| .arrayOf element children =>
    Framing.encodeArray element.layout
      (encodeAll order children)
| .tuple children =>
    Framing.encodeTuple
      (.tuple (Ty.layoutAll (typeAll children)))
      (partAll order children)
| .entry key value =>
    Framing.encodeTuple
      (.tuple [key.type.layout, value.type.layout])
      [key.part order,
        ⟨value.type.layout, value.encode order⟩]

/- The serialised forms of several variants. -/
def encodeAll (order : ByteOrder) :
    List Variant → List (List UInt8)
| [] => []
| child :: children =>
    child.encode order :: encodeAll order children

/- Several variants with the layouts of their types. -/
def partAll (order : ByteOrder) :
    List Variant → List Framing.Part
| [] => []
| child :: children =>
    ⟨child.type.layout, child.encode order⟩ ::
      partAll order children

end

theorem encodeAll_eq_map
    (order : ByteOrder)
    (children : List Variant) :
    encodeAll order children =
      children.map (encode order) := by
  induction children with
  | nil => rfl
  | cons child children ih => simp [encodeAll, ih]

/- A variant with the layout of its type. -/
def part (order : ByteOrder) (v : Variant) : Framing.Part :=
  ⟨v.type.layout, v.encode order⟩

theorem partAll_eq_map
    (order : ByteOrder)
    (children : List Variant) :
    partAll order children =
      children.map (part order) := by
  induction children with
  | nil => rfl
  | cons child children ih => simp [partAll, part, ih]

/- The serialised form in little endian byte order. -/
def data (v : Variant) : List UInt8 :=
  v.encode .little

end Variant

end GVariant
