/-
  Byte orders of serialised numbers.

  Key definitions include:
    * `ByteOrder`
    * `ByteOrder.opposite`
-/

------------------------------------------------------------
-- Byte Orders
------------------------------------------------------------

namespace GVariant

/- The order in which the bytes of a number are stored. -/
inductive ByteOrder
  | little
  | big
  deriving DecidableEq, Repr

namespace ByteOrder

/- Numbers are little endian unless said otherwise. -/
instance : Inhabited ByteOrder :=
  ⟨.little⟩

/- The opposite byte order. -/
def opposite : ByteOrder → ByteOrder
| .little => .big
| .big => .little

@[simp] theorem opposite_opposite
    (order : ByteOrder) :
    order.opposite.opposite = order := by
  cases order <;> rfl

end ByteOrder

end GVariant
