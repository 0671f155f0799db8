import GVariant.ByteOrder

/-
  Natural numbers as rows of bytes.

  Key definitions include:
    * `Bytes.ofNat`
    * `Bytes.toNat`
    * `Bytes.splitLast?`

  The bytes of a number give it back:
    * `Bytes.length_littleEndian`
    * `Bytes.ofLittleEndian_littleEndian`
-/

------------------------------------------------------------
-- Little ByteOrder Numbers
------------------------------------------------------------

namespace GVariant

namespace Bytes

/- The lowest bytes of a number, least significant first. -/
def littleEndian : (size n : Nat) → List UInt8
| 0, _ => []
| size + 1, n => UInt8.ofNat n :: littleEndian size (n / 256)

/- The number of bytes, least significant first. -/
def ofLittleEndian : List UInt8 → Nat
| [] => 0
| byte :: bytes => byte.toNat + 256 * ofLittleEndian bytes

theorem length_littleEndian
    (size n : Nat) :
    (littleEndian size n).length = size := by
  induction size generalizing n with
  | zero => rfl
  | succ size ih => simp [littleEndian, ih]

theorem ofLittleEndian_littleEndian
    (size n : Nat) :
    ofLittleEndian (littleEndian size n) =
      n % Nat.pow 256 size := by
  induction size generalizing n with
  | zero => simp [littleEndian, ofLittleEndian, Nat.mod_one]
  | succ size ih =>
      simp only [littleEndian, ofLittleEndian, ih]
      change _ = n % (Nat.pow 256 size * 256)
      rw [Nat.mul_comm (Nat.pow 256 size) 256, Nat.mod_mul]
      simp

end Bytes

end GVariant

------------------------------------------------------------
-- Either Byte Order
------------------------------------------------------------

namespace GVariant

namespace Bytes

/- The lowest bytes of a number in a byte order. -/
def ofNat
    (order : ByteOrder)
    (size n : Nat) : List UInt8 :=
  match order with
  | .little => littleEndian size n
  | .big => (littleEndian size n).reverse

/- The number of bytes in a byte order. -/
def toNat
    (order : ByteOrder)
    (bytes : List UInt8) : Nat :=
  match order with
  | .little => ofLittleEndian bytes
  | .big => ofLittleEndian bytes.reverse

/- The bytes before the last one, and the last one. -/
def splitLast? (bytes : List UInt8) :
    Option (List UInt8 × UInt8) :=
  match bytes.getLast? with
  | none => none
  | some last => some (bytes.dropLast, last)

/-
  The bytes before and after the last zero byte, if there
  is one.
-/
def splitAtLastZero? (bytes : List UInt8) :
    Option (List UInt8 × List UInt8) :=
  let reversed := bytes.reverse
  let after := reversed.takeWhile (· != 0)
  match reversed.dropWhile (· != 0) with
  | [] => none
  | _ :: before => some (before.reverse, after.reverse)

end Bytes

end GVariant
