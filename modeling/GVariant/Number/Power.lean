/-
  Powers with integer exponents, as fractions.

  `base ^ exponent` is the quotient of `power base exponent`
  and `power base (-exponent)`, one of which is one. So a
  comparison of scaled numbers is a comparison of naturals.

  Key definitions include:
    * `power`
-/

------------------------------------------------------------
-- Powers
------------------------------------------------------------

namespace GVariant

/- A power of a natural, one if the exponent is negative. -/
def power (base : Nat) (exponent : Int) : Nat :=
  Nat.pow base exponent.toNat

end GVariant
