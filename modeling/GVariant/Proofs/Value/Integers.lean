import Mathlib.Algebra.Order.Field.Power
import Mathlib.Algebra.Order.Field.Rat
import Mathlib.Data.Rat.Cast.Order
import Mathlib.Tactic.FieldSimp
import Mathlib.Tactic.Linarith
import Mathlib.Tactic.NormNum
import Mathlib.Tactic.Ring
import GVariant.Proofs.Value.Scalar

/-
  Exactness of the integers taken from host values.

  The number of a finite double is the rational that its
  sign, biased exponent and fraction denote. An integer is
  taken from a value exactly if the number of the value is
  that integer and the kind can hold it.

  A double is cast through one of two integer types, chosen
  by comparisons with the extreme integers of these types as
  doubles. The greatest of them round up to `2 ^ 63` and
  `2 ^ 64`, which no integer of the type reaches, so the
  strict comparisons lose nothing.

  Key definitions include:
    * `Double.rational`
    * `Value.number?`
    * `Value.IsNumber`

  Main declarations:
    * `Double.rational_eq_div`
    * `Double.less_iff`
    * `Double.isWhole_iff`
    * `Double.truncate_of_rational`
    * `Value.toInteger_of_number`
    * `Value.toInteger_of_no_integer`
    * `Value.toInteger_exact`
-/

------------------------------------------------------------
-- The Number Of A Double
------------------------------------------------------------

namespace GVariant

namespace Double

/-
  The number that the bits of a finite double denote. With
  an exponent field of zero there is no leading bit in front
  of the fraction.
-/
def rational (x : Double) : ℚ :=
  let fraction : ℚ := x.fraction / fractionCount
  let magnitude : ℚ :=
    if x.exponentField = 0 then
      fraction * 2 ^ (-1022 : ℤ)
    else
      (1 + fraction) * 2 ^ ((x.exponentField : ℤ) - 1023)
  if x.isNegative then -magnitude else magnitude

/- A power of two has a numerator and a denominator. -/
theorem zpow_eq_power_div
    (exponent : ℤ) :
    (2 : ℚ) ^ exponent =
      power 2 exponent / power 2 (-exponent) := by
  cases exponent with
  | ofNat n => simp [power]
  | negSucc n => simp [power, Int.neg_negSucc]

theorem denominator_pos
    (x : Double) :
    0 < x.denominator :=
  Nat.pow_pos (by decide)

/- The significand counts units of the exponent. -/
theorem significand_mul_zpow
    (x : Double) :
    (x.significand : ℚ) * 2 ^ x.exponent =
      if x.exponentField = 0 then
        (x.fraction / fractionCount : ℚ) * 2 ^ (-1022 : ℤ)
      else
        (1 + x.fraction / fractionCount : ℚ) *
          2 ^ ((x.exponentField : ℤ) - 1023) := by
  have hCount : (fractionCount : ℚ) = 2 ^ (52 : ℤ) := by
    norm_num [fractionCount]
  have hNonzero : (2 : ℚ) ≠ 0 := by
    norm_num
  unfold significand exponent
  by_cases hField : x.exponentField = 0
  · have hSplit :
        (2 : ℚ) ^ (-1022 : ℤ) =
          2 ^ (-1074 : ℤ) * 2 ^ (52 : ℤ) := by
      rw [← zpow_add₀ hNonzero]
      norm_num
    simp only [hField, if_true]
    rw [hSplit, hCount]
    field_simp
  · have hSplit :
        (2 : ℚ) ^ ((x.exponentField : ℤ) - 1023) =
          2 ^ ((x.exponentField : ℤ) - 1075) *
            2 ^ (52 : ℤ) := by
      rw [← zpow_add₀ hNonzero]
      congr 1
      ring
    simp only [hField, if_false]
    rw [hSplit]
    push_cast
    rw [hCount]
    field_simp
    norm_num

/- The number of a double is the quotient it stands for. -/
theorem rational_eq_div
    (x : Double) :
    x.rational = x.numerator / x.denominator := by
  have hMagnitude := significand_mul_zpow x
  rw [zpow_eq_power_div] at hMagnitude
  unfold rational numerator denominator
  simp only [← hMagnitude]
  cases x.isNegative with
  | true =>
      simp only [if_true]
      push_cast
      ring
  | false =>
      simp only [Bool.false_eq_true, if_false]
      push_cast
      ring

theorem isNaN_of_isFinite
    {x : Double}
    (hFinite : x.isFinite = true) :
    x.isNaN = false := by
  simp_all [isFinite, isNaN]

end Double

end GVariant

------------------------------------------------------------
-- Order And Integer Parts
------------------------------------------------------------

namespace GVariant

namespace Double

/- Finite doubles compare as their numbers do. -/
theorem less_iff
    {x y : Double}
    (hX : x.isFinite = true)
    (hY : y.isFinite = true) :
    x.less y = true ↔ x.rational < y.rational := by
  have hPosX : (0 : ℚ) < x.denominator := by
    exact_mod_cast x.denominator_pos
  have hPosY : (0 : ℚ) < y.denominator := by
    exact_mod_cast y.denominator_pos
  rw [rational_eq_div, rational_eq_div,
    div_lt_div_iff₀ hPosX hPosY]
  simp only [less, isNaN_of_isFinite hX,
    isNaN_of_isFinite hY, Bool.not_false, Bool.true_and,
    decide_eq_true_eq]
  norm_cast

theorem lessEq_iff
    {x y : Double}
    (hX : x.isFinite = true)
    (hY : y.isFinite = true) :
    x.lessEq y = true ↔ x.rational ≤ y.rational := by
  have hPosX : (0 : ℚ) < x.denominator := by
    exact_mod_cast x.denominator_pos
  have hPosY : (0 : ℚ) < y.denominator := by
    exact_mod_cast y.denominator_pos
  rw [rational_eq_div, rational_eq_div,
    div_le_div_iff₀ hPosX hPosY]
  simp only [lessEq, isNaN_of_isFinite hX,
    isNaN_of_isFinite hY, Bool.not_false, Bool.true_and,
    decide_eq_true_eq]
  norm_cast

/- The number of a double is an integer if it divides. -/
theorem rational_eq_intCast_iff
    {x : Double}
    {n : ℤ} :
    x.rational = n ↔
      x.numerator = n * x.denominator := by
  have hNonzero : (x.denominator : ℚ) ≠ 0 := by
    exact_mod_cast x.denominator_pos.ne'
  rw [rational_eq_div, div_eq_iff hNonzero]
  norm_cast

/- Without a significand the number is zero. -/
theorem rational_of_significand
    {x : Double}
    (hZero : x.significand = 0) :
    x.rational = (0 : ℤ) := by
  rw [rational_eq_intCast_iff]
  unfold numerator
  rw [hZero, Nat.zero_mul, Int.zero_mul]
  cases x.isNegative with
  | true => rfl
  | false => rfl

theorem isWhole_iff
    {x : Double} :
    x.isWhole = true ↔
      x.isFinite = true ∧ ∃ n : ℤ, x.rational = n := by
  simp only [isWhole, Bool.and_eq_true, beq_iff_eq,
    rational_eq_intCast_iff]
  refine and_congr_right fun _ => ?_
  rw [← Int.dvd_iff_emod_eq_zero]
  constructor
  · rintro ⟨n, hQuotient⟩
    exact ⟨n, by rw [hQuotient, Int.mul_comm]⟩
  · rintro ⟨n, hQuotient⟩
    exact ⟨n, by rw [hQuotient, Int.mul_comm]⟩

/- The integer part of a double that is an integer. -/
theorem truncate_of_rational
    {x : Double}
    {n : ℤ}
    (hRational : x.rational = n) :
    x.truncate = n := by
  have hNonzero : (x.denominator : ℤ) ≠ 0 := by
    exact_mod_cast x.denominator_pos.ne'
  rw [truncate, rational_eq_intCast_iff.mp hRational]
  exact Int.mul_tdiv_cancel n hNonzero

/- A cast keeps an integer that the kind can hold. -/
theorem cast_of_rational
    {x : Double}
    {n : ℤ}
    {kind : IntKind}
    (hFinite : x.isFinite = true)
    (hRational : x.rational = n)
    (hRange : kind.InRange n) :
    x.cast kind = n := by
  rcases hRange with ⟨hLow, hHigh⟩
  rw [cast, isNaN_of_isFinite hFinite,
    truncate_of_rational hRational]
  simp only [Bool.false_eq_true, if_false]
  omega

end Double

end GVariant

------------------------------------------------------------
-- The Bounds Of The Casts
------------------------------------------------------------

namespace GVariant

namespace Double

/- The least integer with a sign is a double. -/
theorem ofInt_minValue_int64 :
    (ofInt (IntKind.minValue .int64)).isFinite = true ∧
      (ofInt (IntKind.minValue .int64)).rational =
        (-0x8000000000000000 : ℤ) := by
  rw [rational_eq_intCast_iff]
  decide

/- The greatest integer with a sign is rounded up. -/
theorem ofInt_maxValue_int64 :
    (ofInt (IntKind.maxValue .int64)).isFinite = true ∧
      (ofInt (IntKind.maxValue .int64)).rational =
        (0x8000000000000000 : ℤ) := by
  rw [rational_eq_intCast_iff]
  decide

/- So is the greatest integer without one. -/
theorem ofInt_maxValue_uint64 :
    (ofInt (IntKind.maxValue .uint64)).isFinite = true ∧
      (ofInt (IntKind.maxValue .uint64)).rational =
        (0x10000000000000000 : ℤ) := by
  rw [rational_eq_intCast_iff]
  decide +kernel

theorem zero_false :
    (zero false).isFinite = true ∧
      (zero false).rational = (0 : ℤ) := by
  have hSignificand : (zero false).significand = 0 := by
    decide
  exact ⟨by decide, rational_of_significand hSignificand⟩

end Double

namespace IntKind

theorem inRange_int64_iff
    {n : ℤ} :
    IntKind.InRange .int64 n ↔
      -0x8000000000000000 ≤ n ∧ n < 0x8000000000000000 := by
  have hMin :
      IntKind.minValue .int64 = -0x8000000000000000 := by
    decide
  have hMax :
      IntKind.maxValue .int64 = 0x7FFFFFFFFFFFFFFF := by
    decide
  unfold InRange
  omega

theorem inRange_uint64_iff
    {n : ℤ} :
    IntKind.InRange .uint64 n ↔
      0 ≤ n ∧ n < 0x10000000000000000 := by
  have hMin : IntKind.minValue .uint64 = 0 := by
    decide
  have hMax :
      IntKind.maxValue .uint64 = 0xFFFFFFFFFFFFFFFF := by
    decide +kernel
  unfold InRange
  omega

/- Each kind lies in one of the widest two. -/
theorem inRange_widest
    {kind : IntKind}
    {n : ℤ}
    (hRange : kind.InRange n) :
    IntKind.InRange .int64 n ∨ IntKind.InRange .uint64 n := by
  by_cases hKind : kind = .uint64
  · subst hKind
    exact .inr hRange
  · exact .inl (inRange_int64_of_ne hKind hRange)

end IntKind

end GVariant

------------------------------------------------------------
-- The Number Of A Host Value
------------------------------------------------------------

namespace GVariant

namespace Value

/- The number that a host value denotes exactly. -/
def number? : Value → Option ℚ
| .int n => some (n.toInt : ℚ)
| .uint n => some (n.toNat : ℚ)
| .double x => if x.isFinite then some x.rational else none
| _ => none

/- Integers and doubles, infinities and NaNs included. -/
def IsNumber : Value → Prop
| .int _ | .uint _ | .double _ => True
| _ => False

/-
  A double that is an integer is taken like the integer. The
  bounds of the casts are those of the two widest kinds, so
  an integer outside of both is out of the range of every
  kind.
-/
theorem toInteger_double_of_rational
    {x : Double}
    {n : ℤ}
    (kind : IntKind)
    (hFinite : x.isFinite = true)
    (hRational : x.rational = n) :
    (Value.double x).toInteger kind =
      (Value.double x).takeInteger kind n := by
  have hWhole : x.isWhole = true :=
    Double.isWhole_iff.mpr ⟨hFinite, n, hRational⟩
  rcases Double.ofInt_minValue_int64 with
    ⟨hMinFinite, hMin⟩
  rcases Double.ofInt_maxValue_int64 with
    ⟨hMaxFinite, hMax⟩
  rcases Double.ofInt_maxValue_uint64 with
    ⟨hUMaxFinite, hUMax⟩
  rcases Double.zero_false with ⟨hZeroFinite, hZero⟩
  have hSigned :
      (Double.ofInt (IntKind.minValue .int64)).lessEq x ∧
          x.less (Double.ofInt (IntKind.maxValue .int64)) ↔
        IntKind.InRange .int64 n := by
    rw [Double.lessEq_iff hMinFinite hFinite,
      Double.less_iff hFinite hMaxFinite, hMin, hMax,
      hRational, IntKind.inRange_int64_iff]
    norm_cast
  have hUnsigned :
      (Double.zero false).lessEq x ∧
          x.less (Double.ofInt (IntKind.maxValue .uint64)) ↔
        IntKind.InRange .uint64 n := by
    rw [Double.lessEq_iff hZeroFinite hFinite,
      Double.less_iff hFinite hUMaxFinite, hZero, hUMax,
      hRational, IntKind.inRange_uint64_iff]
    norm_cast
  simp only [toInteger, hWhole, if_true, hSigned, hUnsigned]
  split
  · case isTrue hRange =>
      rw [Double.cast_of_rational hFinite hRational hRange]
  · case isFalse hNotSigned =>
      split
      · case isTrue hRange =>
          rw [Double.cast_of_rational hFinite hRational
            hRange]
      · case isFalse hNotUnsigned =>
          symm
          rw [takeInteger_eq_error_iff]
          refine ⟨fun hRange => ?_, rfl⟩
          rcases IntKind.inRange_widest hRange with h | h
          · exact hNotSigned h
          · exact hNotUnsigned h

/- A value whose number is an integer is taken like it. -/
theorem toInteger_of_number
    {value : Value}
    {n : ℤ}
    (kind : IntKind)
    (hNumber : value.number? = some (n : ℚ)) :
    value.toInteger kind = value.takeInteger kind n := by
  cases value with
  | int m =>
      have hEq : m.toInt = n := by
        simpa [number?] using hNumber
      simp only [toInteger, hEq]
  | uint m =>
      have hEq : (m.toNat : ℤ) = n := by
        have hCast : ((m.toNat : ℤ) : ℚ) = n := by
          simpa [number?] using hNumber
        exact_mod_cast hCast
      simp only [toInteger, hEq]
  | double x =>
      cases hFinite : x.isFinite with
      | true =>
          have hRational : x.rational = n := by
            simpa [number?, hFinite] using hNumber
          exact
            toInteger_double_of_rational kind hFinite
              hRational
      | false => simp [number?, hFinite] at hNumber
  | _ => simp [number?] at hNumber

/- A number that is no integer is out of every range. -/
theorem toInteger_of_no_integer
    {value : Value}
    (kind : IntKind)
    (hIsNumber : value.IsNumber)
    (hNone : ∀ n : ℤ, value.number? ≠ some (n : ℚ)) :
    value.toInteger kind =
      .error (value.outOfRange kind) := by
  cases value with
  | int m => exact absurd rfl (hNone m.toInt)
  | uint m =>
      exact absurd (by simp [number?]) (hNone m.toNat)
  | double x =>
      have hNotWhole : x.isWhole = false := by
        rw [Bool.eq_false_iff]
        intro hWhole
        rcases Double.isWhole_iff.mp hWhole with
          ⟨hFinite, n, hRational⟩
        exact hNone n (by simp [number?, hFinite, hRational])
      simp [toInteger, hNotWhole]
  | _ => exact absurd hIsNumber (by simp [IsNumber])

/- A value of another kind is none of the numbers. -/
theorem toInteger_of_not_isNumber
    {value : Value}
    (kind : IntKind)
    (hIsNumber : ¬ value.IsNumber) :
    value.toInteger kind =
      .error (.typeMismatch "an integer" value.kind) := by
  cases value with
  | int | uint | double => exact absurd trivial hIsNumber
  | _ => rfl

end Value

end GVariant

------------------------------------------------------------
-- Exactness
------------------------------------------------------------

namespace GVariant

namespace Value

theorem toInteger_eq_ok_iff
    {value : Value}
    {kind : IntKind}
    {n : ℤ} :
    value.toInteger kind = .ok n ↔
      value.number? = some (n : ℚ) ∧ kind.InRange n := by
  constructor
  · intro hOk
    by_cases hSome : ∃ m : ℤ, value.number? = some (m : ℚ)
    · rcases hSome with ⟨m, hNumber⟩
      rw [toInteger_of_number kind hNumber,
        takeInteger_eq_ok_iff] at hOk
      rcases hOk with ⟨hRange, rfl⟩
      exact ⟨hNumber, hRange⟩
    · by_cases hIsNumber : value.IsNumber
      · rw [toInteger_of_no_integer kind hIsNumber
          (fun m hNumber => hSome ⟨m, hNumber⟩)] at hOk
        cases hOk
      · rw [toInteger_of_not_isNumber kind hIsNumber] at hOk
        cases hOk
  · rintro ⟨hNumber, hRange⟩
    rw [toInteger_of_number kind hNumber]
    exact takeInteger_eq_ok_iff.mpr ⟨hRange, rfl⟩

/- A number that yields no integer is out of the range. -/
theorem toInteger_of_isNumber
    {value : Value}
    {kind : IntKind}
    (hIsNumber : value.IsNumber)
    (hRange :
      ∀ n : ℤ, value.number? = some (n : ℚ) →
        ¬ kind.InRange n) :
    value.toInteger kind =
      .error (value.outOfRange kind) := by
  by_cases hSome : ∃ m : ℤ, value.number? = some (m : ℚ)
  · rcases hSome with ⟨m, hNumber⟩
    rw [toInteger_of_number kind hNumber]
    exact
      takeInteger_eq_error_iff.mpr ⟨hRange m hNumber, rfl⟩
  · exact
      toInteger_of_no_integer kind hIsNumber
        (fun m hNumber => hSome ⟨m, hNumber⟩)

/- The variant of an integer kind is that of the number. -/
theorem packBasic_int_eq_ok_iff
    {value : Value}
    {kind : IntKind}
    {word : BitVec kind.width} :
    value.packBasic (.int kind) =
        .ok (.scalar (.int kind word)) ↔
      value.number? = some (kind.value word : ℚ) := by
  constructor
  · intro hPacks
    cases hResult : value.toInteger kind with
    | error e =>
        simp [packBasic, hResult, Except.map] at hPacks
    | ok n =>
        rcases toInteger_eq_ok_iff.mp hResult with
          ⟨hNumber, hRange⟩
        have hWord : kind.word n = word := by
          simpa [packBasic, hResult, Except.map,
            Variant.int] using hPacks
        rw [← hWord, IntKind.value_word hRange, hNumber]
  · intro hNumber
    have hResult :
        value.toInteger kind = .ok (kind.value word) :=
      toInteger_eq_ok_iff.mpr
        ⟨hNumber, kind.inRange_value word⟩
    simp [packBasic, hResult, Except.map, Variant.int,
      kind.word_value word]

/-
  Integers are taken exactly: from a value of which the
  number is an integer in the range of the kind, and from no
  other. Any other number is out of range, and any other
  value is of the wrong type.
-/
theorem toInteger_exact
    (value : Value)
    (kind : IntKind) :
    (∀ n : ℤ,
        value.toInteger kind = .ok n ↔
          value.number? = some (n : ℚ) ∧ kind.InRange n) ∧
      (value.IsNumber →
        (∀ n : ℤ, value.number? = some (n : ℚ) →
          ¬ kind.InRange n) →
        value.toInteger kind =
          .error (.outOfRange value.toText kind.char)) ∧
      (¬ value.IsNumber →
        value.toInteger kind =
          .error (.typeMismatch "an integer" value.kind)) ∧
      ∀ word : BitVec kind.width,
        value.packBasic (.int kind) =
            .ok (.scalar (.int kind word)) ↔
          value.number? = some (kind.value word : ℚ) :=
  ⟨fun _ => toInteger_eq_ok_iff,
    fun hIsNumber hRange =>
      toInteger_of_isNumber hIsNumber hRange,
    toInteger_of_not_isNumber kind,
    fun _ => packBasic_int_eq_ok_iff⟩

/-
  The double `2 ^ 63` is in the range of one of the widest
  kinds only, the negative zero is zero, and a boolean is no
  number.
-/
theorem toInteger_exact_bounds :
    (Value.double ⟨0x43E0000000000000⟩).toInteger .uint64 =
        .ok 0x8000000000000000 ∧
      (Value.double ⟨0x43E0000000000000⟩).toInteger .int64 =
        .error
          (.outOfRange
            (Value.double ⟨0x43E0000000000000⟩).toText
            'x') ∧
      (Value.double ⟨0x8000000000000000⟩).toInteger .byte =
        .ok 0 ∧
      (Value.bool true).toInteger .byte =
        .error (.typeMismatch "an integer" "a boolean") := by
  have hGreat :
      (⟨0x43E0000000000000⟩ : Double).rational =
        (0x8000000000000000 : ℤ) := by
    rw [Double.rational_eq_intCast_iff]
    decide
  have hZero :
      (⟨0x8000000000000000⟩ : Double).rational =
        (0 : ℤ) :=
    Double.rational_of_significand (by decide)
  have hGreatNumber :
      (Value.double ⟨0x43E0000000000000⟩).number? =
        some ((0x8000000000000000 : ℤ) : ℚ) :=
    congrArg some hGreat
  refine ⟨?_, ?_, ?_, ?_⟩
  · exact
      ((toInteger_exact _ .uint64).1 0x8000000000000000).mpr
        ⟨hGreatNumber, by decide +kernel⟩
  · refine (toInteger_exact _ .int64).2.1 trivial ?_
    intro n hNumber
    rw [hGreatNumber] at hNumber
    have hEq : (0x8000000000000000 : ℤ) = n := by
      exact_mod_cast Option.some.inj hNumber
    rw [← hEq]
    decide
  · exact
      ((toInteger_exact _ .byte).1 0).mpr
        ⟨congrArg some hZero, by decide⟩
  · exact
      (toInteger_exact (.bool true) .byte).2.2.1
        (fun h => h)

end Value

end GVariant
