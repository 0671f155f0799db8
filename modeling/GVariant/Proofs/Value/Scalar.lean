import GVariant.Value.Scalar
import GVariant.Proofs.Variant.WellFormed

/-
  Scalars as host values and as keys, and back.

  A scalar becomes a host value that packs to the scalar
  again. The text of a scalar that is no double is read by
  its type as a value that packs to it, so that the texts of
  different scalars of a type are different.

  Main declarations:
    * `IntKind.inRange_value`
    * `Numeral.readInt?_toString`
    * `Scalar.packBasic_toValue`
    * `Scalar.packBasic_parseKey`
    * `Scalar.keyText_injective`
-/

------------------------------------------------------------
-- Ranges
------------------------------------------------------------

namespace GVariant

namespace IntKind

/- A word of a kind stands for an integer in its range. -/
theorem inRange_value
    (kind : IntKind)
    (word : BitVec kind.width) :
    kind.InRange (kind.value word) := by
  cases hSigned : kind.signed with
  | true =>
      have hPos : 0 < kind.width := by
        cases kind <;> decide
      have hLow := BitVec.toInt_intMin_le word
      have hHigh := BitVec.toInt_lt (x := word)
      have hMax := BitVec.toInt_intMax (w := kind.width)
      simp only [InRange, minValue, maxValue, value, hSigned,
        if_true]
      omega
  | false =>
      have hBound := word.isLt
      have hMax := BitVec.toNat_allOnes (v := kind.width)
      simp only [InRange, minValue, maxValue, value, hSigned,
        Bool.false_eq_true, if_false]
      omega

/- An integer in the range of a kind is kept by its word. -/
theorem value_word
    {kind : IntKind}
    {n : Int}
    (hRange : kind.InRange n) :
    kind.value (kind.word n) = n := by
  cases hSigned : kind.signed with
  | true =>
      have hPos : 0 < kind.width := by
        cases kind <;> decide
      have hMin := BitVec.toInt_intMin_of_pos hPos
      have hMax := BitVec.toInt_intMax (w := kind.width)
      simp only [InRange, minValue, maxValue, hSigned,
        if_true] at hRange
      rw [hMin, hMax] at hRange
      simp only [value, word, hSigned, if_true]
      exact
        BitVec.toInt_ofInt_eq_self hPos hRange.1
          (Int.lt_of_le_sub_one hRange.2)
  | false =>
      have hMax := BitVec.toNat_allOnes (v := kind.width)
      have hPos := Nat.two_pow_pos kind.width
      simp only [InRange, minValue, maxValue, hSigned,
        Bool.false_eq_true, if_false] at hRange
      simp only [value, word, hSigned, Bool.false_eq_true,
        if_false, BitVec.toNat_ofInt]
      rw [Int.emod_eq_of_lt hRange.1 (by omega)]
      exact Int.toNat_of_nonneg hRange.1

/- Only the widest unsigned kind exceeds 64 signed bits. -/
theorem inRange_int64_of_ne
    {kind : IntKind}
    (hKind : kind ≠ .uint64)
    {n : Int}
    (hRange : kind.InRange n) :
    IntKind.InRange .int64 n := by
  have hMin :
      IntKind.minValue .int64 ≤ kind.minValue := by
    cases kind <;> decide
  have hMax :
      kind.maxValue ≤ IntKind.maxValue .int64 := by
    cases kind with
    | uint64 => exact absurd rfl hKind
    | _ => decide
  exact
    ⟨Int.le_trans hMin hRange.1, Int.le_trans hRange.2 hMax⟩

/- An integer that fits 64 signed bits is kept by them. -/
theorem toInt_ofInt
    {n : Int}
    (hRange : IntKind.InRange .int64 n) :
    (Int64.ofInt n).toInt = n := by
  have hMin :
      IntKind.minValue .int64 = -0x8000000000000000 := by
    decide
  have hMax :
      IntKind.maxValue .int64 = 0x7FFFFFFFFFFFFFFF := by
    decide
  rcases hRange with ⟨hLow, hHigh⟩
  exact Int64.toInt_ofInt_of_le (by omega) (by omega)

end IntKind

end GVariant

------------------------------------------------------------
-- Numerals
------------------------------------------------------------

namespace GVariant

namespace Numeral

/- The digits of a number are read as the number. -/
theorem readNat?_toDigits
    (n : Nat) :
    readNat? (Nat.toDigits 10 n) = some n := by
  have hDigits :
      (Nat.toDigits 10 n).all Char.isDigit = true := by
    rw [List.all_eq_true]
    intro c hMem
    exact
      Nat.isDigit_of_mem_toDigits (by decide) (by decide) hMem
  have hValue : value (Nat.toDigits 10 n) = n := by
    unfold value
    rw [← Nat.ofDigitChars_eq_foldl]
    exact Nat.ofDigitChars_ten_toDigits
  simp [readNat?, Nat.toDigits_ne_nil, hDigits, hValue]

/- Digits have no sign in front. -/
theorem splitSign_toDigits
    (n : Nat) :
    splitSign (Nat.toDigits 10 n) =
      (false, Nat.toDigits 10 n) := by
  unfold splitSign
  split
  · rename_i text hText
    have hDigit : Char.isDigit '-' = true := by
      apply
        Nat.isDigit_of_mem_toDigits (b := 10) (n := n)
          (by decide) (by decide)
      simp [hText]
    cases hDigit
  · rename_i text hText
    have hDigit : Char.isDigit '+' = true := by
      apply
        Nat.isDigit_of_mem_toDigits (b := 10) (n := n)
          (by decide) (by decide)
      simp [hText]
    cases hDigit
  · rfl

/- The text of an integer is read as the integer. -/
theorem readInt?_toString
    (n : Int) :
    readInt? (toString n).toList = some n := by
  rw [Int.toString_eq_repr, Int.repr_eq_if]
  split
  · rename_i hPos
    rw [Nat.toList_repr]
    have hInt : (n.toNat : Int) = n :=
      Int.toNat_of_nonneg hPos
    simp [readInt?, splitSign_toDigits, readNat?_toDigits,
      hInt]
  · rename_i hNeg
    have hText :
        ("-" ++ (-n).toNat.repr).toList =
          '-' :: Nat.toDigits 10 (-n).toNat := by
      rw [String.toList_append, Nat.toList_repr]
      rfl
    have hInt : ((-n).toNat : Int) = -n :=
      Int.toNat_of_nonneg (by omega)
    rw [hText]
    simp [readInt?, splitSign, readNat?_toDigits, hInt]

/- A natural number is read without a minus sign. -/
theorem readUnsigned?_toString
    (n : Nat) :
    readUnsigned? (toString (n : Int)).toList = some n := by
  have hText :
      (toString (n : Int)).toList = Nat.toDigits 10 n :=
    Nat.toList_repr
  simp only [readUnsigned?, hText, splitSign_toDigits,
    readNat?_toDigits, Bool.false_eq_true, if_false]

end Numeral

end GVariant

------------------------------------------------------------
-- Packing Scalars
------------------------------------------------------------

namespace GVariant

namespace Value

/- A number that denotes an integer packs to its word. -/
theorem packBasic_of_toInteger
    {value : Value}
    {kind : IntKind}
    {n : Int}
    (hNumber :
      value.toInteger kind =
        if kind.InRange n then
          .ok n
        else
          .error (value.outOfRange kind))
    (hRange : kind.InRange n) :
    value.packBasic (.int kind) =
      .ok (.scalar (.int kind (kind.word n))) := by
  simp [packBasic, hNumber, hRange, Variant.int, Except.map]

/- A signed integer denotes what it is made of. -/
theorem toInteger_int
    {n : Int}
    (hSigned : IntKind.InRange .int64 n)
    (kind : IntKind) :
    (Value.int (Int64.ofInt n)).toInteger kind =
      if kind.InRange n then
        .ok n
      else
        .error
          ((Value.int (Int64.ofInt n)).outOfRange kind) := by
  simp [toInteger, takeInteger, IntKind.toInt_ofInt hSigned]

/- An unsigned integer denotes what it is made of. -/
theorem toInteger_uint
    {n : Nat}
    (hUnsigned : IntKind.InRange .uint64 n)
    (kind : IntKind) :
    (Value.uint (UInt64.ofNat n)).toInteger kind =
      if kind.InRange n then
        .ok (n : Int)
      else
        .error
          ((Value.uint (UInt64.ofNat n)).outOfRange kind) := by
  have hMax :
      IntKind.maxValue .uint64 = 0xFFFFFFFFFFFFFFFF := by
    decide
  have hFits : n < UInt64.size := by
    have hHigh := hUnsigned.2
    rw [hMax] at hHigh
    simp only [UInt64.size]
    omega
  simp [toInteger, takeInteger,
    UInt64.toNat_ofNat_of_lt' hFits]

/- A signed integer packs to its word. -/
theorem packBasic_int
    {kind : IntKind}
    {n : Int}
    (hSigned : IntKind.InRange .int64 n)
    (hRange : kind.InRange n) :
    (Value.int (Int64.ofInt n)).packBasic (.int kind) =
      .ok (.scalar (.int kind (kind.word n))) :=
  packBasic_of_toInteger (toInteger_int hSigned kind)
    hRange

/- An unsigned integer packs to its word. -/
theorem packBasic_uint
    {kind : IntKind}
    {n : Nat}
    (hUnsigned : IntKind.InRange .uint64 n)
    (hRange : kind.InRange n) :
    (Value.uint (UInt64.ofNat n)).packBasic (.int kind) =
      .ok (.scalar (.int kind (kind.word n))) :=
  packBasic_of_toInteger (toInteger_uint hUnsigned kind)
    hRange

/- A text packs to the scalar of a kind that admits it. -/
theorem packBasic_string
    {kind : TextKind}
    {text : String}
    (hAccepts : kind.Accepts text) :
    (Value.string text).packBasic (.text kind) =
      .ok (.scalar (.text kind text)) := by
  have hText :
      Variant.text kind text =
        .ok (.scalar (.text kind text)) :=
    Variant.text_eq_ok_iff.mpr ⟨hAccepts, rfl⟩
  simpa [packBasic, toString] using hText

end Value

namespace Scalar

/- The kinds of host values that scalars become. -/
@[elab_as_elim]
theorem toValue_elim
    {motive : Value → Prop}
    (bool : ∀ value, motive (.bool value))
    (int : ∀ value, motive (.int value))
    (uint : ∀ value, motive (.uint value))
    (double : ∀ value, motive (.double value))
    (string : ∀ value, motive (.string value))
    (s : Scalar) :
    motive s.toValue := by
  cases s with
  | boolean value => exact bool value
  | int kind word =>
      cases kind with
      | uint64 =>
          rw [toValue, Value.ofNat]
          split
          · exact int _
          · exact uint _
      | _ => exact int _
  | double value => exact double value
  | text kind value => exact string value

/- Other kinds of integers are signed as host values. -/
theorem toValue_int
    {kind : IntKind}
    (hKind : kind ≠ .uint64)
    (word : BitVec kind.width) :
    (Scalar.int kind word).toValue =
      .ofInt (kind.value word) := by
  cases kind with
  | uint64 => exact absurd rfl hKind
  | _ => rfl

/- The host value of a scalar packs to the scalar. -/
theorem packBasic_toValue
    {s : Scalar}
    (hValid : s.Valid) :
    s.toValue.packBasic s.type = .ok (.scalar s) := by
  cases s with
  | boolean value => rfl
  | int kind word =>
      have hRange := kind.inRange_value word
      have hPacks :
          (Scalar.int kind word).toValue.packBasic
              (.int kind) =
            .ok
              (.scalar
                (.int kind (kind.word (kind.value word)))) := by
        by_cases hKind : kind = .uint64
        · subst hKind
          have hNat :
              IntKind.value .uint64 word = word.toNat := rfl
          rw [hNat] at hRange ⊢
          simp only [toValue, Value.ofNat]
          split
          · rename_i hSigned
            rw [← Int64.ofInt_eq_ofNat]
            exact Value.packBasic_int hSigned hRange
          · exact Value.packBasic_uint hRange hRange
        · have hSigned :=
            IntKind.inRange_int64_of_ne hKind hRange
          rw [toValue_int hKind, Value.ofInt]
          exact Value.packBasic_int hSigned hRange
      rw [kind.word_value word] at hPacks
      exact hPacks
  | double value => rfl
  | text kind value => exact Value.packBasic_string hValid

end Scalar

end GVariant

------------------------------------------------------------
-- Keys
------------------------------------------------------------

namespace GVariant

namespace Scalar

/-
  The text of a scalar other than a double is read by its
  type as a value that packs to the scalar.
-/
theorem packBasic_parseKey
    {s : Scalar}
    (hValid : s.Valid)
    (hType : s.type ≠ .double) :
    ∃ key,
      Value.parseKey s.keyText s.type = .ok key ∧
        key.packBasic s.type = .ok (.scalar s) := by
  cases s with
  | boolean value =>
      cases value with
      | false =>
          exact
            ⟨.bool false,
              by simp [Value.parseKey, type, keyText], rfl⟩
      | true =>
          exact
            ⟨.bool true,
              by simp [Value.parseKey, type, keyText], rfl⟩
  | int kind word =>
      have hRange := kind.inRange_value word
      have hWord := kind.word_value word
      by_cases hKind : kind = .uint64
      · subst hKind
        have hNat :
            IntKind.value .uint64 word = word.toNat := rfl
        rw [hNat] at hRange hWord
        have hParse :=
          Numeral.readUnsigned?_toString word.toNat
        have hPacks := Value.packBasic_uint hRange hRange
        rw [hWord] at hPacks
        refine ⟨.uint (UInt64.ofNat word.toNat), ?_, hPacks⟩
        simp only [Value.parseKey, Value.parseIntKey?, type,
          keyText, hNat, hParse, Option.bind_some, hRange,
          if_true]
      · have hSigned :=
          IntKind.inRange_int64_of_ne hKind hRange
        have hParse :=
          Numeral.readInt?_toString (kind.value word)
        have hKey :
            Value.parseIntKey? kind
                (ToString.toString (kind.value word)) =
              some (.int (Int64.ofInt (kind.value word))) := by
          cases kind with
          | uint64 => exact absurd rfl hKind
          | _ =>
              simp only [Value.parseIntKey?, hParse,
                Option.bind_some, hSigned, if_true]
        have hPacks := Value.packBasic_int hSigned hRange
        rw [hWord] at hPacks
        refine
          ⟨.int (Int64.ofInt (kind.value word)), ?_, hPacks⟩
        simp only [Value.parseKey, type, keyText, hKey]
  | double value => exact absurd rfl hType
  | text kind value =>
      exact ⟨.string value, rfl, Value.packBasic_string hValid⟩

/- Scalars of one type with the same text are the same. -/
theorem keyText_injective
    {s t : Scalar}
    (hValidS : s.Valid)
    (hValidT : t.Valid)
    (hType : s.type = t.type)
    (hDouble : s.type ≠ .double)
    (hText : s.keyText = t.keyText) :
    s = t := by
  rcases packBasic_parseKey hValidS hDouble with
    ⟨key, hParse, hPack⟩
  rcases packBasic_parseKey hValidT (hType ▸ hDouble) with
    ⟨key', hParse', hPack'⟩
  rw [hText, hType, hParse'] at hParse
  cases hParse
  rw [hType, hPack'] at hPack
  cases hPack
  rfl

end Scalar

end GVariant
