import GVariant.Text.Utf8
import Mathlib.Data.String.Basic

/-
  The order and the number of the bytes of texts.

  An ASCII character is one byte, and the bytes of all other
  characters are above these. The first byte of a character
  grows with its number of bytes, and characters with the
  same number of bytes are ordered by the first byte in
  which they differ. So texts are ordered as their bytes
  are. A place in a text is the number of the bytes before
  it.

  Key definitions include:
    * `Utf8.size`
    * `HasCharAt`

  Main declarations:
    * `Utf8.encode_eq_flatMap`
    * `Utf8.encode_ofList_append`
    * `Utf8.le_of_mem_encodeChar`
    * `Utf8.encodeChar_append_lt`
    * `Utf8.encode_lt_encode_iff`
    * `lt_size_of_hasCharAt`
-/

------------------------------------------------------------
-- Bytes And Their Order
------------------------------------------------------------

namespace GVariant

namespace Utf8

/- The bytes of a text are those of its characters. -/
theorem encode_eq_flatMap
    (text : String) :
    encode text =
      text.toList.flatMap String.utf8EncodeChar := by
  rw [encode, String.toUTF8, ← String.utf8Encode_toList,
    List.utf8Encode]
  simp

/- The bytes of a text in two parts are those of the parts. -/
theorem encode_ofList_append
    (before after : List Char) :
    encode (String.ofList (before ++ after)) =
      encode (String.ofList before) ++
        encode (String.ofList after) := by
  simp [encode_eq_flatMap]

/- An ASCII character has one byte, which is its number. -/
theorem encodeChar_of_lt
    {c : Char}
    (hAscii : c.toNat < 128) :
    String.utf8EncodeChar c = [UInt8.ofNat c.toNat] := by
  have hOne : c.val.toNat ≤ 0x7F :=
    Nat.le_of_lt_succ hAscii
  unfold String.utf8EncodeChar
  exact if_pos hOne

/- The bytes of any other character are not ASCII. -/
theorem le_of_mem_encodeChar
    {c : Char}
    (hAbove : 128 ≤ c.toNat) :
    ∀ byte ∈ String.utf8EncodeChar c, 128 ≤ byte.toNat := by
  have hMany : ¬ c.val.toNat ≤ 0x7F :=
    Nat.not_le_of_lt hAbove
  unfold String.utf8EncodeChar
  dsimp only
  rw [if_neg hMany]
  split_ifs <;> simp <;> omega

/-
  The lesser character has the lesser bytes, whatever is
  behind them.
-/
theorem encodeChar_append_lt
    {c d : Char}
    (hLess : c < d)
    (rest rest' : List UInt8) :
    String.utf8EncodeChar c ++ rest <
      String.utf8EncodeChar d ++ rest' := by
  have hNumbers : c.val.toNat < d.val.toNat :=
    UInt32.lt_iff_toNat_lt.mp hLess
  have hBound : d.val.toNat < 0x110000 := by
    rcases d.valid with hLow | hHigh
    · exact Nat.lt_trans hLow (by decide)
    · exact hHigh.2
  unfold String.utf8EncodeChar
  dsimp only
  split_ifs <;>
    simp only [List.cons_append, List.nil_append,
      List.cons_lt_cons_iff, UInt8.lt_iff_toNat_lt,
      ← UInt8.toNat_inj, UInt8.toNat_ofNat'] <;>
    simp (disch := omega) only [Nat.mod_eq_of_lt] <;>
    omega

/- Texts are ordered as their bytes are. -/
theorem encode_lt_encode_iff
    (s t : String) :
    encode s < encode t ↔ s < t := by
  have hForward :
      ∀ s t : List Char,
        s < t →
          s.flatMap String.utf8EncodeChar <
            t.flatMap String.utf8EncodeChar := by
    intro s
    induction s with
    | nil =>
        intro t hLess
        cases t with
        | nil => cases hLess
        | cons d t =>
            rcases hBytes : String.utf8EncodeChar d with
              _ | ⟨byte, bytes⟩
            · exact absurd hBytes String.utf8EncodeChar_ne_nil
            · simp [hBytes]
    | cons c s ih =>
        intro t hLess
        cases t with
        | nil => cases hLess
        | cons d t =>
            simp only [List.flatMap_cons]
            rcases List.cons_lt_cons_iff.mp hLess with
              hFirst | ⟨rfl, hOthers⟩
            · exact encodeChar_append_lt hFirst _ _
            · exact List.append_left_lt (ih t hOthers)
  have hLess :
      ∀ {s t : String}, s < t → encode s < encode t := by
    intro s t hText
    rw [encode_eq_flatMap, encode_eq_flatMap]
    exact hForward _ _ (String.lt_iff_toList_lt.mp hText)
  constructor
  · intro hBytes
    rcases lt_trichotomy s t with hText | rfl | hText
    · exact hText
    · exact absurd hBytes (List.lt_irrefl _)
    · exact absurd hBytes (List.lt_asymm (hLess hText))
  · exact hLess

end Utf8

end GVariant

------------------------------------------------------------
-- Places
------------------------------------------------------------

namespace GVariant

namespace Utf8

/- The number of bytes of some characters. -/
def size (text : List Char) : Nat :=
  (text.flatMap String.utf8EncodeChar).length

@[simp] theorem size_nil :
    size [] = 0 := rfl

@[simp] theorem size_cons
    (c : Char)
    (text : List Char) :
    size (c :: text) = c.utf8Size + size text := by
  simp [size]

@[simp] theorem size_append
    (before after : List Char) :
    size (before ++ after) = size before + size after := by
  simp [size]

theorem size_replicate
    (count : Nat)
    {c : Char}
    (hSize : c.utf8Size = 1) :
    size (List.replicate count c) = count := by
  induction count with
  | zero => rfl
  | succ count ih =>
      rw [List.replicate_succ, size_cons, ih, hSize,
        Nat.add_comm]

theorem length_encode_ofList
    (text : List Char) :
    (encode (String.ofList text)).length = size text := by
  simp [encode_eq_flatMap, size]

theorem utf8ByteSize_eq_size
    (text : String) :
    text.utf8ByteSize = size text.toList := by
  rw [← length_encode_ofList, String.ofList_toList]
  simp [encode]

end Utf8

/- A character stands in a text behind so many bytes. -/
def HasCharAt
    (text : List Char)
    (c : Char)
    (position : Nat) : Prop :=
  ∃ before after,
    text = before ++ c :: after ∧
      Utf8.size before = position

/- No character stands at the end of a text. -/
theorem lt_size_of_hasCharAt
    {text : List Char}
    {c : Char}
    {position : Nat}
    (hChar : HasCharAt text c position) :
    position < Utf8.size text := by
  rcases hChar with ⟨before, after, rfl, rfl⟩
  have hPos := c.utf8Size_pos
  simp only [Utf8.size_append, Utf8.size_cons]
  omega

end GVariant
