import GVariant.Binary.Encode
import GVariant.Proofs.Signature.Reading
import GVariant.Proofs.Text.Utf8

/-
  Numbers, texts and rows of bytes, written and read back.

  Main declarations:
    * `Bytes.littleEndian_ofLittleEndian`
    * `Bytes.toNat_ofNat`
    * `Bytes.splitLast?_append`
    * `Bytes.splitAtLastZero?_append`
    * `Utf8.decode_encode`
    * `Utf8.decode_encode_type`
-/

------------------------------------------------------------
-- Numbers
------------------------------------------------------------

namespace GVariant

namespace Bytes

/- A number that fits its bytes is read back from them. -/
theorem ofLittleEndian_littleEndian_of_lt
    {size n : Nat}
    (hFits : n < Nat.pow 256 size) :
    ofLittleEndian (littleEndian size n) = n := by
  rw [ofLittleEndian_littleEndian]
  exact Nat.mod_eq_of_lt hFits

/- Bytes are the digits of a number below the next power. -/
theorem ofLittleEndian_lt
    (bytes : List UInt8) :
    ofLittleEndian bytes < Nat.pow 256 bytes.length := by
  induction bytes with
  | nil => exact Nat.one_pos
  | cons byte bytes ih =>
      have hByte : byte.toNat < 256 := byte.toNat_lt
      change
        byte.toNat + 256 * ofLittleEndian bytes <
          Nat.pow 256 bytes.length * 256
      omega

/- The number of some bytes has these bytes. -/
theorem littleEndian_ofLittleEndian
    (bytes : List UInt8) :
    littleEndian bytes.length (ofLittleEndian bytes) =
      bytes := by
  induction bytes with
  | nil => rfl
  | cons byte bytes ih =>
      have hByte : byte.toNat < 256 := byte.toNat_lt
      have hHead :
          UInt8.ofNat
              (byte.toNat + 256 * ofLittleEndian bytes) =
            byte := by
        rw [← UInt8.toNat_inj, UInt8.toNat_ofNat']
        omega
      have hTail :
          (byte.toNat + 256 * ofLittleEndian bytes) / 256 =
            ofLittleEndian bytes := by
        omega
      rw [List.length_cons, littleEndian, ofLittleEndian,
        hHead, hTail, ih]

@[simp] theorem length_ofNat
    (order : ByteOrder)
    (size n : Nat) :
    (ofNat order size n).length = size := by
  cases order <;> simp [ofNat, length_littleEndian]

/- The same in either byte order. -/
theorem toNat_ofNat
    (order : ByteOrder)
    {size n : Nat}
    (hFits : n < Nat.pow 256 size) :
    toNat order (ofNat order size n) = n := by
  cases order <;>
    simp [toNat, ofNat,
      ofLittleEndian_littleEndian_of_lt hFits]

end Bytes

end GVariant

------------------------------------------------------------
-- Rows Of Bytes
------------------------------------------------------------

namespace GVariant

namespace Bytes

/- The last byte and what is before it. -/
@[simp] theorem splitLast?_append
    (before : List UInt8)
    (last : UInt8) :
    splitLast? (before ++ [last]) = some (before, last) := by
  simp [splitLast?]

/- The last zero byte is the one that no zero follows. -/
theorem splitAtLastZero?_append
    (before : List UInt8)
    {after : List UInt8}
    (hAfter : ∀ byte ∈ after, byte ≠ 0) :
    splitAtLastZero? (before ++ 0 :: after) =
      some (before, after) := by
  have hReverse :
      (before ++ 0 :: after).reverse =
        after.reverse ++ 0 :: before.reverse := by
    simp
  have hNonzero :
      ∀ byte ∈ after.reverse, (byte != 0) = true := by
    intro byte hByte
    simpa using hAfter byte (List.mem_reverse.mp hByte)
  have hTake :
      (before ++ 0 :: after).reverse.takeWhile (· != 0) =
        after.reverse := by
    rw [hReverse, List.takeWhile_append_of_pos hNonzero]
    simp
  have hDrop :
      (before ++ 0 :: after).reverse.dropWhile (· != 0) =
        0 :: before.reverse := by
    rw [hReverse, List.dropWhile_append_of_pos hNonzero]
    simp
  simp only [splitAtLastZero?, hTake, hDrop,
    List.reverse_reverse]

end Bytes

end GVariant

------------------------------------------------------------
-- Texts
------------------------------------------------------------

namespace GVariant

namespace Utf8

/- A text is read back from its bytes. -/
theorem decode_encode
    (text : String) :
    decode (encode text) = .ok text := by
  have hBytes :
      ByteArray.mk (encode text).toArray = text.toUTF8 := by
    simp [encode]
  have hValid : text.toUTF8.IsValidUTF8 :=
    text.isValidUTF8
  have hText :
      String.fromUTF8? text.toUTF8 = some text := by
    rw [String.fromUTF8?, dif_pos hValid]
    rfl
  simp only [decode, hBytes, hText]

/- An ASCII text has one byte for each character. -/
theorem encode_ofList
    {chars : List Char}
    (hAscii : ∀ c ∈ chars, c.toNat < 128) :
    encode (String.ofList chars) =
      chars.map fun c => UInt8.ofNat c.toNat := by
  rw [encode_eq_flatMap, String.toList_ofList]
  induction chars with
  | nil => rfl
  | cons c chars ih =>
      rcases List.forall_mem_cons.mp hAscii with
        ⟨hChar, hOthers⟩
      rw [List.flatMap_cons, encodeChar_of_lt hChar,
        ih hOthers]
      rfl

/- The bytes of a type string are those of its text. -/
theorem encode_signature
    (type : Ty) :
    encode type.signature = type.encode :=
  encode_ofList fun c hMem => (Ty.chars_ascii type c hMem).2

/- The bytes of a type string are read back. -/
theorem decode_encode_type
    (type : Ty) :
    decode type.encode = .ok type.signature := by
  rw [← encode_signature, decode_encode]

end Utf8

/- A type string has no zero byte. -/
theorem Ty.ne_zero_of_mem_encode
    {type : Ty}
    {byte : UInt8}
    (hMem : byte ∈ type.encode) :
    byte ≠ 0 := by
  rcases List.mem_map.mp hMem with ⟨c, hChar, rfl⟩
  have hAscii := Ty.chars_ascii type c hChar
  intro hZero
  have hNat := congrArg UInt8.toNat hZero
  simp only [UInt8.toNat_ofNat', UInt8.toNat_zero] at hNat
  omega

end GVariant
