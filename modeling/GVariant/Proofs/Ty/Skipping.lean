import GVariant.Proofs.Binary.Bytes
import GVariant.Proofs.Text.Utf8
import GVariant.Proofs.Ty.Matching

/-
  Skipping a type in bytes.

  The matcher skips a type by counting brackets. Round and
  curly ones are counted alike, and a leading `a` or `m` is
  passed wherever it stands. Over bytes this is a loop that
  keeps the open brackets and the bytes that it has passed.
  A byte counts as the character of its number does, so
  the loop is the count of the matcher.

  Where the bytes start with the string of a type, the loop
  passes just that string, whatever is behind it. A reader
  whose limit the type keeps takes the same bytes.

  Key definitions include:
    * `Bytes.char`
    * `Reader.SkipsTo`

  Main declarations:
    * `Bytes.char_eq_iff`
    * `Pattern.skip_eq_typeLength`
    * `Pattern.skip_encode_append`
    * `Pattern.skip_eq_length_taken`
-/

------------------------------------------------------------
-- Bytes As Characters
------------------------------------------------------------

namespace GVariant

namespace Bytes

/- The character with the number of a byte. -/
def char (byte : UInt8) : Char :=
  Char.ofNat byte.toNat

theorem toNat_char
    (byte : UInt8) :
    (char byte).toNat = byte.toNat := by
  have hValid : byte.toNat.isValidChar :=
    .inl (Nat.lt_trans byte.toNat_lt (by decide))
  rw [char, Char.ofNat, dif_pos hValid]
  rfl

/- A byte is told from others as its character is. -/
theorem char_eq_iff
    {byte : UInt8}
    {c : Char}
    (hByte : c.toNat < 256) :
    char byte = c ↔ byte = c.toUInt8 := by
  have hNumber : c.toUInt8.toNat = c.toNat := by
    rw [Char.toUInt8, UInt32.toNat_toUInt8]
    exact Nat.mod_eq_of_lt hByte
  rw [← Char.toNat_inj, toNat_char, ← UInt8.toNat_inj,
    hNumber]

end Bytes

/- A type string is read off its bytes. -/
theorem Ty.map_char_encode
    (type : Ty) :
    type.encode.map Bytes.char = type.chars := by
  have hEach :
      ∀ c ∈ type.chars,
        Bytes.char (UInt8.ofNat c.toNat) = c := by
    intro c hMem
    have hAscii := (type.chars_ascii c hMem).2
    rw [← Char.toNat_inj, Bytes.toNat_char,
      UInt8.toNat_ofNat']
    exact Nat.mod_eq_of_lt (by omega)
  calc
    type.encode.map Bytes.char =
        type.chars.map fun c =>
          Bytes.char (UInt8.ofNat c.toNat) := by
      rw [encode, List.map_map]
      rfl
    _ = type.chars.map id := List.map_congr_left hEach
    _ = type.chars := List.map_id _

end GVariant

------------------------------------------------------------
-- The Loop Over Bytes
------------------------------------------------------------

namespace GVariant

namespace Pattern

/- The loop adds the count of the matcher to its start. -/
theorem skipFrom_eq
    (brackets passed : Nat)
    (bytes : List UInt8) :
    skipFrom brackets passed bytes =
      passed +
        typeLengthFrom brackets (bytes.map Bytes.char) := by
  induction bytes generalizing brackets passed with
  | nil => rfl
  | cons byte bytes ih =>
      have hSame :
          ∀ c : Char,
            c.toNat < 256 →
              (Bytes.char byte = c ↔ byte = c.toUInt8) :=
        fun _ => Bytes.char_eq_iff
      simp only [skipFrom, List.map_cons, typeLengthFrom,
        hSame 'a' (by decide), hSame 'm' (by decide),
        hSame '(' (by decide), hSame '{' (by decide),
        hSame ')' (by decide), hSame '}' (by decide), ih]
      split_ifs <;> omega

/- Bytes are skipped as the matcher skips characters. -/
theorem skip_eq_typeLength
    (bytes : List UInt8) :
    skip bytes = typeLength (bytes.map Bytes.char) := by
  rw [skip, skipFrom_eq, Nat.zero_add]
  rfl

/- A type string is skipped, whatever bytes follow it. -/
theorem skip_encode_append
    (type : Ty)
    (behind : List UInt8) :
    skip (type.encode ++ behind) = type.encode.length := by
  rw [skip_eq_typeLength, List.map_append,
    type.map_char_encode, typeLength_chars, Ty.encode,
    List.length_map]

end Pattern

end GVariant

------------------------------------------------------------
-- Readers Take What Is Skipped
------------------------------------------------------------

namespace GVariant

/-
  A reader is moved over the bytes that are skipped at its
  place, and leaves those that are not.
-/
structure Reader.SkipsTo (r r' : Reader) : Prop where
  position_eq :
    r'.position =
      r.position + Pattern.skip (Utf8.encode r.remaining)
  remaining_eq :
    Utf8.encode r'.remaining =
      (Utf8.encode r.remaining).drop
        (Pattern.skip (Utf8.encode r.remaining))

/- A type string that was taken is what is skipped. -/
theorem Reader.Took.skipsTo
    {r r' : Reader}
    {type : Ty}
    (hTook : r.Took type.chars r') :
    r.SkipsTo r' := by
  have hBytes :
      Utf8.encode r.remaining =
        type.encode ++ Utf8.encode r'.remaining := by
    rw [remaining, hTook.1, Utf8.encode_ofList_append,
      ← Ty.signature, Utf8.encode_signature]
    rfl
  have hSkip :
      Pattern.skip (Utf8.encode r.remaining) =
        type.encode.length := by
    rw [hBytes, Pattern.skip_encode_append]
  constructor
  · rw [hSkip, hTook.2, Ty.encode, List.length_map]
    rfl
  · rw [hSkip, hBytes, List.drop_left]

namespace Pattern

/-
  In bytes that start with the string of a type, at any
  nesting, just that string is skipped, and the matcher
  skips in texts as the loop does in bytes. A reader at a
  type that its limit allows takes the type, and a reader
  that took a type was moved over what is skipped.
-/
theorem skip_eq_length_taken :
    (∀ (type : Ty) (behind : List UInt8),
        skip (type.encode ++ behind) =
          type.signature.utf8ByteSize) ∧
      (∀ bytes : List UInt8,
        skip bytes = typeLength (bytes.map Bytes.char)) ∧
      (∀ (r : Reader) (type : Ty),
        type.chars <+: r.rest →
          type.nesting ≤ r.maxDepth →
            ∃ r', r.readType false = (.ok type, r')) ∧
      ∀ (r : Reader) (type : Ty) (r' : Reader),
        r.readType false = (.ok type, r') →
          r.SkipsTo r' := by
  refine ⟨?_, skip_eq_typeLength, ?_, ?_⟩
  · intro type behind
    rw [skip_encode_append, type.utf8ByteSize_signature,
      Ty.encode, List.length_map]
  · rintro r type ⟨behind, hRest⟩ hNested
    refine ⟨r.after type.chars behind, ?_⟩
    exact
      Reader.readType_eq_ok_iff.mpr
        ⟨⟨hRest.symm, rfl⟩, hNested, by simp⟩
  · intro r type r' hRead
    exact (Reader.readType_eq_ok_iff.mp hRead).1.skipsTo

/- Both kinds of brackets, and prefixes in front of each. -/
def optionalPairs : Ty :=
  .array
    (.dictEntry (.text .string)
      (.maybe (.tuple [.byte, .array .byteString])))

/- The type between two characters of two bytes. -/
def betweenBrackets : Reader where
  rest := optionalPairs.chars ++ [')', 'ü']
  position := 2
  maxDepth := 6

/-
  Behind the type, brackets close that were not opened. Over
  bytes, what follows need not be a text.
-/
theorem skip_eq_length_taken_optionalPairs :
    optionalPairs.signature = "a\x7bsm(yaay)\x7d" ∧
      skip (optionalPairs.encode ++ [0x7D, 0xFF, 0x61]) =
        11 ∧
      ∃ r',
        betweenBrackets.readType false =
            (.ok optionalPairs, r') ∧
          betweenBrackets.SkipsTo r' ∧
          r'.position = 13 := by
  rcases skip_eq_length_taken with ⟨hSkip, _, hRead, hSkips⟩
  have hPrefix : optionalPairs.chars <+: betweenBrackets.rest :=
    List.prefix_append _ _
  rcases hRead betweenBrackets optionalPairs hPrefix
      (by decide) with
    ⟨r', hTaken⟩
  refine ⟨rfl, ?_, r', hTaken, hSkips _ _ _ hTaken, ?_⟩
  · rw [hSkip]
    rfl
  · have hRest :
        betweenBrackets.readType false =
          (.ok optionalPairs, ⟨[')', 'ü'], 13, 6⟩) :=
      rfl
    rw [hRest] at hTaken
    cases hTaken
    rfl

end Pattern

end GVariant
