import GVariant.Value.Scalar

/-
  What packing and unpacking are parametrised by.

  A codec says what a string means where the signature
  asks for a byte array, and what a byte array becomes as a
  host value. A conversion is a codec together with the
  limit of nesting.

  Key definitions include:
    * `Codec`
    * `Codec.nulTerminated`
    * `Conversion`
-/

------------------------------------------------------------
-- Codecs
------------------------------------------------------------

namespace GVariant

/- The bytes of strings, and the values of byte arrays. -/
structure Codec where
  bytesOfText : String → List UInt8
  valueOfBytes : List UInt8 → Value := .bytes

namespace Codec

/- UTF-8 with a final NUL, which is not doubled. -/
def nulTerminated : Codec where
  bytesOfText text :=
    let content := Utf8.encode text
    if content.getLast? = some 0 then
      content
    else
      content ++ [0]

/- UTF-8 as it is. -/
def utf8 : Codec where
  bytesOfText := Utf8.encode

/-
  One byte for each character, and back. A character beyond
  the first 256 keeps its lowest byte.
-/
def latin1 : Codec where
  bytesOfText text :=
    text.toList.map fun c => UInt8.ofNat c.toNat
  valueOfBytes content :=
    .string
      (String.ofList
        (content.map fun byte => Char.ofNat byte.toNat))

end Codec

end GVariant

------------------------------------------------------------
-- Conversions
------------------------------------------------------------

namespace GVariant

/- A limit of nesting and a codec. -/
structure Conversion where
  maxDepth : Nat := defaultMaxDepth
  codec : Codec := .nulTerminated

namespace Conversion

/- The default limit and codec. -/
def standard : Conversion :=
  {}

/- The failure to go deeper than the limit. -/
def nestingError (conv : Conversion) : Error :=
  .maxNestingExceeded conv.maxDepth

end Conversion

end GVariant
