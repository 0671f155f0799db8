import GVariant.Text.Utf8

/-
  Object paths.

  A path is a single slash, or one or more segments, each a
  slash followed by at least one ASCII letter, digit or
  underscore. The check can be made in one pass over the
  characters, or name by name over the bytes.

  Key definitions include:
    * `ObjectPath.isNameChar`
    * `isObjectPath`
    * `ObjectPath.checkByNames`
-/

------------------------------------------------------------
-- Object Paths
------------------------------------------------------------

namespace GVariant

namespace ObjectPath

/- The characters of a segment: ASCII only. -/
def isNameChar (c : Char) : Bool :=
  c.isAlphanum || c == '_'

/-
  Whether a text is the rest of a path. `named` tells
  whether the current segment has a character already; a
  segment may end only if it has.
-/
def isRest : (named : Bool) → List Char → Bool
| named, [] => named
| named, c :: text =>
    if c = '/' then
      named && isRest false text
    else
      isNameChar c && isRest true text

end ObjectPath

/- Whether a text is an object path. -/
def isObjectPath (text : String) : Bool :=
  match text.toList with
  | ['/'] => true
  | '/' :: rest => ObjectPath.isRest false rest
  | _ => false

end GVariant

------------------------------------------------------------
-- Name By Name
------------------------------------------------------------

namespace GVariant

namespace ObjectPath

/- The bytes of [A-Za-z0-9_]. -/
def isNameByte (byte : UInt8) : Bool :=
  (0x41 ≤ byte && byte ≤ 0x5A) ||
    (0x61 ≤ byte && byte ≤ 0x7A) ||
    (0x30 ≤ byte && byte ≤ 0x39) || byte == 0x5F

/- A part of a text has bytes, and they may be in names. -/
def checkName (name : List Char) : Bool :=
  !name.isEmpty &&
    (Utf8.encode (String.ofList name)).all isNameByte

/-
  The root is a path, and any other text is one if it starts
  with a slash and the slashes behind it split it into
  names.
-/
def checkByNames (text : String) : Bool :=
  text == "/" ||
    match text.toList with
    | '/' :: rest => (rest.splitOn '/').all checkName
    | _ => false

end ObjectPath

end GVariant
