import GVariant.Ty.Basic

/-
  Matching types against patterns.

  A pattern is a type string in which `*` stands for any
  single complete type, `?` for any basic type and `r` for
  any tuple. A type string is matched character by
  character; a wildcard skips one whole type, found by
  counting brackets. The length can also be found by a loop
  over the bytes of the type string.

  Key definitions include:
    * `Pattern.typeLength`
    * `Pattern.skip`
    * `Pattern.matchChars`
    * `Ty.isSubtypeOf`
    * `Pattern.any` and the other named patterns
-/

------------------------------------------------------------
-- Named Patterns
------------------------------------------------------------

namespace GVariant

namespace Pattern

/- Any type. -/
def any : String :=
  "*"

/- Any basic type. -/
def basic : String :=
  "?"

/- Any tuple type. -/
def tuple : String :=
  "r"

/- Any maybe type. -/
def maybe : String :=
  "m*"

/- Any array type. -/
def array : String :=
  "a*"

/- Any dictionary entry type. -/
def dictEntry : String :=
  "\x7b?*\x7d"

/- Any dictionary type. -/
def dictionary : String :=
  "a\x7b?*\x7d"

end Pattern

end GVariant

------------------------------------------------------------
-- Matching
------------------------------------------------------------

namespace GVariant

namespace Pattern

/-
  The length of the first type of a text inside `pending`
  open brackets. A leading `a` or `m` belongs to the type
  that follows it.
-/
def typeLengthFrom : (pending : Nat) → List Char → Nat
| _, [] => 0
| pending, c :: text =>
    if c = 'a' ∨ c = 'm' then
      typeLengthFrom pending text + 1
    else
      let pending' :=
        if c = '(' ∨ c = '{' then
          pending + 1
        else if c = ')' ∨ c = '}' then
          pending - 1
        else
          pending
      if pending' = 0 then
        1
      else
        typeLengthFrom pending' text + 1

/- The length of the first type of a text. -/
def typeLength (text : List Char) : Nat :=
  typeLengthFrom 0 text

/-
  The bytes that are passed when the first type of some
  bytes ends, with the brackets that are open and the bytes
  that were passed before. A bracket that closes none is
  passed like a character.
-/
def skipFrom :
    (brackets passed : Nat) → List UInt8 → Nat
| _, passed, [] => passed
| brackets, passed, byte :: bytes =>
    if byte = 'a'.toUInt8 ∨ byte = 'm'.toUInt8 then
      skipFrom brackets (passed + 1) bytes
    else
      let brackets' :=
        if byte = '('.toUInt8 ∨ byte = '{'.toUInt8 then
          brackets + 1
        else if byte = ')'.toUInt8 ∨ byte = '}'.toUInt8 then
          brackets - 1
        else
          brackets
      if brackets' = 0 then
        passed + 1
      else
        skipFrom brackets' (passed + 1) bytes

/- The length of the first type of some bytes. -/
def skip (bytes : List UInt8) : Nat :=
  skipFrom 0 0 bytes

/-
  Whether a wildcard stands for the first type of a text,
  which starts with `c` and has the given length.
-/
def wildcardMatches
    (wildcard c : Char)
    (length : Nat) : Bool :=
  if wildcard = '*' then
    true
  else if wildcard = '?' then
    length == 1 &&
      match TypeClass.ofChar? c with
      | some cls => cls.isBasic
      | none => false
  else if wildcard = 'r' then
    c == '('
  else
    false

/-
  Match a type string. A character stands for itself
  wherever it occurs; a wildcard stands for a type, so it
  matches no closing bracket.
-/
def matchChars : (pattern text : List Char) → Bool
| [], text => text.isEmpty
| _ :: _, [] => false
| p :: pattern, c :: text =>
    if c = p then
      matchChars pattern text
    else if c = ')' ∨ c = '}' then
      false
    else
      let length := typeLength (c :: text)
      wildcardMatches p c length &&
        matchChars pattern ((c :: text).drop length)

end Pattern

namespace Ty

/- Whether a type matches a pattern. -/
def isSubtypeOf (type : Ty) (pattern : String) : Bool :=
  Pattern.matchChars pattern.toList type.chars

end Ty

end GVariant
