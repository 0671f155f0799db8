import GVariant.Number.Text
import GVariant.Text.Invisible

/-
  Texts between quotes.

  Values are shown between single quotes; quotes,
  backslashes and control characters are escaped there, the
  latter as `\u` and four hexadecimal digits. Host values
  and messages are shown between double quotes; invisible
  characters are escaped there with their number in braces.

  Key definitions include:
    * `Quoted.single`
    * `Quoted.double`
-/

------------------------------------------------------------
-- Single Quotes
------------------------------------------------------------

namespace GVariant

namespace Quoted

/- Whether a character controls a device. -/
def isControl (c : Char) : Bool :=
  c.toNat < 0x20 || (0x7F ≤ c.toNat && c.toNat < 0xA0)

/- A character inside single quotes. -/
def singleChar (c : Char) : List Char :=
  match c with
  | '\x27' => ['\\', '\x27']
  | '\\' => ['\\', '\\']
  | '\n' => ['\\', 'n']
  | '\t' => ['\\', 't']
  | '\r' => ['\\', 'r']
  | c =>
      if isControl c then
        '\\' :: 'u' :: Numeral.hex 4 c.toNat
      else
        [c]

/- A text between single quotes. -/
def single (text : List Char) : List Char :=
  '\x27' :: (text.flatMap singleChar ++ ['\x27'])

end Quoted

end GVariant

------------------------------------------------------------
-- Double Quotes
------------------------------------------------------------

namespace GVariant

namespace Quoted

/- A character inside double quotes. -/
def doubleChar (c : Char) : List Char :=
  match c with
  | '\x22' => ['\\', '\x22']
  | '\\' => ['\\', '\\']
  | '\n' => ['\\', 'n']
  | '\t' => ['\\', 't']
  | '\r' => ['\\', 'r']
  | '\x00' => ['\\', '0']
  | c =>
      if isInvisible c then
        '\\' :: 'u' :: '{' :: (Numeral.hex 1 c.toNat ++ ['}'])
      else
        [c]

/- A text between double quotes. -/
def double (text : String) : List Char :=
  '\x22' :: (text.toList.flatMap doubleChar ++ ['\x22'])

end Quoted

end GVariant
