import GVariant.Variant.Basic
import GVariant.Number.Text

/-
  The text of a variant.

  Types are not shown. Strings stand between single quotes;
  bytes that end in their only NUL and are printable before
  it are shown as a text after `b`, other bytes as a list.
  An inner maybe that is present is marked by `just` when
  it holds a maybe itself.

  Key definitions include:
    * `Variant.render`
    * `Variant.toText`
    * `Variant.debugText`
-/

------------------------------------------------------------
-- Lists
------------------------------------------------------------

namespace GVariant

/- Texts with a comma and a space between them. -/
def commaSeparated : List (List Char) → List Char
| [] => []
| item :: items =>
    item ++ items.flatMap fun item => ',' :: ' ' :: item

end GVariant

------------------------------------------------------------
-- Scalars And Bytes
------------------------------------------------------------

namespace GVariant

/- A byte as two hexadecimal digits. -/
def hexByte (n : Nat) : List Char :=
  '0' :: 'x' :: Numeral.hex 2 n

namespace Scalar

/- The text of a scalar. -/
def render : Scalar → List Char
| .boolean value => (toString value).toList
| .int .byte word => hexByte word.toNat
| .int kind word => (toString (kind.value word)).toList
| .double value => (NumberStyle.general.render value).toList
| .text _ value => Quoted.single value.toList

end Scalar

namespace Variant

/- Whether a byte is a printable ASCII character. -/
def isPrintableByte (byte : UInt8) : Bool :=
  0x20 ≤ byte && byte ≤ 0x7E

/-
  The text before the final NUL of bytes, if all of it is
  printable ASCII.
-/
def printableText? (content : List UInt8) :
    Option (List Char) :=
  match content.getLast? with
  | some 0 =>
      let before := content.dropLast
      if before.all isPrintableByte then
        some (before.map fun byte => Char.ofNat byte.toNat)
      else
        none
  | _ => none

/- The text of a byte array. -/
def renderBytes (content : List UInt8) : List Char :=
  match printableText? content with
  | some text => 'b' :: Quoted.single text
  | none =>
      let items :=
        content.map fun byte => hexByte byte.toNat
      '[' :: (commaSeparated items ++ [']'])

end Variant

end GVariant

------------------------------------------------------------
-- Variants
------------------------------------------------------------

namespace GVariant

namespace Variant

mutual

/- The characters of the text of a variant. -/
def render : Variant → List Char
| .scalar value => value.render
| .boxed child => '<' :: (child.render ++ ['>'])
| .nothing _ => ['n', 'o', 't', 'h', 'i', 'n', 'g']
| .just child =>
    if child.cls = .maybe then
      'j' :: 'u' :: 's' :: 't' :: ' ' :: child.render
    else
      child.render
| .bytes content => renderBytes content
| .arrayOf (.dictEntry _ _) children =>
    '{' :: (commaSeparated (renderEntries children) ++ ['}'])
| .arrayOf _ children =>
    '[' :: (commaSeparated (renderAll children) ++ [']'])
| .tuple [child] => '(' :: (child.render ++ [',', ')'])
| .tuple children =>
    '(' :: (commaSeparated (renderAll children) ++ [')'])
| .entry key value =>
    '{' :: (key.render ++ ',' :: ' ' :: (value.render ++ ['}']))

/- The texts of several variants. -/
def renderAll : List Variant → List (List Char)
| [] => []
| child :: children => child.render :: renderAll children

/-
  The texts of the entries of a dictionary. Only entries
  are shown.
-/
def renderEntries : List Variant → List (List Char)
| [] => []
| .entry key value :: children =>
    (key.render ++ ':' :: ' ' :: value.render) ::
      renderEntries children
| _ :: children => renderEntries children

end

/- The text of a variant. -/
def toText (v : Variant) : String :=
  String.ofList v.render

/- The text of a variant with its type. -/
def debugText (v : Variant) : String :=
  s!"Variant \x7b type: {v.type.signature}, value: {v.toText} \x7d"

end Variant

end GVariant
