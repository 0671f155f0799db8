import GVariant.Value.Basic
import GVariant.Variant.Text

/-
  The text of a host value, as messages show it.

  Key definitions include:
    * `Value.render`
    * `Value.toText`
-/

------------------------------------------------------------
-- Text Of Values
------------------------------------------------------------

namespace GVariant

namespace Value

mutual

/- The characters of the text of a value. -/
def render : Value → List Char
| .null => ['n', 'u', 'l', 'l']
| .bool value => (toString value).toList
| .int value => (toString value.toInt).toList
| .uint value => (toString value.toNat).toList
| .double value => (NumberStyle.general.render value).toList
| .string value => Quoted.double value
| .bytes content =>
    let items :=
      content.map fun byte => (toString byte.toNat).toList
    'b' :: '[' :: (commaSeparated items ++ [']'])
| .array items =>
    '[' :: (commaSeparated (renderAll items) ++ [']'])
| .map entries =>
    '{' :: (commaSeparated (renderEntries entries) ++ ['}'])
| .variant value => '<' :: (value.render ++ ['>'])

/- The texts of several values. -/
def renderAll : List Value → List (List Char)
| [] => []
| item :: items => item.render :: renderAll items

/- The texts of the entries of a map. -/
def renderEntries :
    List (String × Value) → List (List Char)
| [] => []
| (key, value) :: entries =>
    (Quoted.double key ++ ':' :: ' ' :: value.render) ::
      renderEntries entries

end

/- The text of a value. -/
def toText (value : Value) : String :=
  String.ofList value.render

end Value

end GVariant
