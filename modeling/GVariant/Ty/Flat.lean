import GVariant.Signature.Reader
import GVariant.Ty.Layout

/-
  Types kept as texts.

  A type can be kept as its type string and its class alone.
  Its constructors then put strings together, and its parts
  are read again from inside of the string, up to the first
  text that is no type. The layout of its values is found
  anew from the parts.

  Key definitions include:
    * `FlatType`
    * `Ty.flat`
    * `FlatType.parts`
    * `FlatType.layout`
-/

------------------------------------------------------------
-- Flat Types
------------------------------------------------------------

namespace GVariant

/- A type as its type string and its class. -/
structure FlatType where
  chars : List Char
  cls : TypeClass
  deriving DecidableEq, Repr

/- The flat form of a type. -/
def Ty.flat (type : Ty) : FlatType where
  chars := type.chars
  cls := type.cls

namespace FlatType

/- The type string. -/
def signature (type : FlatType) : String :=
  String.ofList type.chars

/- The type of maybes of an element type. -/
def maybe (element : FlatType) : FlatType where
  chars := 'm' :: element.chars
  cls := .maybe

/- The type of arrays of an element type. -/
def array (element : FlatType) : FlatType where
  chars := 'a' :: element.chars
  cls := .array

/- The type of tuples of some member types. -/
def tuple (items : List FlatType) : FlatType where
  chars := '(' :: (items.flatMap chars ++ [')'])
  cls := .tuple

/- A dictionary entry type. Its key must be basic. -/
def entry
    (key value : FlatType) : Except Error FlatType :=
  if key.cls.isBasic then
    .ok
      { chars := '{' :: (key.chars ++ value.chars ++ ['}'])
        cls := .dictEntry }
  else
    .error (.simpleTypeExpected key.cls.char 1)

end FlatType

end GVariant

------------------------------------------------------------
-- Parts Read Again
------------------------------------------------------------

namespace GVariant

namespace FlatType

/-
  Read types up to the end of the text or to the first that
  cannot be read. Every round takes a character.
-/
def readParts : (rounds : Nat) → Reader → List FlatType
| 0, _ => []
| rounds + 1, r =>
    if r.isEmpty then
      []
    else
      match r.readType false with
      | (.error _, _) => []
      | (.ok type, r') => type.flat :: readParts rounds r'

/-
  The types in a text. No text nests deeper than it is long,
  so its length is no limit.
-/
def parts (text : List Char) : List FlatType :=
  readParts text.length (.ofChars text text.length)

/- The element type of an array or a maybe. -/
def element? (type : FlatType) : Option FlatType :=
  match type.cls with
  | .array => (parts type.chars.tail).head?
  | .maybe => (parts type.chars.tail).head?
  | _ => none

/- The member types of a tuple or a dictionary entry. -/
def items (type : FlatType) : List FlatType :=
  match type.cls with
  | .tuple => parts type.chars.tail.dropLast
  | .dictEntry => parts type.chars.tail.dropLast
  | _ => []

/- The key type of a dictionary entry. -/
def key? (type : FlatType) : Option FlatType :=
  match type.cls with
  | .dictEntry => type.items[0]?
  | _ => none

/- The value type of a dictionary entry. -/
def value? (type : FlatType) : Option FlatType :=
  match type.cls with
  | .dictEntry => type.items[1]?
  | _ => none

end FlatType

end GVariant

------------------------------------------------------------
-- Layout
------------------------------------------------------------

namespace GVariant

namespace FlatType

/-
  The layout of the values of a type that may have as many
  levels as given, itself included.
-/
def layoutLevels : (levels : Nat) → FlatType → Layout
| 0, _ => .varying 1
| levels + 1, type =>
    match type.cls with
    | .basic basic => basic.layout
    | .variant => .varying 8
    | .maybe | .array =>
        match type.element? with
        | some element =>
            .varying (layoutLevels levels element).alignment
        | none => .varying 1
    | .tuple | .dictEntry =>
        .tuple (type.items.map (layoutLevels levels))

/-
  The layout of the values of a type, which nests less deep
  than its type string is long.
-/
def layout (type : FlatType) : Layout :=
  layoutLevels type.chars.length type

/- Whether all values of the type have the same size. -/
def isFixedSize (type : FlatType) : Bool :=
  type.layout.isFixed

end FlatType

end GVariant
