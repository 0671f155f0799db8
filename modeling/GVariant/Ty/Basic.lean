import GVariant.TypeClass

/-
  Types as trees, their type strings and their parts.

  A type is a basic type, the boxed type `v`, or is built
  from other types. A dictionary entry has a basic type as
  its key by construction. The type string of a type is
  `Ty.chars`; two types are equal exactly when their type
  strings are.

  Key definitions include:
    * `Ty`
    * `Ty.chars`
    * `Ty.signature`
    * `Ty.element?`
    * `Ty.items`
    * `ArrayKind.of?`
-/

------------------------------------------------------------
-- Type Trees
------------------------------------------------------------

namespace GVariant

/- A single complete type. -/
inductive Ty
  | basic (type : BasicType)
  | variant
  | maybe (element : Ty)
  | array (element : Ty)
  | tuple (items : List Ty)
  | dictEntry (key : BasicType) (value : Ty)
  deriving Repr, Inhabited

namespace Ty

/- The type of booleans. -/
abbrev boolean : Ty :=
  .basic .boolean

/- The type of the integers of a kind. -/
abbrev int (kind : IntKind) : Ty :=
  .basic (.int kind)

/- The type of bytes. -/
abbrev byte : Ty :=
  .int .byte

/- The type of doubles. -/
abbrev double : Ty :=
  .basic .double

/- The type of the texts of a kind. -/
abbrev text (kind : TextKind) : Ty :=
  .basic (.text kind)

/- The type of strings. -/
abbrev string : Ty :=
  .text .string

/- The type of the empty tuple. -/
abbrev unit : Ty :=
  .tuple []

/- The type of string arrays. -/
abbrev strings : Ty :=
  .array string

/- The type of byte arrays. -/
abbrev byteString : Ty :=
  .array byte

/- An entry of a dictionary of boxed values. -/
abbrev vardictEntry : Ty :=
  .dictEntry (.text .string) .variant

/- A dictionary of boxed values with string keys. -/
abbrev vardict : Ty :=
  .array vardictEntry

end Ty

end GVariant

------------------------------------------------------------
-- Decidable Equality
------------------------------------------------------------

namespace GVariant

namespace Ty

mutual

/- Structural comparison of two types. -/
def same : Ty → Ty → Bool
| .basic a, .basic b => a == b
| .variant, .variant => true
| .maybe a, .maybe b => same a b
| .array a, .array b => same a b
| .tuple as, .tuple bs => sameAll as bs
| .dictEntry j a, .dictEntry k b => j == k && same a b
| _, _ => false

/- Structural comparison of two lists of types. -/
def sameAll : List Ty → List Ty → Bool
| [], [] => true
| a :: as, b :: bs => same a b && sameAll as bs
| _, _ => false

end

mutual

theorem same_iff :
    (a b : Ty) → (same a b = true ↔ a = b)
| .basic a, b => by
    cases b <;> simp [same]
| .variant, b => by
    cases b <;> simp [same]
| .maybe a, b => by
    cases b <;> simp [same, same_iff a]
| .array a, b => by
    cases b <;> simp [same, same_iff a]
| .tuple as, b => by
    cases b <;> simp [same, sameAll_iff as]
| .dictEntry j a, b => by
    cases b <;> simp [same, same_iff a]

theorem sameAll_iff :
    (as bs : List Ty) → (sameAll as bs = true ↔ as = bs)
| [], bs => by
    cases bs <;> simp [sameAll]
| a :: as, bs => by
    cases bs <;>
      simp [sameAll, same_iff a, sameAll_iff as]

end

instance : DecidableEq Ty :=
  fun a b =>
    decidable_of_iff (same a b = true) (same_iff a b)

end Ty

end GVariant

------------------------------------------------------------
-- Type Strings
------------------------------------------------------------

namespace GVariant

namespace Ty

mutual

/- The characters of the type string. -/
def chars : Ty → List Char
| .basic type => [type.char]
| .variant => ['v']
| .maybe element => 'm' :: element.chars
| .array element => 'a' :: element.chars
| .tuple items => '(' :: (charsAll items ++ [')'])
| .dictEntry key value =>
    '{' :: key.char :: (value.chars ++ ['}'])

/- The characters of several type strings in a row. -/
def charsAll : List Ty → List Char
| [] => []
| item :: items => item.chars ++ charsAll items

end

/- The type string. -/
def signature (type : Ty) : String :=
  String.ofList type.chars

/- The type as diagnostics show it. -/
def debugText (type : Ty) : String :=
  s!"VariantType(\x22{type.signature}\x22)"

/- The class of a type. -/
def cls : Ty → TypeClass
| .basic type => .basic type
| .variant => .variant
| .maybe _ => .maybe
| .array _ => .array
| .tuple _ => .tuple
| .dictEntry _ _ => .dictEntry

/- Whether the type has no members. -/
def isBasic (type : Ty) : Bool :=
  type.cls.isBasic

/- Whether values of the type hold other values. -/
def isContainer (type : Ty) : Bool :=
  type.cls.isContainer

end Ty

end GVariant

------------------------------------------------------------
-- Parts Of A Type
------------------------------------------------------------

namespace GVariant

namespace Ty

/- The element type of an array or a maybe. -/
def element? : Ty → Option Ty
| .array element => some element
| .maybe element => some element
| _ => none

/-
  The member types of a tuple or a dictionary entry. Other
  types have none.
-/
def items : Ty → List Ty
| .tuple items => items
| .dictEntry key value => [.basic key, value]
| _ => []

/- The key type of a dictionary entry. -/
def key? : Ty → Option Ty
| .dictEntry key _ => some (.basic key)
| _ => none

/- The value type of a dictionary entry. -/
def value? : Ty → Option Ty
| .dictEntry _ value => some value
| _ => none

end Ty

/- What an array becomes as a host value. -/
inductive ArrayKind
  | dictionary
  | bytes
  | generic
  deriving DecidableEq, Repr

namespace ArrayKind

/- The kind of an array type; other types have none. -/
def of? : Ty → Option ArrayKind
| .array (.dictEntry _ _) => some .dictionary
| .array (.basic (.int .byte)) => some .bytes
| .array _ => some .generic
| _ => none

end ArrayKind

end GVariant
