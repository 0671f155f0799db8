import GVariant.Ty.Basic
import GVariant.Text.Utf8
import GVariant.Text.Quoted

/-
  Why an operation fails, and how a failure is worded.

  A failure is a cause with its data; the wording is
  `Error.message` alone. Signature errors are those that a
  malformed type string causes, the nesting limit among
  them.

  Key definitions include:
    * `DataFault`
    * `Inconsistency`
    * `Error`
    * `Error.message`
    * `Error.isSignatureError`
-/

------------------------------------------------------------
-- Malformed Data
------------------------------------------------------------

namespace GVariant

/- What is wrong with serialised data. -/
inductive DataFault
  | wrongSize (length : Nat) (typeString : String)
  | invalidBoolean (byte : UInt8)
  | unterminated (typeString : String)
  | invalidText (fault : Utf8.Fault)
  | noTypeString
  | invalidTypeString (fault : Utf8.Fault)
  | unterminatedMaybe
  | unevenArray (length size : Nat)
  | unevenTable (length size : Nat)
  | offsetOutOfRange
  | childOutside (start stop length : Nat)
  | elementDisorder (start stop : Nat)
  | tableTooLarge
  | other (message : String)
  deriving DecidableEq, Repr

namespace DataFault

/- The wording of a fault in serialised data. -/
def message : DataFault → String
| .wrongSize length typeString =>
    s!"{length} bytes are not a valid value of type '{typeString}'"
| .invalidBoolean byte =>
    s!"Invalid boolean value {byte.toNat}"
| .unterminated typeString =>
    s!"Value of type '{typeString}' is not NUL terminated"
| .invalidText fault =>
    s!"Invalid UTF-8 in string: {fault.message}"
| .noTypeString =>
    "Variant has no type string"
| .invalidTypeString fault =>
    s!"Invalid variant type string: {fault.message}"
| .unterminatedMaybe =>
    "Maybe value is missing its trailing NUL byte"
| .unevenArray length size =>
    s!"Array of {length} bytes is not a multiple of the element size {size}"
| .unevenTable length size =>
    s!"Offset table of {length} bytes is not a multiple of the offset size {size}"
| .offsetOutOfRange =>
    "Framing offset out of range"
| .childOutside start stop length =>
    s!"Child bounds {start}..{stop} exceed container of {length} bytes"
| .elementDisorder start stop =>
    s!"Array element bounds {start}..{stop} are out of order"
| .tableTooLarge =>
    "Tuple offset table too large"
| .other message => message

end DataFault

end GVariant

------------------------------------------------------------
-- Inconsistent Values
------------------------------------------------------------

namespace GVariant

/- How a value contradicts its own type. -/
inductive Inconsistency
  | wrongContent (type : Ty)
  | malformedEntry
  | other (message : String)
  deriving DecidableEq, Repr

namespace Inconsistency

/- The wording of an inconsistency. -/
def message : Inconsistency → String
| .wrongContent type =>
    s!"variant of type '{type.signature}' does not hold a value of its type"
| .malformedEntry =>
    s!"malformed {Ty.vardict.signature} entry"
| .other message => message

end Inconsistency

end GVariant

------------------------------------------------------------
-- Errors
------------------------------------------------------------

namespace GVariant

/- The causes of failure. -/
inductive Error
  | emptySignature
  | unexpectedCharacter
      (character : Char) (position : Nat)
  | simpleTypeExpected
      (character : Char) (position : Nat)
  | unterminatedTuple
  | missingTupleClose (found : Option Char)
  | missingDictClose (found : Option Char)
  | trailingSignatureData (remaining : String)
  | maxNestingExceeded (limit : Nat)
  | assertion (inconsistency : Inconsistency)
  | typeMismatch (expected found : String)
  | outOfRange (value : String) (typeChar : Char)
  | invalidObjectPath (path : String)
  | invalidSignatureString (signature : String)
  | invalidString (text : String)
  | data (fault : DataFault)
  | conversion (reason : String)
  deriving DecidableEq, Repr

namespace Error

/- Whether a malformed type string is the cause. -/
def isSignatureError : Error → Bool
| .emptySignature
| .unexpectedCharacter _ _
| .simpleTypeExpected _ _
| .unterminatedTuple
| .missingTupleClose _
| .missingDictClose _
| .trailingSignatureData _
| .maxNestingExceeded _ => true
| _ => false

/- A character that was found, or the lack of one. -/
def foundText : Option Char → String
| some c => s!"'{c}'"
| none => "end of signature"

/- The wording of an error. -/
def message : Error → String
| .emptySignature =>
    "GVariant signature cannot be empty"
| .unexpectedCharacter character position =>
    s!"Invalid GVariant signature (unexpected character '{character}' at position {position})"
| .simpleTypeExpected character position =>
    s!"Invalid GVariant signature (a simple type was expected, found '{character}' at position {position})"
| .unterminatedTuple =>
    "Invalid GVariant signature for type TUPLE (expected ')' before end of signature)"
| .missingTupleClose found =>
    s!"Invalid GVariant signature for type TUPLE (expected ')', found {foundText found})"
| .missingDictClose found =>
    s!"Invalid GVariant signature for type DICT_ENTRY (expected '\x7d', found {foundText found})"
| .trailingSignatureData remaining =>
    s!"Invalid GVariant signature (more than one single complete type, '{remaining}' remains)"
| .maxNestingExceeded limit =>
    s!"Maximum nesting depth of {limit} exceeded"
| .assertion inconsistency =>
    s!"Assertion failure: {inconsistency.message}"
| .typeMismatch expected found =>
    s!"Expected {expected}, found {found}"
| .outOfRange value typeChar =>
    s!"Value {value} is out of range for type '{typeChar}'"
| .invalidObjectPath path =>
    s!"Invalid object path: '{path}'"
| .invalidSignatureString signature =>
    s!"Invalid signature string: '{signature}'"
| .invalidString text =>
    s!"String contains an interior NUL byte: {String.ofList (Quoted.double text)}"
| .data fault =>
    s!"Invalid GVariant data: {fault.message}"
| .conversion reason =>
    s!"Error converting ZVariant data: {reason}"

end Error

end GVariant
