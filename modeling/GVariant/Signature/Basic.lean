import GVariant.Signature.Reader

/-
  Whole signatures: one type, or a list of types.

  Key definitions include:
    * `Ty.parse`
    * `Signature.split`
    * `Signature.length`
    * `isSignature`
-/

------------------------------------------------------------
-- One Type
------------------------------------------------------------

namespace GVariant

namespace Reader

/- Read one type that is all of the unread text. -/
def readWhole (r : Reader) : Except Error Ty :=
  match r.readType false with
  | (.error e, _) => .error e
  | (.ok type, r') =>
      match r'.expectEnd with
      | .error e => .error e
      | .ok () => .ok type

end Reader

namespace Ty

/- The type of a type string. -/
def parse (signature : String) : Except Error Ty :=
  (Reader.ofString signature).readWhole

/- A dictionary entry type. Its key must be basic. -/
def entry (key value : Ty) : Except Error Ty :=
  match key with
  | .basic type => .ok (.dictEntry type value)
  | _ => .error (.simpleTypeExpected key.cls.char 1)

end Ty

end GVariant

------------------------------------------------------------
-- Lists Of Types
------------------------------------------------------------

namespace GVariant

namespace Signature

/-
  Read types to the end of the text. Every round takes a
  character, so as many rounds as there are unread
  characters suffice.
-/
def readAll :
    (rounds : Nat) → Reader → Except Error (List Ty)
| 0, _ => .ok []
| rounds + 1, r =>
    if r.isEmpty then
      .ok []
    else
      match r.readType false with
      | (.error e, _) => .error e
      | (.ok type, r') =>
          match readAll rounds r' with
          | .error e => .error e
          | .ok types => .ok (type :: types)

/- The single complete types of a signature. -/
def split (signature : String) : Except Error (List Ty) :=
  let r := Reader.ofString signature
  readAll r.rest.length r

/- The number of single complete types in a signature. -/
def length (signature : String) : Except Error Nat :=
  (split signature).map List.length

end Signature

/-
  Whether a text is a row of zero or more single complete
  types.
-/
def isSignature (text : String) : Bool :=
  match Signature.split text with
  | .ok _ => true
  | .error _ => false

end GVariant
