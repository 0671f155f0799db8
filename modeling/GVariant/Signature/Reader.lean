import GVariant.Error

/-
  Reading single complete types from a signature.

  A reader stands at a position in a signature, counted in
  bytes, and refuses containers nested deeper than its
  limit. Every step returns the reader where the step left
  it, also when the step failed. `Reader.read` recurs on the
  levels of nesting that are left; the members of a tuple
  are read in a loop that takes at least one character a
  round.

  Key definitions include:
    * `Reader`
    * `Reader.peek?`
    * `Reader.pop`
    * `Reader.read`
    * `Reader.readAt`
    * `Reader.readType`
    * `Reader.expectEnd`
-/

------------------------------------------------------------
-- Readers
------------------------------------------------------------

namespace GVariant

/- The default limit of container nesting. -/
def defaultMaxDepth : Nat :=
  64

/-
  A position in a signature: the unread characters, the
  number of bytes before them, and the nesting limit.
-/
structure Reader where
  rest : List Char
  position : Nat
  maxDepth : Nat
  deriving DecidableEq, Repr

/- The result of a step, and the reader after it. -/
abbrev Step (α : Type) :=
  Except Error α × Reader

namespace Reader

/- A reader at the start of some characters. -/
def ofChars
    (text : List Char)
    (maxDepth : Nat) : Reader :=
  ⟨text, 0, maxDepth⟩

/- A reader at the start of a signature. -/
def ofString
    (signature : String)
    (maxDepth : Nat := defaultMaxDepth) : Reader :=
  ofChars signature.toList maxDepth

/- Whether all characters have been taken. -/
def isEmpty (r : Reader) : Bool :=
  r.rest.isEmpty

/- The unread rest of the signature. -/
def remaining (r : Reader) : String :=
  String.ofList r.rest

/- The next character, which stays unread. -/
def peek? (r : Reader) : Option Char :=
  r.rest.head?

/- Take the next character. -/
def pop (r : Reader) : Option Char × Reader :=
  match r.rest with
  | [] => (none, r)
  | c :: rest =>
      (some c,
        { r with
          rest := rest
          position := r.position + c.utf8Size })

/- The failure to go deeper than the limit. -/
def nestingError (r : Reader) : Error :=
  .maxNestingExceeded r.maxDepth

/- Fail unless all characters have been taken. -/
def expectEnd (r : Reader) : Except Error Unit :=
  if r.isEmpty then
    .ok ()
  else
    .error (.trailingSignatureData r.remaining)

end Reader

end GVariant

------------------------------------------------------------
-- Reading Types
------------------------------------------------------------

namespace GVariant

namespace Reader

/- Read a basic type, as the key of an entry must be. -/
def readBasic
    (levels : Nat)
    (r : Reader) : Step BasicType :=
  if levels = 0 then
    (.error r.nestingError, r)
  else
    match r.pop with
    | (none, r') => (.error .emptySignature, r')
    | (some c, r') =>
        match TypeClass.ofChar? c with
        | some (.basic type) => (.ok type, r')
        | _ =>
            (.error (.simpleTypeExpected c r.position), r')

/- Take the closing brace of a dictionary entry. -/
def closeEntry (r : Reader) : Step Unit :=
  match r.pop with
  | (some '}', r') => (.ok (), r')
  | (found, r') => (.error (.missingDictClose found), r')

/-
  Read the members of a tuple up to its closing
  parenthesis. Every round takes a character, so as many
  rounds as there are unread characters suffice.
-/
def readMembers
    (readMember : Reader → Step Ty) :
    (rounds : Nat) → Reader → Step (List Ty)
| 0, r => (.error .unterminatedTuple, r)
| rounds + 1, r =>
    match r.peek? with
    | none => (.error .unterminatedTuple, r)
    | some ')' => (.ok [], r.pop.2)
    | some _ =>
        match readMember r with
        | (.error e, r') => (.error e, r')
        | (.ok member, r') =>
            match readMembers readMember rounds r' with
            | (.error e, r'') => (.error e, r'')
            | (.ok members, r'') =>
                (.ok (member :: members), r'')

/-
  Read one single complete type that may have as many
  levels as given, itself included.
-/
def read : (levels : Nat) → Reader → Step Ty
| 0, r => (.error r.nestingError, r)
| levels + 1, r =>
    match r.pop with
    | (none, r') => (.error .emptySignature, r')
    | (some c, r') =>
        match TypeClass.ofChar? c with
        | none =>
            (.error (.unexpectedCharacter c r.position), r')
        | some (.basic type) => (.ok (.basic type), r')
        | some .variant => (.ok .variant, r')
        | some .maybe =>
            match read levels r' with
            | (.error e, r'') => (.error e, r'')
            | (.ok element, r'') => (.ok (.maybe element), r'')
        | some .array =>
            match read levels r' with
            | (.error e, r'') => (.error e, r'')
            | (.ok element, r'') => (.ok (.array element), r'')
        | some .tuple =>
            match readMembers (read levels)
                r'.rest.length r' with
            | (.error e, r'') => (.error e, r'')
            | (.ok items, r'') => (.ok (.tuple items), r'')
        | some .dictEntry =>
            match readBasic levels r' with
            | (.error e, r'') => (.error e, r'')
            | (.ok key, r'') =>
                match read levels r'' with
                | (.error e, s) => (.error e, s)
                | (.ok value, s) =>
                    match closeEntry s with
                    | (.error e, s') => (.error e, s')
                    | (.ok (), s') =>
                        (.ok (.dictEntry key value), s')

/- The levels that a reader has left at a depth. -/
def levelsAt (r : Reader) (depth : Nat) : Nat :=
  r.maxDepth + 1 - depth

/- Read a type at a depth below the outermost. -/
def readAt (r : Reader) (depth : Nat) : Step Ty :=
  read (r.levelsAt depth) r

/-
  Read one single complete type. With `forceSimple` it must
  be a basic type.
-/
def readType
    (r : Reader)
    (forceSimple : Bool) : Step Ty :=
  if forceSimple then
    match readBasic (r.levelsAt 0) r with
    | (.error e, r') => (.error e, r')
    | (.ok type, r') => (.ok (.basic type), r')
  else
    r.readAt 0

end Reader

end GVariant
