import GVariant.Adapters.JsonNumber

/-
  Reading JSON texts.

  Containers may nest 127 deep. Escapes of surrogates must
  come in pairs, and control characters must be escaped. The
  recursion is on the levels of nesting that are left; items
  and members are read in loops that take at least one
  character a round.

  This module stands for a package that reads JSON texts.
  The model does not use it and no result is about it; it
  serves programs that run the model on documents.

  Key definitions include:
    * `Json.readText?`
    * `Json.readNumeral?`
    * `Json.read?`
    * `Json.parse?`
-/

------------------------------------------------------------
-- Tokens
------------------------------------------------------------

namespace GVariant

namespace Json

/- Whether a character separates tokens. -/
def isBlank (c : Char) : Bool :=
  c = ' ' ∨ c = '\n' ∨ c = '\t' ∨ c = '\r'

/- The text from the first character that is not blank. -/
def skipBlanks (text : List Char) : List Char :=
  text.dropWhile isBlank

/- The text behind a word that it must begin with. -/
def afterWord? (word text : List Char) : Option (List Char) :=
  if word.isPrefixOf text then
    some (text.drop word.length)
  else
    none

end Json

end GVariant

------------------------------------------------------------
-- Strings
------------------------------------------------------------

namespace GVariant

namespace Json

/-
  The character of a numeric escape, whose mark is taken. A
  high surrogate must be followed by the escape of a low
  one.
-/
def readEscapedUnit?
    (text : List Char) : Option (Char × List Char) := do
  let (unit, rest) ← GVariant.Numeral.readUnit? text
  if 0xd800 ≤ unit ∧ unit < 0xdc00 then
    match rest with
    | '\\' :: 'u' :: rest =>
        let (low, rest) ← GVariant.Numeral.readUnit? rest
        if 0xdc00 ≤ low ∧ low < 0xe000 then
          some
            (Char.ofNat
              (0x10000 + (unit - 0xd800) * 0x400 +
                (low - 0xdc00)),
              rest)
        else
          none
    | _ => none
  else if 0xdc00 ≤ unit ∧ unit < 0xe000 then
    none
  else
    some (Char.ofNat unit, rest)

/- The character of an escape, whose backslash is taken. -/
def readEscape? : List Char → Option (Char × List Char)
| 'u' :: text => readEscapedUnit? text
| c :: text =>
    let plain? : Option Char :=
      match c with
      | '\x22' => some '\x22'
      | '\\' => some '\\'
      | '/' => some '/'
      | 'b' => some '\x08'
      | 'f' => some '\x0c'
      | 'n' => some '\n'
      | 'r' => some '\r'
      | 't' => some '\t'
      | _ => none
    plain?.map fun plain => (plain, text)
| [] => none

/-
  The characters of a string up to its closing quote, behind
  those already read, which are in reverse. Every round
  takes a character.
-/
def readCharacters? :
    (rounds : Nat) → (before : List Char) →
      List Char → Option (String × List Char)
| 0, _, _ => none
| _ + 1, _, [] => none
| rounds + 1, before, c :: text =>
    if c = '\x22' then
      some (String.ofList before.reverse, text)
    else if c = '\\' then
      match readEscape? text with
      | none => none
      | some (escaped, rest) =>
          readCharacters? rounds (escaped :: before) rest
    else if c.toNat < 0x20 then
      none
    else
      readCharacters? rounds (c :: before) text

/- A string, whose opening quote is taken. -/
def readText?
    (text : List Char) : Option (String × List Char) :=
  readCharacters? text.length [] text

end Json

end GVariant

------------------------------------------------------------
-- Numbers
------------------------------------------------------------

namespace GVariant

namespace Json

/- One or more digits. -/
def readDigits?
    (text : List Char) : Option (List Char × List Char) :=
  let digits := text.takeWhile Char.isDigit
  if digits = [] then
    none
  else
    some (digits, text.dropWhile Char.isDigit)

/- The digits behind the point, if there is a point. -/
def readFraction? :
    List Char → Option (Option (List Char) × List Char)
| '.' :: text =>
    (readDigits? text).map fun (digits, rest) =>
      (some digits, rest)
| text => some (none, text)

/- The exponent behind its mark, if there is a mark. -/
def readExponent?
    (text : List Char) : Option (Option Int × List Char) :=
  match text with
  | [] => some (none, text)
  | mark :: rest =>
      if mark = 'e' ∨ mark = 'E' then do
        let (negative, rest) := GVariant.Numeral.splitSign rest
        let (digits, rest) ← readDigits? rest
        let n := GVariant.Numeral.value digits
        some (some (if negative then -(n : Int) else n), rest)
      else
        some (none, text)

/-
  The parts of a number, whose sign is taken. Zero is the
  only digit that may stand first and have no digit after
  it before the point.
-/
def readNumeral?
    (negative : Bool)
    (text : List Char) : Option (Numeral × List Char) := do
  let (whole, rest) ← readDigits? text
  if 1 < whole.length ∧ whole.head? = some '0' then
    none
  else
    let (fraction, rest) ← readFraction? rest
    let (exponent, rest) ← readExponent? rest
    some (⟨negative, whole, fraction, exponent⟩, rest)

/- A number, whose sign is taken. -/
def readNumber?
    (negative : Bool)
    (text : List Char) : Option (Json × List Char) := do
  let (numeral, rest) ← readNumeral? negative text
  let value ← numeral.value?
  some (value, rest)

end Json

end GVariant

------------------------------------------------------------
-- Documents
------------------------------------------------------------

namespace GVariant

namespace Json

/-
  Read what a bracket encloses, behind the opening bracket:
  items separated by commas, up to the closing bracket.
-/
def readSequence?
    {α : Type}
    (readItem? : List Char → Option (α × List Char))
    (close : Char) :
    (rounds : Nat) → (first : Bool) →
      List Char → Option (List α × List Char)
| 0, _, _ => none
| rounds + 1, first, text =>
    match skipBlanks text with
    | [] => none
    | c :: rest =>
        if c = close ∧ first then
          some ([], rest)
        else do
          let (item, rest) ← readItem? (c :: rest)
          match skipBlanks rest with
          | [] => none
          | c :: rest =>
              if c = close then
                some ([item], rest)
              else if c = ',' then
                let (items, rest) ←
                  readSequence? readItem? close rounds
                    false rest
                some (item :: items, rest)
              else
                none

/- The name and the value of a member of an object. -/
def readMember?
    (readValue? : List Char → Option (Json × List Char)) :
    List Char → Option ((String × Json) × List Char)
| '\x22' :: text => do
    let (name, rest) ← readText? text
    match skipBlanks rest with
    | ':' :: rest =>
        let (value, rest) ← readValue? rest
        some ((name, value), rest)
    | _ => none
| _ => none

/-
  The value at the front of a text that does not begin with
  a container.
-/
def readPlain?
    (text : List Char) : Option (Json × List Char) :=
  match text with
  | '\x22' :: rest =>
      (readText? rest).map fun (value, rest) =>
        (.string value, rest)
  | '-' :: rest => readNumber? true rest
  | 'n' :: _ =>
      (afterWord? ['n', 'u', 'l', 'l'] text).map fun rest =>
        (.null, rest)
  | 't' :: _ =>
      (afterWord? ['t', 'r', 'u', 'e'] text).map fun rest =>
        (.bool true, rest)
  | 'f' :: _ =>
      (afterWord? ['f', 'a', 'l', 's', 'e'] text).map
        fun rest => (.bool false, rest)
  | _ => readNumber? false text

/-
  Read a value whose containers nest as many levels deep as
  given at most.
-/
def read? :
    (levels : Nat) → List Char → Option (Json × List Char)
| 0, text =>
    match skipBlanks text with
    | '[' :: _ => none
    | '{' :: _ => none
    | text => readPlain? text
| levels + 1, text =>
    match skipBlanks text with
    | '[' :: rest =>
        (readSequence? (read? levels) ']'
          (rest.length + 1) true rest).map
            fun (items, rest) => (.array items, rest)
    | '{' :: rest =>
        (readSequence? (readMember? (read? levels)) '}'
          (rest.length + 1) true rest).map
            fun (members, rest) => (.object members, rest)
    | text => readPlain? text

/- How deep the containers of a text may nest. -/
def maxTextDepth : Nat :=
  127

/- The document that a text is. -/
def parse? (text : String) : Option Json := do
  let (document, rest) ← read? maxTextDepth text.toList
  if skipBlanks rest = [] then
    some document
  else
    none

end Json

end GVariant
