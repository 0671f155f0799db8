import GVariant.Number.Decimal

/-
  Numbers as text.

  Doubles are written with their shortest decimal. A style
  says which decimals are written without an exponent and
  whether an integral one keeps its `.0`. Reading accepts an
  optional sign; a double may lack the digits on one side of
  the point, and may be `inf`, `infinity` or `nan` in any
  case.

  Key definitions include:
    * `NumberStyle`
    * `NumberStyle.general`
    * `NumberStyle.positional`
    * `NumberStyle.render`
    * `Numeral.readInt?`
    * `Numeral.readDouble?`
    * `Numeral.hex`
    * `Numeral.readUnit?`
-/

------------------------------------------------------------
-- Writing Doubles
------------------------------------------------------------

namespace GVariant

/-
  How doubles are written. Decimals whose leading digit
  stands at an exponent from `span.1` up to but not at
  `span.2` have no exponent; without a span none has. An
  integral value written without exponent ends in `.0` if
  `pointZero` is set.
-/
structure NumberStyle where
  span : Option (Int × Int)
  pointZero : Bool

namespace NumberStyle

/-
  The style of values: an exponent below `1e-4` and from
  `1e16` on, and always a sign that it is no integer.
-/
def general : NumberStyle :=
  ⟨some (-4, 16), true⟩

/- The style of dictionary keys: never an exponent. -/
def positional : NumberStyle :=
  ⟨none, false⟩

/- Whether a leading exponent is written positionally. -/
def isPlain (style : NumberStyle) (leading : Int) : Bool :=
  match style.span with
  | none => true
  | some (low, high) => low ≤ leading && leading < high

/- Digits without an exponent, with the point in place. -/
def plain
    (style : NumberStyle)
    (digits : List Char)
    (exponent : Int) : List Char :=
  let whole := (digits.length : Int) + exponent
  if 0 ≤ exponent then
    digits ++ List.replicate exponent.toNat '0' ++
      (if style.pointZero then ['.', '0'] else [])
  else if 0 < whole then
    digits.take whole.toNat ++
      '.' :: digits.drop whole.toNat
  else
    '0' :: '.' ::
      (List.replicate (-whole).toNat '0' ++ digits)

/- One digit before the point, then an exponent. -/
def scientific
    (digits : List Char)
    (leading : Int) : List Char :=
  let point :=
    match digits.drop 1 with
    | [] => []
    | rest => '.' :: rest
  digits.take 1 ++ point ++
    'e' :: (toString leading).toList

/- A decimal other than zero. -/
def renderDecimal
    (style : NumberStyle)
    (d : Decimal) : List Char :=
  let digits := Nat.toDigits 10 d.digits
  let leading := (digits.length : Int) - 1 + d.exponent
  if style.isPlain leading then
    style.plain digits d.exponent
  else
    scientific digits leading

/- The text of a double. -/
def render (style : NumberStyle) (x : Double) : String :=
  let sign := if x.isNegative then ['-'] else []
  if x.isNaN then
    "NaN"
  else if !x.isFinite then
    String.ofList (sign ++ ['i', 'n', 'f'])
  else if x.significand = 0 then
    String.ofList (sign ++ style.plain ['0'] 0)
  else
    String.ofList (sign ++ style.renderDecimal x.shortest)

end NumberStyle

end GVariant

------------------------------------------------------------
-- Reading Numbers
------------------------------------------------------------

namespace GVariant

namespace Numeral

/- The value of decimal digits, most significant first. -/
def value (digits : List Char) : Nat :=
  digits.foldl
    (fun n digit => 10 * n + (digit.toNat - '0'.toNat)) 0

/- The natural number of a nonempty row of digits. -/
def readNat? (text : List Char) : Option Nat :=
  if text ≠ [] ∧ text.all Char.isDigit then
    some (value text)
  else
    none

/- An optional sign, and the text after it. -/
def splitSign : List Char → Bool × List Char
| '-' :: text => (true, text)
| '+' :: text => (false, text)
| text => (false, text)

/- The integer of a text: digits after an optional sign. -/
def readInt? (text : List Char) : Option Int :=
  let (negative, digits) := splitSign text
  (readNat? digits).map fun n =>
    if negative then -(n : Int) else n

/-
  The natural number of a text: digits after an optional
  plus sign. A minus sign is refused even before zero.
-/
def readUnsigned? (text : List Char) : Option Nat :=
  let (negative, digits) := splitSign text
  if negative then none else readNat? digits

/- The exponent behind a significand, zero if absent. -/
def readExponent? : List Char → Option Int
| [] => some 0
| mark :: text =>
    if mark = 'e' ∨ mark = 'E' then
      readInt? text
    else
      none

/-
  The decimal of an unsigned text: digits with an optional
  point and at least one digit on either side of it, then an
  optional exponent.
-/
def readDecimal? (text : List Char) : Option Decimal :=
  let whole := text.takeWhile Char.isDigit
  let rest := text.dropWhile Char.isDigit
  let (fraction, rest) :=
    match rest with
    | '.' :: tail =>
        (tail.takeWhile Char.isDigit,
          tail.dropWhile Char.isDigit)
    | _ => ([], rest)
  let digits := whole ++ fraction
  if digits = [] then
    none
  else
    (readExponent? rest).map fun exponent =>
      ⟨value digits, exponent - fraction.length⟩

/- The double of a text. -/
def readDouble? (text : List Char) : Option Double :=
  let (negative, rest) := splitSign text
  match readDecimal? rest with
  | some d => some (Double.ofDecimal negative d)
  | none =>
      let word := String.ofList (rest.map Char.toLower)
      if word = "inf" ∨ word = "infinity" then
        some (Double.infinity negative)
      else if word = "nan" then
        some (Double.nan negative)
      else
        none

end Numeral

end GVariant

------------------------------------------------------------
-- Hexadecimal Numbers
------------------------------------------------------------

namespace GVariant

namespace Numeral

/-
  A number in lower case hexadecimal digits, with zeros in
  front up to a width.
-/
def hex (width n : Nat) : List Char :=
  let digits := Nat.toDigits 16 n
  List.replicate (width - digits.length) '0' ++ digits

/- The value of a hexadecimal digit. -/
def hexDigit? (c : Char) : Option Nat :=
  if c.isDigit then
    some (c.toNat - '0'.toNat)
  else if 'a' ≤ c ∧ c ≤ 'f' then
    some (c.toNat - 'a'.toNat + 10)
  else if 'A' ≤ c ∧ c ≤ 'F' then
    some (c.toNat - 'A'.toNat + 10)
  else
    none

/- The 16 bits of four hexadecimal digits. -/
def readUnit? : List Char → Option (Nat × List Char)
| a :: b :: c :: d :: text => do
    let a ← hexDigit? a
    let b ← hexDigit? b
    let c ← hexDigit? c
    let d ← hexDigit? d
    some (((a * 16 + b) * 16 + c) * 16 + d, text)
| _ => none

end Numeral

end GVariant
