/-
  Texts as bytes, and the first fault of bytes that are no
  text.

  A sequence of bytes is cut at the first byte that cannot
  continue what came before. The fault reports where the
  broken sequence starts and how many of its bytes could
  have started a character, or that the bytes end inside a
  sequence.

  Key definitions include:
    * `Utf8.encode`
    * `Utf8.Fault`
    * `Utf8.firstFault?`
    * `Utf8.decode`
-/

------------------------------------------------------------
-- Encoding
------------------------------------------------------------

namespace GVariant

namespace Utf8

/- The bytes of a text. -/
def encode (text : String) : List UInt8 :=
  text.toUTF8.data.toList

end Utf8

end GVariant

------------------------------------------------------------
-- Faults
------------------------------------------------------------

namespace GVariant

namespace Utf8

/- Why bytes are no text. -/
inductive Fault
  | invalid (length index : Nat)
  | incomplete (index : Nat)
  deriving DecidableEq, Repr

namespace Fault

/- The wording of a fault. -/
def message : Fault → String
| .invalid length index =>
    s!"invalid utf-8 sequence of {length} bytes from index {index}"
| .incomplete index =>
    s!"incomplete utf-8 byte sequence from index {index}"

end Fault

/- The bytes that continue any sequence. -/
def tail : UInt8 × UInt8 :=
  (0x80, 0xBF)

/-
  The ranges of the bytes that must follow a leading byte,
  or nothing if no character starts with it.
-/
def following? (lead : UInt8) :
    Option (List (UInt8 × UInt8)) :=
  if lead < 0x80 then
    some []
  else if 0xC2 ≤ lead && lead ≤ 0xDF then
    some [tail]
  else if lead == 0xE0 then
    some [(0xA0, 0xBF), tail]
  else if lead == 0xED then
    some [(0x80, 0x9F), tail]
  else if 0xE1 ≤ lead && lead ≤ 0xEF then
    some [tail, tail]
  else if lead == 0xF0 then
    some [(0x90, 0xBF), tail, tail]
  else if lead == 0xF4 then
    some [(0x80, 0x8F), tail, tail]
  else if 0xF1 ≤ lead && lead ≤ 0xF3 then
    some [tail, tail, tail]
  else
    none

/-
  Walk over the bytes. `start` is the index of the current
  sequence, `taken` the number of its bytes seen so far and
  `pending` the ranges of the bytes that it still needs.
-/
def scan :
    List UInt8 →
      (pending : List (UInt8 × UInt8)) →
      (start taken : Nat) →
      Option Fault
| [], [], _, _ => none
| [], _ :: _, start, _ => some (.incomplete start)
| byte :: bytes, [], start, taken =>
    match following? byte with
    | none => some (.invalid 1 (start + taken))
    | some ranges => scan bytes ranges (start + taken) 1
| byte :: bytes, (low, high) :: pending, start, taken =>
    if low ≤ byte && byte ≤ high then
      scan bytes pending start (taken + 1)
    else
      some (.invalid taken start)

/- The first fault, if the bytes are no text. -/
def firstFault? (bytes : List UInt8) : Option Fault :=
  scan bytes [] 0 0

/- The text of the bytes, or their first fault. -/
def decode (bytes : List UInt8) : Except Fault String :=
  match String.fromUTF8? (ByteArray.mk bytes.toArray) with
  | some text => .ok text
  | none =>
      .error ((firstFault? bytes).getD (.incomplete 0))

end Utf8

end GVariant
