import GVariant.Conversion.Packing
import GVariant.Conversion.Unpacking
import GVariant.Variant.Access

/-
  Dictionaries from strings to variants of any type.

  A dictionary holds its values unboxed, sorted by key, and
  `Vardict.toVariant` boxes them. The order is part of the
  type, so two dictionaries with the same entries are the
  same.

  Key definitions include:
    * `Vardict`
    * `Vardict.insertValue`
    * `Vardict.lookupValue`
    * `Vardict.toVariant`
    * `Vardict.ofVariant`
-/

------------------------------------------------------------
-- Dictionaries
------------------------------------------------------------

namespace GVariant

/- Variants by key, in increasing order of the keys. -/
structure Vardict where
  entries : List (String × Variant)
  sorted : Entries.Sorted entries

namespace Vardict

/- The dictionary without entries. -/
def empty : Vardict where
  entries := []
  sorted := .nil

instance : Inhabited Vardict :=
  ⟨empty⟩

/- The number of entries. -/
def size (d : Vardict) : Nat :=
  d.entries.length

/- Whether there are no entries. -/
def isEmpty (d : Vardict) : Bool :=
  d.entries.isEmpty

/- Whether a key has a value. -/
def contains (d : Vardict) (key : String) : Bool :=
  (Entries.find? key d.entries).isSome

/- Equality of entries as values, in order. -/
def entriesAgree :
    List (String × Variant) →
      List (String × Variant) → Bool
| [], [] => true
| (j, a) :: as, (k, b) :: bs =>
    j == k && a.agrees b && entriesAgree as bs
| _, _ => false

/- Equality of dictionaries as values. -/
def agrees (d d' : Vardict) : Bool :=
  entriesAgree d.entries d'.entries

end Vardict

end GVariant

------------------------------------------------------------
-- Updates
------------------------------------------------------------

namespace GVariant

namespace Vardict

/- Add a value, in place of one with the same key. -/
def insertValue
    (d : Vardict)
    (key : String)
    (value : Variant) : Vardict where
  entries := Entries.insert key value d.entries
  sorted := Entries.sorted_insert d.sorted

/-
  Pack a host value by a signature and add it. The
  dictionary after the call is returned with the result,
  whether it fails or not.
-/
def insert
    (d : Vardict)
    (key signature : String)
    (value : Value) : Except Error Unit × Vardict :=
  match Conversion.standard.packAs signature value with
  | .error e => (.error e, d)
  | .ok packed => (.ok (), d.insertValue key packed)

/- Take out the value of a key. -/
def remove
    (d : Vardict)
    (key : String) : Option Variant × Vardict :=
  (Entries.find? key d.entries,
    { entries := Entries.erase key d.entries
      sorted := Entries.sorted_erase d.sorted })

/- A dictionary of strings, the last of a key winning. -/
def ofStringFields
    (fields : List (String × String)) : Except Error Vardict :=
  fields.foldlM
    (fun d field =>
      match Variant.string field.2 with
      | .error e => .error e
      | .ok value => .ok (d.insertValue field.1 value))
    empty

end Vardict

end GVariant

------------------------------------------------------------
-- Look-Up
------------------------------------------------------------

namespace GVariant

namespace Vardict

/-
  The value of a key. If a type is expected, values of
  other types count as missing.
-/
def lookupValue
    (d : Vardict)
    (key : String)
    (expected : Option Ty) : Option Variant :=
  (Entries.find? key d.entries).filter fun value =>
    expected.all fun type => value.type == type

/-
  The unpacked value of a key, deeply or by one level. The
  expected type is given by its type string.
-/
def lookup
    (d : Vardict)
    (key : String)
    (expected : Option String)
    (deep : Bool) : Except Error (Option Value) := do
  let type ← expected.mapM Ty.parse
  (d.lookupValue key type).mapM fun value =>
    Conversion.standard.unpackVariant value deep false

end Vardict

end GVariant

------------------------------------------------------------
-- Dictionaries As Variants
------------------------------------------------------------

namespace GVariant

namespace Vardict

/- The dictionary entry of a key and its boxed value. -/
def boxedEntry
    (entry : String × Variant) : Except Error Variant :=
  match Variant.string entry.1 with
  | .error e => .error e
  | .ok key => Variant.dictEntry key (.boxed entry.2)

/- The dictionary as a variant. No key may have a NUL. -/
def toVariant (d : Vardict) : Except Error Variant :=
  match d.entries.mapM boxedEntry with
  | .error e => .error e
  | .ok children => Variant.array .vardictEntry children

/- Add what an entry of a boxed dictionary holds. -/
def insertBoxed
    (d : Vardict) : Variant → Except Error Vardict
| .entry (.text _ key) (.boxed value) =>
    .ok (d.insertValue key value)
| _ => .error (.assertion .malformedEntry)

/-
  The dictionary that a variant holds, the last entry of a
  key winning.
-/
def ofVariant (v : Variant) : Except Error Vardict :=
  if v.type = .vardict then
    (v.members?.getD []).foldlM insertBoxed empty
  else
    .error
      (.typeMismatch
        s!"a variant of type '{Ty.vardict.signature}'"
        v.quotedType)

end Vardict

end GVariant
