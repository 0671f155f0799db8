import GVariant.Conversion.Unpacking
import GVariant.Value.Basic

/-
  Host values as JSON.

  A library of JSON makes trees of data, and shows a tree to
  a visitor, from the inside out. What the library does is
  not fixed here: it is a parameter, and `JsonLibrary.Lawful`
  says what is known of it. JSON has no bytes, no numbers
  that are not finite and no types: bytes become integers,
  such numbers become null, and variants are unpacked
  recursively.

  The trees of `Json` are one library. They keep integers
  and other numbers apart, and an object lists its members
  as they were written, repeated names included.

  Key definitions include:
    * `Visitor`
    * `JsonLibrary`
    * `JsonLibrary.Lawful`
    * `Value.treeWith`
    * `Value.toJson`
    * `Value.ofJson`
    * `Json`
    * `Json.library`

  The trees of `Json` are as a library must be:
    * `Json.library_lawful`
-/

------------------------------------------------------------
-- Libraries Of Trees
------------------------------------------------------------

namespace GVariant

/-
  What is made of each kind of datum that is shown. Items
  and members are shown before the datum that holds them.
-/
structure Visitor (α : Type) where
  null : α
  bool : Bool → α
  signed : Int64 → α
  unsigned : UInt64 → α
  double : Double → α
  string : String → α
  bytes : List UInt8 → α
  array : List α → α
  object : List (String × α) → α

/- Trees, how they are made, and how they are shown. -/
structure JsonLibrary where
  Tree : Type
  ofNull : Tree
  ofBool : Bool → Tree
  ofSigned : Int64 → Tree
  ofUnsigned : UInt64 → Tree
  ofDouble : Double → Tree
  ofString : String → Tree
  ofBytes : List UInt8 → Tree
  ofArray : List Tree → Tree
  ofObject : List (String × Tree) → Tree
  visit : {α : Type} → Visitor α → Tree → α

/-
  What is known of a library. Bytes are made into integers
  and doubles that are not finite into null. An integer is
  shown with a sign only if it is negative, and everything
  else as it was given; the members of an object are known
  to keep their order if their names are in order.
-/
structure JsonLibrary.Lawful (library : JsonLibrary) :
    Prop where
  ofBytes :
    ∀ content,
      library.ofBytes content =
        library.ofArray
          (content.map fun byte =>
            library.ofUnsigned byte.toUInt64)
  ofDouble :
    ∀ x,
      x.isFinite = false → library.ofDouble x = library.ofNull
  visit_null :
    ∀ {α : Type} (visitor : Visitor α),
      library.visit visitor library.ofNull = visitor.null
  visit_bool :
    ∀ {α : Type} (visitor : Visitor α) (value : Bool),
      library.visit visitor (library.ofBool value) =
        visitor.bool value
  visit_signed :
    ∀ {α : Type} (visitor : Visitor α) (value : Int64),
      library.visit visitor (library.ofSigned value) =
        if value.toInt < 0 then
          visitor.signed value
        else
          visitor.unsigned (UInt64.ofNat value.toInt.toNat)
  visit_unsigned :
    ∀ {α : Type} (visitor : Visitor α) (value : UInt64),
      library.visit visitor (library.ofUnsigned value) =
        visitor.unsigned value
  visit_double :
    ∀ {α : Type} (visitor : Visitor α) (x : Double),
      x.isFinite = true →
        library.visit visitor (library.ofDouble x) =
          visitor.double x
  visit_string :
    ∀ {α : Type} (visitor : Visitor α) (value : String),
      library.visit visitor (library.ofString value) =
        visitor.string value
  visit_array :
    ∀ {α : Type} (visitor : Visitor α)
      (items : List library.Tree),
      library.visit visitor (library.ofArray items) =
        visitor.array (items.map (library.visit visitor))
  visit_object :
    ∀ {α : Type} (visitor : Visitor α)
      (members : List (String × library.Tree)),
      Entries.Sorted members →
        library.visit visitor (library.ofObject members) =
          visitor.object
            (members.map fun member =>
              (member.1, library.visit visitor member.2))

end GVariant

------------------------------------------------------------
-- From Host Values
------------------------------------------------------------

namespace GVariant

namespace Value

variable (library : JsonLibrary)

mutual

/-
  The tree of a host value. What is made of the variants in
  it is given.
-/
def treeWith
    (ofVariant : Variant → Except Error library.Tree) :
    Value → Except Error library.Tree
| .null => .ok library.ofNull
| .bool value => .ok (library.ofBool value)
| .int value => .ok (library.ofSigned value)
| .uint value => .ok (library.ofUnsigned value)
| .double value => .ok (library.ofDouble value)
| .string value => .ok (library.ofString value)
| .bytes content => .ok (library.ofBytes content)
| .array items =>
    match treeItemsWith ofVariant items with
    | .error e => .error e
    | .ok trees => .ok (library.ofArray trees)
| .map entries =>
    match treeMembersWith ofVariant entries with
    | .error e => .error e
    | .ok members => .ok (library.ofObject members)
| .variant v => ofVariant v

/- The trees of items. -/
def treeItemsWith
    (ofVariant : Variant → Except Error library.Tree) :
    List Value → Except Error (List library.Tree)
| [] => .ok []
| item :: items =>
    match treeWith ofVariant item with
    | .error e => .error e
    | .ok tree =>
        match treeItemsWith ofVariant items with
        | .error e => .error e
        | .ok trees => .ok (tree :: trees)

/- The trees of the values of entries, by their keys. -/
def treeMembersWith
    (ofVariant : Variant → Except Error library.Tree) :
    List (String × Value) →
      Except Error (List (String × library.Tree))
| [] => .ok []
| (key, value) :: entries =>
    match treeWith ofVariant value with
    | .error e => .error e
    | .ok tree =>
        match treeMembersWith ofVariant entries with
        | .error e => .error e
        | .ok members => .ok ((key, tree) :: members)

end

/-
  The tree of a host value. A variant is unpacked, and the
  tree is that of the result. A recursive unpacking opens
  every variant, so one that is left would contradict it.
-/
def toJson (value : Value) : Except Error library.Tree :=
  value.treeWith library fun v =>
    match Conversion.standard.recursiveUnpack v with
    | .error e => .error e
    | .ok unpacked =>
        unpacked.treeWith library fun left =>
          .error (.assertion (.wrongContent left.type))

end Value

end GVariant

------------------------------------------------------------
-- To Host Values
------------------------------------------------------------

namespace GVariant

namespace Value

/-
  The host value of each kind of datum. An unsigned integer
  is signed if it can be, and of a name that is repeated the
  last member wins.
-/
def visitor : Visitor Value where
  null := .null
  bool := .bool
  signed := .int
  unsigned value := .ofNat value.toNat
  double := .double
  string := .string
  bytes := .bytes
  array := .array
  object := .ofEntries

/- The host value of a tree. -/
def ofJson
    (library : JsonLibrary)
    (tree : library.Tree) : Value :=
  library.visit visitor tree

end Value

end GVariant

------------------------------------------------------------
-- One Library
------------------------------------------------------------

namespace GVariant

/- A JSON document. -/
inductive Json
  | null
  | bool (value : Bool)
  | integer (value : Int)
  | float (value : Double)
  | string (value : String)
  | array (items : List Json)
  | object (members : List (String × Json))
  deriving Repr

namespace Json

instance : Inhabited Json :=
  ⟨.null⟩

/- A double, or null if it is not finite. -/
def ofDouble (x : Double) : Json :=
  if x.isFinite then .float x else .null

/- Bytes as an array of integers. -/
def ofBytes (content : List UInt8) : Json :=
  .array (content.map fun byte => .integer byte.toNat)

variable {α : Type}

mutual

/- Show a document. -/
def visit (visitor : Visitor α) : Json → α
| .null => visitor.null
| .bool value => visitor.bool value
| .integer value =>
    if value < 0 then
      visitor.signed (Int64.ofInt value)
    else
      visitor.unsigned (UInt64.ofNat value.toNat)
| .float value => visitor.double value
| .string value => visitor.string value
| .array items => visitor.array (visitItems visitor items)
| .object members =>
    visitor.object (visitMembers visitor members)

/- Show items one by one. -/
def visitItems (visitor : Visitor α) : List Json → List α
| [] => []
| item :: items =>
    visit visitor item :: visitItems visitor items

/- Show members one by one. -/
def visitMembers
    (visitor : Visitor α) :
    List (String × Json) → List (String × α)
| [] => []
| (name, member) :: members =>
    (name, visit visitor member) ::
      visitMembers visitor members

end

theorem visitItems_eq_map
    (visitor : Visitor α)
    (items : List Json) :
    visitItems visitor items = items.map (visit visitor) := by
  induction items with
  | nil => rfl
  | cons item items ih => simp [visitItems, ih]

theorem visitMembers_eq_map
    (visitor : Visitor α)
    (members : List (String × Json)) :
    visitMembers visitor members =
      members.map fun member =>
        (member.1, visit visitor member.2) := by
  induction members with
  | nil => rfl
  | cons member members ih => simp [visitMembers, ih]

/- The documents as a library of trees. -/
def library : JsonLibrary where
  Tree := Json
  ofNull := .null
  ofBool := .bool
  ofSigned value := .integer value.toInt
  ofUnsigned value := .integer value.toNat
  ofDouble := ofDouble
  ofString := .string
  ofBytes := ofBytes
  ofArray := .array
  ofObject := .object
  visit := visit

/- The documents are a library as it must be. -/
theorem library_lawful : library.Lawful where
  ofBytes content := by
    simp [library, ofBytes]
  ofDouble x hInfinite := by
    simp [library, ofDouble, hInfinite]
  visit_null _ := rfl
  visit_bool _ _ := rfl
  visit_signed visitor value := by
    simp [library, visit]
  visit_unsigned visitor value := by
    have hPos : ¬ (value.toNat : Int) < 0 := by
      omega
    simp [library, visit, hPos]
  visit_double visitor x hFinite := by
    simp [library, ofDouble, visit, hFinite]
  visit_string _ _ := rfl
  visit_array visitor items :=
    congrArg visitor.array (visitItems_eq_map visitor items)
  visit_object visitor members _ :=
    congrArg visitor.object
      (visitMembers_eq_map visitor members)

end Json

end GVariant
