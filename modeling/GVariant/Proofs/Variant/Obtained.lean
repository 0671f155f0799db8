import GVariant.Proofs.Binary.Flat
import GVariant.Proofs.Conversion.Flat
import GVariant.Proofs.Variant.Reachable

/-
  Every variant that can be obtained is the flat form of a
  tree.

  A variant that is kept as a type and a content could hold
  anything under any type. Those that are obtained by calls
  are the flat forms of well-formed trees, since each call
  does to flat forms what it does to trees. All of these can
  be obtained, too.

  Key definitions include:
    * `FlatVariant.Constructs`
    * `FlatVariant.Reachable`
    * `FlatVariant.HasTree`

  Main declarations:
    * `FlatVariant.Reachable.hasTree`
    * `FlatVariant.reachable_flat`
    * `FlatVariant.reachable_iff_hasTree`
-/

------------------------------------------------------------
-- Calls
------------------------------------------------------------

namespace GVariant

namespace FlatValue

mutual

/- The variants that a host value holds. -/
def variants : FlatValue → List FlatVariant
| .array items => variantsAll items
| .map entries => variantsOfEntries entries
| .variant value => [value]
| _ => []

/- The variants that several host values hold. -/
def variantsAll : List FlatValue → List FlatVariant
| [] => []
| item :: items => item.variants ++ variantsAll items

/- The variants that the values of entries hold. -/
def variantsOfEntries :
    List (String × FlatValue) → List FlatVariant
| [] => []
| (_, value) :: entries =>
    value.variants ++ variantsOfEntries entries

end

end FlatValue

namespace FlatVariant

/-
  A variant that one of the constructors makes, from a list
  of variants that are given to it and from types.
-/
inductive Constructs : List FlatVariant → FlatVariant → Prop
| boolean
    (value : Bool) :
    Constructs [] (boolean value)
| int
    (kind : IntKind)
    (value : Int) :
    Constructs [] (int kind value)
| byte
    (value : UInt8) :
    Constructs [] (byte value)
| double
    (value : Double) :
    Constructs [] (double value)
| text
    {kind : TextKind}
    {value : String}
    {v : FlatVariant}
    (hText : FlatVariant.text kind value = .ok v) :
    Constructs [] v
| boxed
    (child : FlatVariant) :
    Constructs [child] (boxed child)
| maybe
    {element : FlatType}
    {child : Option FlatVariant}
    {v : FlatVariant}
    (hElement : element.Built)
    (hMaybe : FlatVariant.maybe element child = .ok v) :
    Constructs child.toList v
| just
    (child : FlatVariant) :
    Constructs [child] (just child)
| nothing
    {element : FlatType}
    (hElement : element.Built) :
    Constructs [] (nothing element)
| array
    {element : FlatType}
    {children : List FlatVariant}
    {v : FlatVariant}
    (hElement : element.Built)
    (hArray : FlatVariant.array element children = .ok v) :
    Constructs children v
| strings
    {values : List String}
    {v : FlatVariant}
    (hStrings : FlatVariant.strings values = .ok v) :
    Constructs [] v
| bytes
    (content : List UInt8) :
    Constructs [] (bytes content)
| tuple
    (children : List FlatVariant) :
    Constructs children (tuple children)
| dictEntry
    {key value v : FlatVariant}
    (hEntry : FlatVariant.dictEntry key value = .ok v) :
    Constructs [key, value] v

/-
  The variants that are obtained by any number of calls. A
  host value may hold any variants that were obtained
  before, and so may a dictionary. Types that are given to a
  call were made by calls, too.
-/
inductive Reachable : FlatVariant → Prop
| construct
    {children : List FlatVariant}
    {v : FlatVariant}
    (hMade : Constructs children v)
    (hChildren : ∀ child ∈ children, child.Reachable) :
    Reachable v
| packAs
    {conv : Conversion}
    {signature : String}
    {value : FlatValue}
    {v : FlatVariant}
    (hInside : ∀ w ∈ value.variants, w.Reachable)
    (hPack : packAs conv signature value = .ok v) :
    Reachable v
| packNext
    {conv : Conversion}
    {value : FlatValue}
    {r r' : Reader}
    {v : FlatVariant}
    (hInside : ∀ w ∈ value.variants, w.Reachable)
    (hPack : packNext conv value r = (.ok v, r')) :
    Reachable v
| decode
    {type : FlatType}
    {data : List UInt8}
    {order : ByteOrder}
    {limit : Nat}
    {v : FlatVariant}
    (hType : type.Built)
    (hDecode : decode type data order limit = .ok v) :
    Reachable v
| byteswap
    {v w : FlatVariant}
    (hFrom : v.Reachable)
    (hSwap : v.byteswap = .ok w) :
    Reachable w
| dictionary
    {entries : List (String × FlatVariant)}
    {v : FlatVariant}
    (hSorted : Entries.Sorted entries)
    (hValues : ∀ entry ∈ entries, entry.2.Reachable)
    (hEnd : ofEntries entries = .ok v) :
    Reachable v
| child
    {v w : FlatVariant}
    {index : Nat}
    (hFrom : v.Reachable)
    (hChild : v.child? index = some w) :
    Reachable w

end FlatVariant

end GVariant

------------------------------------------------------------
-- Trees Of What Is Given
------------------------------------------------------------

namespace GVariant

/- A result in another form has a result behind it. -/
theorem exists_of_map_eq_ok
    {α β : Type}
    {form : α → β}
    {result : Except Error α}
    {b : β}
    (hMap : result.map form = .ok b) :
    ∃ a, result = .ok a ∧ form a = b := by
  cases result with
  | error e => cases hMap
  | ok a =>
      cases hMap
      exact ⟨a, rfl, rfl⟩

namespace FlatValue

open Variant (flat)

variable {good : Variant → Prop}

mutual

/-
  A host value that holds flat forms is the flat form of a
  value that holds the trees.
-/
theorem exists_flat :
    (value : FlatValue) →
      (∀ w ∈ value.variants, ∃ v, good v ∧ flat v = w) →
        ∃ tree : Value,
          (∀ v ∈ tree.variants, good v) ∧ tree.flat = value
| .null, _ => ⟨.null, by simp [Value.variants], rfl⟩
| .bool b, _ => ⟨.bool b, by simp [Value.variants], rfl⟩
| .int n, _ => ⟨.int n, by simp [Value.variants], rfl⟩
| .uint n, _ => ⟨.uint n, by simp [Value.variants], rfl⟩
| .double x, _ => ⟨.double x, by simp [Value.variants], rfl⟩
| .string s, _ => ⟨.string s, by simp [Value.variants], rfl⟩
| .bytes b, _ => ⟨.bytes b, by simp [Value.variants], rfl⟩
| .array items, hInside => by
    rcases exists_flatAll items hInside with
      ⟨trees, hTrees, rfl⟩
    exact ⟨.array trees, hTrees, rfl⟩
| .map entries, hInside => by
    rcases exists_flatEntries entries hInside with
      ⟨trees, hTrees, rfl⟩
    exact ⟨.map trees, hTrees, rfl⟩
| .variant w, hInside => by
    rcases hInside w (by simp [variants]) with
      ⟨v, hGood, rfl⟩
    exact ⟨.variant v, by simpa [Value.variants], rfl⟩

theorem exists_flatAll :
    (items : List FlatValue) →
      (∀ w ∈ variantsAll items, ∃ v, good v ∧ flat v = w) →
        ∃ trees : List Value,
          (∀ v ∈ Value.variantsAll trees, good v) ∧
            Value.flatAll trees = items
| [], _ => ⟨[], by simp [Value.variantsAll], rfl⟩
| item :: items, hInside => by
    rcases List.forall_mem_append.mp hInside with
      ⟨hFirst, hOthers⟩
    rcases exists_flat item hFirst with ⟨tree, hTree, rfl⟩
    rcases exists_flatAll items hOthers with
      ⟨trees, hTrees, rfl⟩
    exact
      ⟨tree :: trees,
        List.forall_mem_append.mpr ⟨hTree, hTrees⟩, rfl⟩

theorem exists_flatEntries :
    (entries : List (String × FlatValue)) →
      (∀ w ∈ variantsOfEntries entries,
          ∃ v, good v ∧ flat v = w) →
        ∃ trees : List (String × Value),
          (∀ v ∈ Value.variantsOfEntries trees, good v) ∧
            Value.flatEntries trees = entries
| [], _ => ⟨[], by simp [Value.variantsOfEntries], rfl⟩
| (key, value) :: entries, hInside => by
    rcases List.forall_mem_append.mp hInside with
      ⟨hFirst, hOthers⟩
    rcases exists_flat value hFirst with ⟨tree, hTree, rfl⟩
    rcases exists_flatEntries entries hOthers with
      ⟨trees, hTrees, rfl⟩
    exact
      ⟨(key, tree) :: trees,
        List.forall_mem_append.mpr ⟨hTree, hTrees⟩, rfl⟩

end

end FlatValue

end GVariant

------------------------------------------------------------
-- Calls Keep Flat Forms
------------------------------------------------------------

namespace GVariant

namespace FlatVariant

/- A flat form of a well-formed tree. -/
def HasTree (v : FlatVariant) : Prop :=
  ∃ tree : Variant, tree.WellFormed ∧ tree.flat = v

/-
  What a constructor makes of flat forms is the flat form of
  what it makes of the trees.
-/
theorem hasTree_of_constructs
    {children : List FlatVariant}
    {v : FlatVariant}
    (hMade : Constructs children v)
    (hChildren : ∀ child ∈ children, child.HasTree) :
    v.HasTree := by
  have hMakes :
      ∀ {trees : List Variant} {tree : Variant},
        Variant.Constructs trees tree →
          (∀ child ∈ trees, child.WellFormed) →
            tree.flat = v →
              v.HasTree :=
    fun hTree hWell hFlat =>
      ⟨_, Variant.wellFormed_of_constructs hTree hWell, hFlat⟩
  cases hMade with
  | boolean value =>
      exact hMakes (.boolean value) (by simp) rfl
  | int kind value =>
      exact hMakes (.int kind value) (by simp) rfl
  | byte value => exact hMakes (.byte value) (by simp) rfl
  | double value => exact hMakes (.double value) (by simp) rfl
  | text hText =>
      rw [text_flat] at hText
      rcases exists_of_map_eq_ok hText with
        ⟨tree, hTree, hFlat⟩
      exact hMakes (.text hTree) (by simp) hFlat
  | boxed child =>
      rcases hChildren child (by simp) with ⟨tree, hWell, rfl⟩
      exact hMakes (.boxed tree) (by simpa using hWell) rfl
  | @maybe element child _ hElement hMaybe =>
      rcases FlatType.built_iff.mp hElement with ⟨type, rfl⟩
      cases child with
      | none =>
          exact hMakes (.nothing type) (by simp) (by
            cases hMaybe
            rfl)
      | some child =>
          rcases hChildren child (by simp) with
            ⟨tree, hWell, rfl⟩
          have hMap := maybe_flat type (some tree)
          rw [Option.map_some, hMaybe] at hMap
          rcases exists_of_map_eq_ok hMap.symm with
            ⟨made, hTree, hFlat⟩
          exact
            hMakes (.maybe hTree) (by simpa using hWell) hFlat
  | just child =>
      rcases hChildren child (by simp) with ⟨tree, hWell, rfl⟩
      exact
        hMakes (.just tree) (by simpa using hWell)
          (just_flat tree).symm
  | nothing hElement =>
      rcases FlatType.built_iff.mp hElement with ⟨type, rfl⟩
      exact hMakes (.nothing type) (by simp) rfl
  | array hElement hArray =>
      rcases FlatType.built_iff.mp hElement with ⟨type, rfl⟩
      rcases exists_map_eq hChildren with
        ⟨trees, hWell, rfl⟩
      rw [array_flat] at hArray
      rcases exists_of_map_eq_ok hArray with
        ⟨tree, hTree, hFlat⟩
      exact hMakes (.array hTree) hWell hFlat
  | strings hStrings =>
      rw [strings_flat] at hStrings
      rcases exists_of_map_eq_ok hStrings with
        ⟨tree, hTree, hFlat⟩
      exact hMakes (.strings hTree) (by simp) hFlat
  | bytes content => exact hMakes (.bytes content) (by simp) rfl
  | tuple children =>
      rcases exists_map_eq hChildren with
        ⟨trees, hWell, rfl⟩
      exact
        hMakes (.tuple trees) hWell (tuple_flat trees).symm
  | @dictEntry key value _ hEntry =>
      rcases hChildren key (by simp) with ⟨first, hKey, rfl⟩
      rcases hChildren value (by simp) with
        ⟨second, hValue, rfl⟩
      rw [dictEntry_flat] at hEntry
      rcases exists_of_map_eq_ok hEntry with
        ⟨tree, hTree, hFlat⟩
      exact
        hMakes (.dictEntry hTree)
          (by simpa using ⟨hKey, hValue⟩) hFlat

/- What is packed from flat forms is a flat form. -/
theorem hasTree_of_packAs
    {conv : Conversion}
    {signature : String}
    {value : FlatValue}
    {v : FlatVariant}
    (hInside : ∀ w ∈ value.variants, w.HasTree)
    (hPack : packAs conv signature value = .ok v) :
    v.HasTree := by
  rcases value.exists_flat hInside with ⟨tree, hTree, rfl⟩
  rw [packAs_flat] at hPack
  rcases exists_of_map_eq_ok hPack with ⟨made, hMade, hFlat⟩
  have hTyped := (Conversion.packed_of_packAs hTree hMade).1
  exact
    ⟨made, made.wellFormed_iff_wellTyped.mpr hTyped, hFlat⟩

theorem hasTree_of_packNext
    {conv : Conversion}
    {value : FlatValue}
    {r r' : Reader}
    {v : FlatVariant}
    (hInside : ∀ w ∈ value.variants, w.HasTree)
    (hPack : packNext conv value r = (.ok v, r')) :
    v.HasTree := by
  rcases value.exists_flat hInside with ⟨tree, hTree, rfl⟩
  rw [packNext_flat] at hPack
  rcases hStep : conv.packNext tree r with ⟨result, after⟩
  rw [hStep] at hPack
  rcases exists_of_map_eq_ok (congrArg Prod.fst hPack) with
    ⟨made, rfl, hFlat⟩
  have hTyped :=
    (Conversion.packed_of_packNext hTree hStep).wellTyped
  exact
    ⟨made, made.wellFormed_iff_wellTyped.mpr hTyped, hFlat⟩

/- What is decoded by a type that was made is a flat form. -/
theorem exists_of_decode
    {type : FlatType}
    {data : List UInt8}
    {order : ByteOrder}
    {limit : Nat}
    {v : FlatVariant}
    (hType : type.Built)
    (hDecode : decode type data order limit = .ok v) :
    ∃ tree : Variant,
      tree.WellFormed ∧
        tree.type.flat = type ∧ tree.flat = v := by
  rcases FlatType.built_iff.mp hType with ⟨type, rfl⟩
  rw [decode_flat] at hDecode
  rcases exists_of_map_eq_ok hDecode with
    ⟨tree, hTree, hFlat⟩
  have hFits := Variant.fits_of_decode hTree
  exact
    ⟨tree, hFits.wellFormed, congrArg Ty.flat hFits.type_eq,
      hFlat⟩

theorem hasTree_of_byteswap
    {v w : FlatVariant}
    (hFrom : v.HasTree)
    (hSwap : v.byteswap = .ok w) :
    w.HasTree := by
  rcases hFrom with ⟨tree, _, rfl⟩
  rw [byteswap_flat] at hSwap
  rcases exists_of_map_eq_ok hSwap with ⟨made, hMade, hFlat⟩
  exact
    ⟨made, (Variant.fits_of_decode hMade).wellFormed, hFlat⟩

theorem hasTree_of_ofEntries
    {entries : List (String × FlatVariant)}
    {v : FlatVariant}
    (hSorted : Entries.Sorted entries)
    (hValues : ∀ entry ∈ entries, entry.2.HasTree)
    (hEnd : ofEntries entries = .ok v) :
    v.HasTree := by
  have hTrees :
      ∀ entry ∈ entries,
        ∃ tree : String × Variant,
          tree.2.WellFormed ∧
            (tree.1, tree.2.flat) = entry := by
    intro entry hMem
    rcases hValues entry hMem with ⟨tree, hWell, hFlat⟩
    exact ⟨(entry.1, tree), hWell, by rw [hFlat]⟩
  rcases exists_map_eq hTrees with
    ⟨trees, hWell, rfl⟩
  rw [Entries.Sorted, List.pairwise_map] at hSorted
  let d : Vardict := ⟨trees, hSorted⟩
  have hMap := ofEntries_flat d
  rw [hEnd] at hMap
  rcases exists_of_map_eq_ok hMap.symm with
    ⟨made, hMade, hFlat⟩
  exact
    ⟨made, Vardict.wellFormed_of_toVariant hWell hMade, hFlat⟩

theorem hasTree_of_child?
    {v w : FlatVariant}
    {index : Nat}
    (hFrom : v.HasTree)
    (hChild : v.child? index = some w) :
    w.HasTree := by
  rcases hFrom with ⟨tree, hWell, rfl⟩
  rw [child?_flat] at hChild
  rcases Option.map_eq_some_iff.mp hChild with
    ⟨child, hTree, hFlat⟩
  rw [Variant.child?_eq_getElem?] at hTree
  exact
    ⟨child, hWell.of_mem_children (List.mem_of_getElem? hTree),
      hFlat⟩

/-
  Every variant that is obtained is the flat form of a
  well-formed tree. The induction is on the calls.
-/
theorem Reachable.hasTree
    {v : FlatVariant}
    (hReach : v.Reachable) :
    v.HasTree := by
  induction hReach with
  | construct hMade _ ih =>
      exact hasTree_of_constructs hMade ih
  | packAs _ hPack ih => exact hasTree_of_packAs ih hPack
  | packNext _ hPack ih => exact hasTree_of_packNext ih hPack
  | decode hType hDecode =>
      rcases exists_of_decode hType hDecode with
        ⟨tree, hWell, _, hFlat⟩
      exact ⟨tree, hWell, hFlat⟩
  | byteswap _ hSwap ih => exact hasTree_of_byteswap ih hSwap
  | dictionary hSorted _ hEnd ih =>
      exact hasTree_of_ofEntries hSorted ih hEnd
  | child _ hChild ih => exact hasTree_of_child? ih hChild

/- Constructors make flat forms of what they make as trees. -/
theorem constructs_flat
    {children : List Variant}
    {v : Variant}
    (hMade : Variant.Constructs children v) :
    Constructs (children.map Variant.flat) v.flat := by
  cases hMade with
  | boolean value => exact .boolean value
  | int kind value => exact .int kind value
  | byte value => exact .byte value
  | double value => exact .double value
  | @text kind value _ hText =>
      have hFlat := text_flat kind value
      rw [hText] at hFlat
      exact .text hFlat
  | boxed child => exact .boxed child.flat
  | @maybe element child _ hMaybe =>
      have hFlat := maybe_flat element child
      rw [hMaybe] at hFlat
      have hMade :=
        Constructs.maybe (FlatType.built_flat element) hFlat
      cases child <;> exact hMade
  | just child =>
      exact just_flat child ▸ .just child.flat
  | nothing element =>
      exact .nothing (FlatType.built_flat element)
  | @array element children _ hArray =>
      have hFlat := array_flat element children
      rw [hArray] at hFlat
      exact .array (FlatType.built_flat element) hFlat
  | @strings values _ hStrings =>
      have hFlat := strings_flat values
      rw [hStrings] at hFlat
      exact .strings hFlat
  | bytes content => exact .bytes content
  | tuple children =>
      exact tuple_flat children ▸ .tuple _
  | @dictEntry key value _ hEntry =>
      have hFlat := dictEntry_flat key value
      rw [hEntry] at hFlat
      exact .dictEntry hFlat

/-
  The flat form of a tree that is built by constructors can
  be obtained. The induction is on the constructors.
-/
theorem reachable_flat
    {v : Variant}
    (hBuilt : v.Built) :
    v.flat.Reachable := by
  induction hBuilt with
  | construct hMade _ ih =>
      exact
        .construct (constructs_flat hMade)
          (List.forall_mem_map.mpr ih)

/-
  The variants that can be obtained are the flat forms of
  the well-formed trees, and constructors are enough to
  obtain them.
-/
theorem reachable_iff_hasTree
    (v : FlatVariant) :
    v.Reachable ↔ v.HasTree := by
  constructor
  · exact Reachable.hasTree
  · rintro ⟨tree, hWell, rfl⟩
    exact reachable_flat (tree.wellFormed_iff_built.mp hWell)

end FlatVariant

end GVariant
