import GVariant.Proofs.Signature.Cutoff
import GVariant.Proofs.Signature.Splitting
import GVariant.Ty.Flat
import Mathlib.Data.Set.List

/-
  Types kept as texts are types.

  Since a row of type strings can be cut in one way only,
  the parts of a flat type are those that its string was put
  together from, however deep they nest. Flat types and type
  trees are thus two forms of the same thing: the parts and
  the layout of one are those of the other.

  Key definitions include:
    * `FlatType.rebuild?`
    * `FlatType.Built`

  Main declarations:
    * `FlatType.parts_charsAll`
    * `FlatType.built_iff`
    * `FlatType.layout_flat`
    * `Ty.parse_signature`
    * `FlatType.accessors_invert_constructors`
-/

------------------------------------------------------------
-- Flat Types That Are Made
------------------------------------------------------------

namespace GVariant

namespace FlatType

/-
  The type that is put together again from the class and the
  parts of a type.
-/
def rebuild? (type : FlatType) : Option FlatType :=
  match type.cls with
  | .basic basic => some (Ty.basic basic).flat
  | .variant => some Ty.variant.flat
  | .maybe => type.element?.map maybe
  | .array => type.element?.map array
  | .tuple => some (tuple type.items)
  | .dictEntry =>
      match type.key?, type.value? with
      | some key, some value => (entry key value).toOption
      | _, _ => none

/-
  The types that are made by any number of calls: read from
  a text, put together, or taken out of another type.
-/
inductive Built : FlatType → Prop
| read
    {r r' : Reader}
    {forceSimple : Bool}
    {type : Ty}
    (hRead : r.readType forceSimple = (.ok type, r')) :
    Built type.flat
| parse
    {signature : String}
    {type : Ty}
    (hParse : Ty.parse signature = .ok type) :
    Built type.flat
| maybe
    {element : FlatType}
    (hElement : element.Built) :
    Built element.maybe
| array
    {element : FlatType}
    (hElement : element.Built) :
    Built element.array
| tuple
    {items : List FlatType}
    (hItems : ∀ item ∈ items, item.Built) :
    Built (tuple items)
| entry
    {key value type : FlatType}
    (hKey : key.Built)
    (hValue : value.Built)
    (hEntry : entry key value = .ok type) :
    Built type
| element
    {type element : FlatType}
    (hType : type.Built)
    (hElement : type.element? = some element) :
    Built element
| item
    {type item : FlatType}
    (hType : type.Built)
    (hItem : item ∈ type.items) :
    Built item
| key
    {type key : FlatType}
    (hType : type.Built)
    (hKey : type.key? = some key) :
    Built key
| value
    {type value : FlatType}
    (hType : type.Built)
    (hValue : type.value? = some value) :
    Built value

end FlatType

end GVariant

------------------------------------------------------------
-- Rows Are Cut Where They Were Joined
------------------------------------------------------------

namespace GVariant

namespace Ty

mutual

/- A type nests less deep than its type string is long. -/
theorem nesting_lt_length_chars :
    (type : Ty) → type.nesting < type.chars.length
| .basic _ => Nat.one_pos
| .variant => Nat.one_pos
| .maybe element =>
    Nat.succ_lt_succ (nesting_lt_length_chars element)
| .array element =>
    Nat.succ_lt_succ (nesting_lt_length_chars element)
| .tuple items => by
    have hItems := nestingAll_le_length_charsAll items
    simp only [nesting, chars, List.length_cons,
      List.length_append]
    omega
| .dictEntry key value => by
    have hValue := nesting_lt_length_chars value
    simp only [nesting, chars, List.length_cons,
      List.length_append]
    omega

theorem nestingAll_le_length_charsAll :
    (items : List Ty) →
      nestingAll items ≤ (charsAll items).length
| [] => Nat.zero_le _
| item :: items => by
    have hItem := nesting_lt_length_chars item
    have hItems := nestingAll_le_length_charsAll items
    rw [nestingAll, charsAll, List.length_append]
    omega

end

end Ty

namespace FlatType

/- Where all can be read, the parts are what is read. -/
theorem readParts_of_readAll
    {rounds : Nat}
    {r : Reader}
    {types : List Ty}
    (hRead : Signature.readAll rounds r = .ok types) :
    readParts rounds r = types.map Ty.flat := by
  induction rounds generalizing r types with
  | zero =>
      cases hRead
      rfl
  | succ rounds ih =>
      unfold Signature.readAll at hRead
      split at hRead
      · rename_i hEmpty
        cases hRead
        rw [readParts, if_pos hEmpty]
        rfl
      · rename_i hOpen
        split at hRead
        · cases hRead
        · rename_i first r' hFirst
          split at hRead
          · cases hRead
          · rename_i others hOthers
            cases hRead
            rw [readParts, if_neg hOpen, hFirst, List.map_cons,
              ← ih hOthers]

/- The parts of a row are the types that it was made of. -/
theorem parts_charsAll
    (types : List Ty) :
    parts (Ty.charsAll types) = types.map Ty.flat := by
  have hLevels :
      Ty.nestingAll types < (Ty.charsAll types).length + 1 :=
    Nat.lt_succ_of_le (Ty.nestingAll_le_length_charsAll types)
  have hNested :
      ∀ type ∈ types,
        type.nesting ≤ (Ty.charsAll types).length :=
    fun type hMem =>
      Nat.le_of_lt
        ((Ty.nestingAll_lt_iff types).mp hLevels type hMem)
  apply readParts_of_readAll
  exact
    Signature.readAll_charsAll hNested
      (Ty.length_le_length_charsAll types) rfl

/- The only part of a type string is its type. -/
theorem parts_chars
    (type : Ty) :
    parts type.chars = [type.flat] := by
  have hRow : type.chars = Ty.charsAll [type] :=
    (List.append_nil type.chars).symm
  rw [hRow, parts_charsAll]
  rfl

/-
  What is read under a limit that is no shorter than the
  text is read under any other such limit.
-/
theorem readType_withLimit_of_ok
    {r r' : Reader}
    {type : Ty}
    {limit : Nat}
    (hRead : r.readType false = (.ok type, r'))
    (hLimit : r.rest.length ≤ limit) :
    (r.withLimit limit).readType false =
      (.ok type, r'.withLimit limit) := by
  rcases Reader.readType_eq_ok_iff.mp hRead with
    ⟨⟨hRest, hAfter⟩, _, _⟩
  have hNested : type.nesting ≤ limit := by
    have hShort := type.nesting_lt_length_chars
    rw [hRest, List.length_append] at hLimit
    omega
  have hTook :
      (r.withLimit limit).Took type.chars
        (r'.withLimit limit) := by
    refine ⟨hRest, ?_⟩
    rw [hAfter]
    rfl
  exact
    Reader.readType_eq_ok_iff.mpr ⟨hTook, hNested, by simp⟩

theorem readParts_withLimit
    {rounds limit : Nat}
    {r : Reader}
    (hEnough : r.rest.length ≤ r.maxDepth)
    (hLimit : r.rest.length ≤ limit) :
    readParts rounds (r.withLimit limit) =
      readParts rounds r := by
  induction rounds generalizing r with
  | zero => rfl
  | succ rounds ih =>
      have hEmpty :
          (r.withLimit limit).isEmpty = r.isEmpty :=
        rfl
      rw [readParts, readParts, hEmpty]
      split
      · rfl
      · rcases hRead : r.readType false with ⟨result, r'⟩
        cases result with
        | ok type =>
            have hTook :=
              (Reader.readType_eq_ok_iff.mp hRead).1
            have hLength := congrArg List.length hTook.1
            rw [List.length_append] at hLength
            have hBehind :=
              ih (r := r') (hTook.maxDepth_eq ▸ by omega)
                (by omega)
            rw [readType_withLimit_of_ok hRead hLimit]
            dsimp only
            rw [hBehind]
        | error e =>
            rcases hMore :
                (r.withLimit limit).readType false with
              ⟨more, s⟩
            cases more with
            | error _ => rfl
            | ok type =>
                have hBack :=
                  readType_withLimit_of_ok hMore hEnough
                have hSame :
                    (r.withLimit limit).withLimit
                        r.maxDepth =
                      r :=
                  rfl
                rw [hSame, hRead] at hBack
                cases hBack

/-
  Any limit from the length on gives the same parts, so they
  are those that are read without a limit.
-/
theorem readParts_eq_parts
    {text : List Char}
    {limit : Nat}
    (hLimit : text.length ≤ limit) :
    readParts text.length (.ofChars text limit) =
      parts text :=
  readParts_withLimit (r := .ofChars text text.length)
    (Nat.le_refl text.length) hLimit

end FlatType

end GVariant

------------------------------------------------------------
-- The Same Parts And Constructors
------------------------------------------------------------

namespace GVariant

namespace FlatType

theorem element?_flat
    (type : Ty) :
    type.flat.element? = type.element?.map Ty.flat := by
  cases type with
  | maybe element =>
      have hParts := parts_chars element
      simp [element?, Ty.flat, Ty.cls, Ty.chars, Ty.element?,
        hParts]
  | array element =>
      have hParts := parts_chars element
      simp [element?, Ty.flat, Ty.cls, Ty.chars, Ty.element?,
        hParts]
  | _ => rfl

theorem items_flat
    (type : Ty) :
    type.flat.items = type.items.map Ty.flat := by
  cases type with
  | tuple inner =>
      have hInside :
          (Ty.tuple inner).chars.tail.dropLast =
            Ty.charsAll inner :=
        List.dropLast_concat
      have hItems :
          (Ty.tuple inner).flat.items =
            parts (Ty.tuple inner).chars.tail.dropLast :=
        rfl
      rw [hItems, hInside, parts_charsAll]
      rfl
  | dictEntry key value =>
      have hTail :
          (Ty.dictEntry key value).chars.tail =
            (key.char :: value.chars) ++ ['}'] :=
        rfl
      have hRow :
          key.char :: value.chars =
            Ty.charsAll [.basic key, value] := by
        simp [Ty.charsAll, Ty.chars]
      have hItems :
          (Ty.dictEntry key value).flat.items =
            parts
              (Ty.dictEntry key value).chars.tail.dropLast :=
        rfl
      rw [hItems, hTail, List.dropLast_concat, hRow,
        parts_charsAll]
      rfl
  | _ => rfl

theorem key?_flat
    (type : Ty) :
    type.flat.key? = type.key?.map Ty.flat := by
  cases type with
  | dictEntry key value =>
      have hKey :
          (Ty.dictEntry key value).flat.key? =
            (Ty.dictEntry key value).flat.items[0]? :=
        rfl
      rw [hKey, items_flat]
      rfl
  | _ => rfl

theorem value?_flat
    (type : Ty) :
    type.flat.value? = type.value?.map Ty.flat := by
  cases type with
  | dictEntry key value =>
      have hValue :
          (Ty.dictEntry key value).flat.value? =
            (Ty.dictEntry key value).flat.items[1]? :=
        rfl
      rw [hValue, items_flat]
      rfl
  | _ => rfl

theorem tuple_map_flat
    (items : List Ty) :
    tuple (items.map Ty.flat) = (Ty.tuple items).flat := by
  have hChars :
      (items.map Ty.flat).flatMap chars = Ty.charsAll items := by
    induction items with
    | nil => rfl
    | cons item items ih =>
        rw [List.map_cons, List.flatMap_cons, ih]
        rfl
  rw [tuple, hChars]
  rfl

theorem entry_flat
    (key value : Ty) :
    entry key.flat value.flat =
      (Ty.entry key value).map Ty.flat := by
  cases key with
  | basic key => rfl
  | _ => rfl

/- What is put together again is the same type. -/
theorem rebuild?_flat
    (type : Ty) :
    type.flat.rebuild? = some type.flat := by
  have hClass : type.flat.cls = type.cls := rfl
  rw [rebuild?, hClass, element?_flat, items_flat, key?_flat,
    value?_flat]
  cases type with
  | tuple items => exact congrArg some (tuple_map_flat items)
  | dictEntry key value =>
      have hEntry := entry_flat (.basic key) value
      simp only [Ty.cls, Ty.key?, Ty.value?, Option.map_some,
        hEntry]
      rfl
  | _ => rfl

/- A list of flat forms is the flat form of a list. -/
theorem exists_map_flat
    {items : List FlatType}
    (hItems : ∀ item ∈ items, ∃ tree : Ty, tree.flat = item) :
    ∃ trees : List Ty, trees.map Ty.flat = items := by
  have hRange : items ∈ Set.range (List.map Ty.flat) := by
    rw [Set.range_list_map]
    exact hItems
  exact hRange

/-
  Flat types that are made by any number of calls are the
  flat forms of types. The induction is on the calls.
-/
theorem Built.exists_flat
    {type : FlatType}
    (hBuilt : type.Built) :
    ∃ tree : Ty, tree.flat = type := by
  induction hBuilt with
  | read _ => exact ⟨_, rfl⟩
  | parse _ => exact ⟨_, rfl⟩
  | maybe _ ih =>
      rcases ih with ⟨tree, rfl⟩
      exact ⟨.maybe tree, rfl⟩
  | array _ ih =>
      rcases ih with ⟨tree, rfl⟩
      exact ⟨.array tree, rfl⟩
  | tuple _ ih =>
      rcases exists_map_flat ih with ⟨trees, rfl⟩
      exact ⟨.tuple trees, (tuple_map_flat trees).symm⟩
  | entry _ _ hEntry ihKey ihValue =>
      rcases ihKey with ⟨key, rfl⟩
      rcases ihValue with ⟨value, rfl⟩
      rw [entry_flat] at hEntry
      cases hTree : Ty.entry key value with
      | error e =>
          rw [hTree] at hEntry
          cases hEntry
      | ok tree =>
          rw [hTree] at hEntry
          cases hEntry
          exact ⟨tree, rfl⟩
  | element _ hElement ih =>
      rcases ih with ⟨tree, rfl⟩
      rw [element?_flat] at hElement
      rcases Option.map_eq_some_iff.mp hElement with
        ⟨element, _, hFlat⟩
      exact ⟨element, hFlat⟩
  | item _ hItem ih =>
      rcases ih with ⟨tree, rfl⟩
      rw [items_flat] at hItem
      rcases List.mem_map.mp hItem with ⟨item, _, hFlat⟩
      exact ⟨item, hFlat⟩
  | key _ hKey ih =>
      rcases ih with ⟨tree, rfl⟩
      rw [key?_flat] at hKey
      rcases Option.map_eq_some_iff.mp hKey with
        ⟨key, _, hFlat⟩
      exact ⟨key, hFlat⟩
  | value _ hValue ih =>
      rcases ih with ⟨tree, rfl⟩
      rw [value?_flat] at hValue
      rcases Option.map_eq_some_iff.mp hValue with
        ⟨value, _, hFlat⟩
      exact ⟨value, hFlat⟩

/- Any type can be read from its type string. -/
theorem built_flat
    (tree : Ty) :
    tree.flat.Built := by
  let r := Reader.ofChars tree.chars tree.nesting
  have hRead :
      r.readType false = (.ok tree, r.after tree.chars []) :=
    Reader.readType_eq_ok_iff.mpr
      ⟨⟨(List.append_nil tree.chars).symm, rfl⟩,
        Nat.le_refl tree.nesting, by simp⟩
  exact .read hRead

theorem built_iff
    {type : FlatType} :
    type.Built ↔ ∃ tree : Ty, tree.flat = type := by
  constructor
  · exact Built.exists_flat
  · rintro ⟨tree, rfl⟩
    exact built_flat tree

end FlatType

end GVariant

------------------------------------------------------------
-- The Same Layout
------------------------------------------------------------

namespace GVariant

namespace FlatType

/-
  With as many levels as a type nests, its layout is found.
  The induction is on the levels, since the parts of a type
  are read with one level less.
-/
theorem layoutLevels_flat
    {type : Ty}
    {levels : Nat}
    (hLevels : type.nesting < levels) :
    layoutLevels levels type.flat = type.layout := by
  induction levels generalizing type with
  | zero => cases hLevels
  | succ levels ih =>
      have hClass : type.flat.cls = type.cls := rfl
      rw [layoutLevels, hClass, element?_flat, items_flat]
      cases type with
      | basic type => rfl
      | «variant» => rfl
      | maybe element =>
          have hElement :
              layoutLevels levels element.flat =
                element.layout :=
            ih (Nat.lt_of_succ_lt_succ hLevels)
          simp only [Ty.cls, Ty.element?, Option.map_some,
            hElement, Ty.layout]
      | array element =>
          have hElement :
              layoutLevels levels element.flat =
                element.layout :=
            ih (Nat.lt_of_succ_lt_succ hLevels)
          simp only [Ty.cls, Ty.element?, Option.map_some,
            hElement, Ty.layout]
      | tuple items =>
          have hItems :
              ∀ item ∈ items,
                layoutLevels levels item.flat = item.layout :=
            fun item hMem =>
              ih ((Ty.nestingAll_lt_iff items).mp hLevels item
                hMem)
          simp only [Ty.cls, Ty.items, Ty.layout,
            Ty.layoutAll_eq_map, List.map_map]
          exact
            congrArg Layout.tuple (List.map_congr_left hItems)
      | dictEntry key value =>
          have hInner : value.nesting < levels :=
            Nat.lt_of_succ_lt_succ hLevels
          have hKey :
              layoutLevels levels (Ty.basic key).flat =
                key.layout :=
            ih (Nat.zero_lt_of_lt hInner)
          have hValue := ih hInner
          simp only [Ty.cls, Ty.items, List.map_cons,
            List.map_nil, hKey, hValue, Ty.layout]

theorem layout_flat
    (type : Ty) :
    type.flat.layout = type.layout :=
  layoutLevels_flat type.nesting_lt_length_chars

end FlatType

end GVariant

------------------------------------------------------------
-- Two Forms Of The Same
------------------------------------------------------------

namespace GVariant

namespace Ty

/- Flat types are the same only if the types are. -/
theorem flat_injective :
    Function.Injective Ty.flat := by
  intro type other hFlat
  exact chars_injective (congrArg FlatType.chars hFlat)

/- Types with the same type string are the same. -/
theorem signature_injective
    {type other : Ty}
    (hSignature : type.signature = other.signature) :
    type = other := by
  have hChars := congrArg String.toList hSignature
  rw [signature, signature, String.toList_ofList,
    String.toList_ofList] at hChars
  exact chars_injective hChars

/-
  A type string is read back as its type, unless the type
  nests deeper than the default limit. The limit is then the
  failure, since a reader with more levels gives the type.
-/
theorem parse_signature
    (type : Ty) :
    parse type.signature =
      if type.nesting ≤ defaultMaxDepth then
        .ok type
      else
        .error (.maxNestingExceeded defaultMaxDepth) := by
  have hChars : type.chars = type.signature.toList :=
    String.toList_ofList.symm
  split
  · rename_i hNested
    exact
      Reader.readWhole_ofString_eq_ok_iff.mpr
        ⟨hChars, hNested⟩
  · rename_i hDeep
    have hCut :
        CutOff defaultMaxDepth (parse type.signature)
          (Reader.ofString type.signature
            type.nesting).readWhole :=
      Reader.readWhole_cutOff (Reader.ofString type.signature)
        (Nat.le_of_not_le hDeep)
    have hMore :
        (Reader.ofString type.signature
            type.nesting).readWhole =
          .ok type :=
      Reader.readWhole_ofString_eq_ok_iff.mpr
        ⟨hChars, Nat.le_refl type.nesting⟩
    rcases hCut with hStopped | hSame
    · exact hStopped
    · rw [hMore] at hSame
      have hRead :=
        Reader.readWhole_ofString_eq_ok_iff.mp hSame.symm
      exact absurd hRead.2 hDeep

end Ty

namespace FlatType

/-
  Flat types, made in any way, are the flat forms of type
  trees, with the same parts. The accessors undo the
  constructors, and a type is put together again from its
  class and its parts. A type is known by its type string,
  from which it is parsed unless it nests too deep.
-/
theorem accessors_invert_constructors :
    (∀ element : FlatType,
        element.Built →
          element.array.element? = some element ∧
            element.maybe.element? = some element) ∧
      (∀ items : List FlatType,
        (∀ item ∈ items, item.Built) →
          (tuple items).items = items) ∧
      (∀ key value : FlatType,
        key.Built →
          value.Built →
            key.cls.isBasic = true →
              ∃ type,
                entry key value = .ok type ∧
                  type.key? = some key ∧
                  type.value? = some value) ∧
      (∀ type : FlatType,
        type.Built → type.rebuild? = some type) ∧
      (∀ type other : FlatType,
        type.Built →
          other.Built →
            (type = other ↔
              type.signature = other.signature)) ∧
      (∀ type : FlatType,
        type.Built ↔ ∃ tree : Ty, tree.flat = type) ∧
      (∀ tree other : Ty,
        tree ≠ other → tree.signature ≠ other.signature) ∧
      ∀ tree : Ty,
        (Ty.parse tree.signature =
            if tree.nesting ≤ 64 then
              .ok tree
            else
              .error (.maxNestingExceeded 64)) ∧
          tree.flat.signature = tree.signature ∧
          tree.flat.cls = tree.cls ∧
          tree.flat.element? = tree.element?.map Ty.flat ∧
          tree.flat.items = tree.items.map Ty.flat ∧
          tree.flat.key? = tree.key?.map Ty.flat ∧
          tree.flat.value? = tree.value?.map Ty.flat := by
  refine ⟨?_, ?_, ?_, ?_, ?_, fun _ => built_iff, ?_, ?_⟩
  · intro element hElement
    rcases hElement.exists_flat with ⟨tree, rfl⟩
    exact
      ⟨element?_flat (.array tree), element?_flat (.maybe tree)⟩
  · intro items hItems
    rcases
        exists_map_flat fun item hMem =>
          (hItems item hMem).exists_flat with
      ⟨trees, rfl⟩
    rw [tuple_map_flat]
    exact items_flat (.tuple trees)
  · intro key value hKey hValue hBasic
    rcases hKey.exists_flat with ⟨keyTree, rfl⟩
    rcases hValue.exists_flat with ⟨valueTree, rfl⟩
    cases keyTree with
    | basic basic =>
        exact
          ⟨_, entry_flat (.basic basic) valueTree,
            key?_flat (.dictEntry basic valueTree),
            value?_flat (.dictEntry basic valueTree)⟩
    | _ => cases hBasic
  · intro type hType
    rcases hType.exists_flat with ⟨tree, rfl⟩
    exact rebuild?_flat tree
  · intro type other hType hOther
    rcases hType.exists_flat with ⟨tree, rfl⟩
    rcases hOther.exists_flat with ⟨otherTree, rfl⟩
    constructor
    · exact congrArg signature
    · intro hSignature
      exact congrArg Ty.flat (Ty.signature_injective hSignature)
  · intro tree other hOther hSignature
    exact hOther (Ty.signature_injective hSignature)
  · intro tree
    exact
      ⟨tree.parse_signature, rfl, rfl, element?_flat tree,
        items_flat tree, key?_flat tree, value?_flat tree⟩

/- Deeper than what is parsed. -/
def deepMaybes : Ty :=
  Nat.repeat Ty.maybe 70 .byteString

theorem accessors_invert_constructors_deepMaybes :
    deepMaybes.flat.Built ∧
      deepMaybes.flat.array.element? = some deepMaybes.flat ∧
      (tuple [deepMaybes.flat, Ty.unit.flat]).items =
        [deepMaybes.flat, Ty.unit.flat] ∧
      (∃ type,
        entry Ty.string.flat deepMaybes.flat = .ok type ∧
          type.key? = some Ty.string.flat ∧
          type.value? = some deepMaybes.flat) ∧
      deepMaybes.flat.rebuild? = some deepMaybes.flat ∧
      Ty.unit.signature ≠ deepMaybes.signature ∧
      Ty.parse deepMaybes.signature =
        .error (.maxNestingExceeded 64) := by
  rcases accessors_invert_constructors with
    ⟨hElement, hItems, hEntry, hRebuild, _, hBuilt, hOther,
      hTree⟩
  have hDeep : deepMaybes.flat.Built :=
    (hBuilt _).mpr ⟨deepMaybes, rfl⟩
  have hUnit : Ty.unit.flat.Built :=
    (hBuilt _).mpr ⟨.unit, rfl⟩
  have hString : Ty.string.flat.Built :=
    (hBuilt _).mpr ⟨.string, rfl⟩
  refine
    ⟨hDeep, (hElement _ hDeep).1, hItems _ ?_,
      hEntry _ _ hString hDeep rfl, hRebuild _ hDeep,
      hOther _ _ (by decide), ?_⟩
  · simp [hDeep, hUnit]
  · have hParse := (hTree deepMaybes).1
    rwa [if_neg (by decide)] at hParse

end FlatType

end GVariant
