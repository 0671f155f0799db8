import GVariant.Proofs.Conversion.ByType
import GVariant.Proofs.Ty.Flat

/-
  Packing an array is packing its elements.

  Bytes and strings are packed as a whole, and a dictionary
  is packed from a map without making pairs of its entries.
  Each of these is the same as packing the elements one by
  one and making an array of them with the checked
  constructor: it accepts the same host values and gives the
  same array. The failures are the same, too, except for
  strings, all of which are looked at before the first is
  refused for a NUL.

  Key definitions include:
    * `PacksEach`
    * `Conversion.packPairOf`

  Main declarations:
    * `Codec.variantOf_bytes`
    * `Codec.variantOf_strings_eq_ok_iff`
    * `Codec.variantOf_array`
    * `Codec.variantOf_map`
    * `packsEach_of_eq_ok_iff`
    * `Conversion.packsEach_of_nesting_le`
-/

------------------------------------------------------------
-- Element By Element
------------------------------------------------------------

namespace GVariant

/- Results are changed one by one or all together. -/
theorem mapM_map_eq
    {α β γ : Type}
    (f : α → Except Error β)
    (g : β → γ)
    (items : List α) :
    (items.mapM fun item => (f item).map g) =
      (items.mapM f).map (List.map g) := by
  induction items with
  | nil => rfl
  | cons item items ih =>
      rw [List.mapM_cons, List.mapM_cons, ih]
      cases f item with
      | error e => rfl
      | ok first => cases items.mapM f <;> rfl

namespace Codec

variable {codec : Codec}

/- A basic type asks for a scalar, whatever the value. -/
theorem variantOf_basic
    (value : Value)
    (type : BasicType) :
    codec.variantOf value (.basic type) =
      value.packBasic type := by
  cases value <;> rfl

end Codec

end GVariant

------------------------------------------------------------
-- Bytes And Strings
------------------------------------------------------------

namespace GVariant

/- A value is taken as an integer of a kind in its range. -/
theorem Value.inRange_of_toInteger
    {value : Value}
    {kind : IntKind}
    {n : Int}
    (hInteger : value.toInteger kind = .ok n) :
    kind.InRange n := by
  have hTaken :
      ∀ {m : Int},
        value.takeInteger kind m = .ok n → kind.InRange n := by
    intro m hTaken
    rcases takeInteger_eq_ok_iff.mp hTaken with ⟨hRange, rfl⟩
    exact hRange
  unfold toInteger at hInteger
  split at hInteger
  · exact hTaken hInteger
  · exact hTaken hInteger
  · split at hInteger
    · split at hInteger
      · exact hTaken hInteger
      · split at hInteger
        · exact hTaken hInteger
        · cases hInteger
    · cases hInteger
  · cases hInteger

namespace Codec

variable {codec : Codec}

/-
  Integers in the range of bytes are put into the buffer
  that an array of them becomes.
-/
theorem array_bytes
    {numbers : List Int}
    (hRange : ∀ n ∈ numbers, IntKind.InRange .byte n) :
    Variant.array .byte (numbers.map (Variant.int .byte)) =
      .ok (.bytes
        (numbers.map fun n => UInt8.ofNat n.toNat)) := by
  refine Variant.array_eq_ok_iff.mpr ⟨?_, ?_⟩
  · intro child hMem
    rcases List.mem_map.mp hMem with ⟨n, _, rfl⟩
    rfl
  · have hMin : IntKind.minValue .byte = 0 := by
      decide
    have hEach :
        ∀ n ∈ numbers,
          Variant.byte? (Variant.int .byte n) =
            some (UInt8.ofNat n.toNat) := by
      intro n hMem
      have hPos : (n.toNat : Int) = n :=
        Int.toNat_of_nonneg (hMin ▸ (hRange n hMem).1)
      have hWord :
          IntKind.word .byte n = BitVec.ofNat 8 n.toNat := by
        rw [← hPos]
        exact BitVec.ofInt_natCast 8 n.toNat
      rw [Variant.int, Variant.byte?, hWord]
      rfl
    rw [Variant.packed, if_pos rfl, List.filterMap_map,
      ← List.filterMap_eq_map]
    congr 1
    symm
    apply List.filterMap_congr
    exact hEach

/- Bytes are packed as a whole as they are one by one. -/
theorem variantOf_bytes
    (items : List Value) :
    codec.variantOf (.array items) (.array .byte) =
      (do
        let children ← items.mapM (codec.variantOf · .byte)
        Variant.array .byte children) := by
  have hEach :
      items.mapM (codec.variantOf · .byte) =
        (items.mapM (Value.toInteger · .byte)).map
          (List.map (Variant.int .byte)) := by
    rw [← mapM_map_eq]
    congr 1
    funext item
    exact variantOf_basic item (.int .byte)
  have hWhole :
      codec.variantOf (.array items) (.array .byte) =
        ({ codec } : Conversion).packBytes (.array items) :=
    rfl
  rw [hEach, hWhole, Conversion.packBytes]
  cases hNumbers : items.mapM (Value.toInteger · .byte) with
  | error e => rfl
  | ok numbers =>
      have hRange : ∀ n ∈ numbers, IntKind.InRange .byte n := by
        intro n hMem
        rcases
            exists_of_forall₂_right
              (mapM_eq_ok_iff_forall₂.mp hNumbers) hMem with
          ⟨item, _, hItem⟩
        exact Value.inRange_of_toInteger hItem
      exact (array_bytes hRange).symm

/- A string is packed from a string that has no NUL. -/
theorem variantOf_string_eq_ok_iff
    {item : Value}
    {child : Variant} :
    codec.variantOf item .string = .ok child ↔
      ∃ text,
        item.toString = .ok text ∧
          Variant.string text = .ok child := by
  have hBasic :
      codec.variantOf item .string =
        item.packBasic (.text .string) :=
    variantOf_basic item (.text .string)
  rw [hBasic, Value.packBasic]
  cases item.toString with
  | error e => simp
  | ok text => simp [Variant.text]

/-
  Strings are packed as a whole exactly if they are one by
  one. All of them are taken from the items before any is
  looked into, so the failures may differ.
-/
theorem variantOf_strings_eq_ok_iff
    {items : List Value}
    {v : Variant} :
    codec.variantOf (.array items) (.array .string) =
        .ok v ↔
      ∃ children,
        items.mapM (codec.variantOf · .string) =
            .ok children ∧
          Variant.array .string children = .ok v := by
  have hWhole :
      codec.variantOf (.array items) (.array .string) =
        Conversion.packStrings (.array items) :=
    rfl
  have hTyped :
      ∀ children,
        items.mapM (codec.variantOf · .string) =
            .ok children →
          Variant.array .string children =
            .ok (.arrayOf .string children) := by
    intro children hChildren
    refine Variant.array_eq_ok_iff.mpr ⟨?_, rfl⟩
    intro child hMem
    rcases
        exists_of_forall₂_right
          (mapM_eq_ok_iff_forall₂.mp hChildren) hMem with
      ⟨item, _, hItem⟩
    rw [variantOf_basic] at hItem
    rcases Value.exists_of_packBasic hItem with
      ⟨s, rfl, hType, _⟩
    rw [Variant.type, hType]
  have hTexts :
      ∀ children,
        items.mapM (codec.variantOf · .string) =
            .ok children ↔
          ∃ texts,
            items.mapM Value.toString = .ok texts ∧
              texts.mapM Variant.string = .ok children := by
    intro children
    simp only [mapM_eq_ok_iff_forall₂,
      variantOf_string_eq_ok_iff]
    exact forall₂_comp_iff
  rw [hWhole, Conversion.packStrings]
  simp only [Value.toItems]
  constructor
  · intro hPack
    cases hItems : items.mapM Value.toString with
    | error e =>
        rw [hItems] at hPack
        cases hPack
    | ok texts =>
        simp only [hItems, Variant.strings] at hPack
        split at hPack
        · cases hPack
        · rename_i children hChildren
          cases hPack
          have hEach :=
            (hTexts children).mpr ⟨texts, hItems, hChildren⟩
          exact ⟨children, hEach, hTyped children hEach⟩
  · rintro ⟨children, hEach, hArray⟩
    rcases (hTexts children).mp hEach with
      ⟨texts, hItems, hChildren⟩
    rw [hTyped children hEach] at hArray
    simp only [hItems, Variant.strings, hChildren]
    exact hArray

end Codec

end GVariant

------------------------------------------------------------
-- Arrays And Dictionaries
------------------------------------------------------------

namespace GVariant

namespace Codec

variable {codec : Codec}

/-
  An array of anything but strings and entries is packed as
  its elements are.
-/
theorem variantOf_array
    {element : Ty}
    (hDict : element.cls ≠ .dictEntry)
    (hString : element ≠ .string)
    (items : List Value) :
    codec.variantOf (.array items) (.array element) =
      (do
        let children ←
          items.mapM (codec.variantOf · element)
        Variant.array element children) := by
  by_cases hByte : element = .byte
  · rw [hByte]
    exact variantOf_bytes items
  · have hEach : element.isPackedWhole = false := by
      simp [Ty.isPackedWhole, hByte, hString, hDict]
    rw [variantOf, Ty.throughMaybes]
    · simp only [hEach, Bool.false_eq_true, if_false,
        elementsOf_eq_mapM]
    · simp

/- A dictionary is packed as pairs of its entries are. -/
theorem variantOf_map
    (entries : List (String × Value))
    (key : BasicType)
    (type : Ty) :
    codec.variantOf (.map entries)
        (.array (.dictEntry key type)) =
      (do
        let children ←
          entries.mapM fun entry => do
            let name ← Value.parseKey entry.1 key
            codec.variantOf (.array [name, entry.2])
              (.dictEntry key type)
        Variant.array (.dictEntry key type) children) := by
  rw [← entriesOf_eq_mapM]
  rfl

end Codec

end GVariant

------------------------------------------------------------
-- Packing By The Element Type
------------------------------------------------------------

namespace GVariant

/- The type string of an array is that of its elements. -/
theorem Ty.signature_array
    (element : Ty) :
    (Ty.array element).signature = "a" ++ element.signature := by
  apply String.toList_injective
  simp [signature, chars]

/-
  A result that is what packing items one by one comes to:
  there is one exactly if there is one for each item, and it
  is the array of these.
-/
structure PacksEach
    {α : Type}
    (result : Except Error Variant)
    (element : Ty)
    (each : α → Except Error Variant)
    (items : List α) : Prop where
  exists_iff :
    (∃ v, result = .ok v) ↔
      ∀ item ∈ items, ∃ child, each item = .ok child
  eq_array :
    ∀ children,
      List.Forall₂ (fun item child => each item = .ok child)
          items children →
        result = Variant.array element children

/-
  Elements of the right type make an array, so the result is
  settled by what the items become.
-/
theorem packsEach_of_eq_ok_iff
    {α : Type}
    {result : Except Error Variant}
    {element : Ty}
    {each : α → Except Error Variant}
    {items : List α}
    (hTyped :
      ∀ item child,
        each item = .ok child → child.type = element)
    (hResult :
      ∀ v,
        result = .ok v ↔
          ∃ children,
            items.mapM each = .ok children ∧
              Variant.array element children = .ok v) :
    PacksEach result element each items := by
  have hArray :
      ∀ children,
        List.Forall₂ (fun item child => each item = .ok child)
            items children →
          Variant.array element children =
            .ok (Variant.packed element children) := by
    intro children hChildren
    refine Variant.array_eq_ok_iff.mpr ⟨?_, rfl⟩
    intro child hMem
    rcases exists_of_forall₂_right hChildren hMem with
      ⟨item, _, hItem⟩
    exact hTyped item child hItem
  simp only [mapM_eq_ok_iff_forall₂] at hResult
  constructor
  · constructor
    · rintro ⟨v, hV⟩ item hMem
      rcases (hResult v).mp hV with ⟨children, hChildren, _⟩
      rcases exists_of_forall₂_left hChildren hMem with
        ⟨child, _, hChild⟩
      exact ⟨child, hChild⟩
    · intro hEach
      rcases exists_forall₂_of_forall hEach with
        ⟨children, hChildren⟩
      exact
        ⟨_,
          (hResult _).mpr
            ⟨children, hChildren, hArray _ hChildren⟩⟩
  · intro children hChildren
    rw [hArray children hChildren]
    exact
      (hResult _).mpr
        ⟨children, hChildren, hArray children hChildren⟩

namespace Conversion

variable {conv : Conversion}
variable {element : Ty}

/- What is packed by the type string of a type has the type. -/
theorem type_of_packAs_signature
    {item : Value}
    {child : Variant}
    (hPack : conv.packAs element.signature item = .ok child) :
    child.type = element :=
  Ty.signature_injective (signature_type_of_packAs hPack)

/-
  What an entry of a map is packed to by itself, as the pair
  of its name, read by the key type, and its value.
-/
def packPairOf
    (conv : Conversion)
    (key : BasicType)
    (type : Ty)
    (entry : String × Value) : Except Error Variant := do
  let name ← Value.parseKey entry.1 key
  conv.packAs (Ty.dictEntry key type).signature
    (.array [name, entry.2])

theorem type_of_packPairOf
    {key : BasicType}
    {type : Ty}
    {entry : String × Value}
    {child : Variant}
    (hPack : conv.packPairOf key type entry = .ok child) :
    child.type = .dictEntry key type := by
  rw [packPairOf, bind_eq_ok_iff] at hPack
  rcases hPack with ⟨name, _, hPair⟩
  exact type_of_packAs_signature hPair

/-
  An array of items is packed as the items are one by one,
  and a map is packed as a dictionary as its entries are,
  taken for pairs. The elements are packed from roots of
  their own, so the limit has to allow for the array.
-/
theorem packsEach_of_nesting_le
    (hNested : (Ty.array element).nesting ≤ conv.maxDepth) :
    (element.cls ≠ .dictEntry →
      ∀ items,
        PacksEach
          (conv.packAs ("a" ++ element.signature)
            (.array items))
          element (conv.packAs element.signature) items) ∧
      ∀ key type,
        element = .dictEntry key type →
          ∀ entries,
            PacksEach
              (conv.packAs ("a" ++ element.signature)
                (.map entries))
              element (conv.packPairOf key type)
              entries := by
  have hElement : element.nesting ≤ conv.maxDepth := by
    rw [Ty.nesting] at hNested
    exact Nat.le_of_succ_le hNested
  have hEach :
      conv.packAs element.signature =
        (conv.codec.variantOf · element) := by
    funext item
    exact packAs_signature_eq item hElement
  rw [← Ty.signature_array]
  constructor
  · intro hDict items
    apply packsEach_of_eq_ok_iff
    · intro item child
      exact type_of_packAs_signature
    · intro v
      rw [packAs_signature_eq _ hNested, hEach]
      by_cases hString : element = .string
      · rw [hString]
        exact Codec.variantOf_strings_eq_ok_iff
      · rw [Codec.variantOf_array hDict hString]
        exact bind_eq_ok_iff
  · rintro key type rfl entries
    apply packsEach_of_eq_ok_iff
    · intro entry child
      exact type_of_packPairOf
    · intro v
      have hPair :
          conv.packPairOf key type =
            (fun entry => do
              let name ← Value.parseKey entry.1 key
              conv.codec.variantOf (.array [name, entry.2])
                (.dictEntry key type)) := by
        funext entry
        rw [packPairOf, hEach]
      rw [packAs_signature_eq _ hNested, hPair,
        Codec.variantOf_map]
      exact bind_eq_ok_iff

/- The variant of a string that has no NUL. -/
def stringOf (text : String) : Variant :=
  .scalar (.text .string text)

/-
  Two strings become an array, a number that is no byte
  keeps another from being one, and the names of a map are
  read as the numbers that the keys of a dictionary are.
-/
theorem packsEach_stringsAndNumberedStrings :
    (Ty.array .string).nesting ≤ standard.maxDepth ∧
      standard.packAs "as"
          (.array [.string "a", .string "b"]) =
        Variant.array .string [stringOf "a", stringOf "b"] ∧
      ¬(∃ v,
        standard.packAs "ay" (.array [.int 7, .int 300]) =
          .ok v) ∧
      standard.packAs "a\x7bys\x7d"
          (.map [("10", .string "a"), ("9", .string "b")]) =
        Variant.array (.dictEntry (.int .byte) .string)
          [.entry (.int .byte 10) (stringOf "a"),
            .entry (.int .byte 9) (stringOf "b")] := by
  have hString :
      (Ty.array .string).nesting ≤ standard.maxDepth := by
    decide
  have hByte :
      (Ty.array .byte).nesting ≤ standard.maxDepth := by
    decide
  have hEntry :
      (Ty.array (.dictEntry (.int .byte) .string)).nesting ≤
        standard.maxDepth := by
    decide
  refine ⟨hString, ?_, ?_, ?_⟩
  · apply
      ((packsEach_of_nesting_le hString).1 (by decide)
        _).eq_array
    exact .cons rfl (.cons rfl .nil)
  · intro hPacked
    have hEach :=
      ((packsEach_of_nesting_le hByte).1 (by decide)
        _).exists_iff.mp hPacked
    rcases hEach (.int 300) (by simp) with ⟨child, hChild⟩
    cases hChild
  · apply
      ((packsEach_of_nesting_le hEntry).2 _ _ rfl
        _).eq_array
    exact .cons rfl (.cons rfl .nil)

end Conversion

end GVariant
