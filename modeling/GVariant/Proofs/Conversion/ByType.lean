import GVariant.Proofs.Conversion.Agreement

/-
  Packing by a type instead of a reader.

  What a value is packed to is a function of the codec, the
  value and the type. It is stated here by recursion on the
  value, without a reader, a depth or a limit. Wherever the
  packer stands at a type within the limits, it does what
  this function says. What is before the type, behind it,
  and how deep it is found make no difference.

  Key definitions include:
    * `Ty.throughMaybes`
    * `Codec.leafOf`
    * `Codec.variantOf`
    * `Conversion.Follows`

  Main declarations:
    * `Codec.elementsOf_eq_mapM`
    * `Codec.entriesOf_eq_mapM`
    * `Conversion.eq_after_of_pack`
    * `Conversion.follows_of_packBehind`
    * `Conversion.follows`
    * `Conversion.packAs_eq_variantOf`
-/

------------------------------------------------------------
-- Packing Without A Reader
------------------------------------------------------------

namespace GVariant

/-
  A function of the types that are no maybes, taken through
  the maybes of a type.
-/
def Ty.throughMaybes
    (inner : Ty → Except Error Variant) :
    Ty → Except Error Variant
| .maybe element =>
    (element.throughMaybes inner).map .just
| type => inner type

namespace Codec

/-
  What a value without items is packed to. A maybe is only
  asked for when the value is absent.
-/
def leafOf
    (codec : Codec)
    (value : Value) : Ty → Except Error Variant
| .basic type => value.packBasic type
| .variant =>
    match value with
    | .variant child => .ok (.boxed child)
    | _ => .error (value.mismatch "a variant")
| .maybe element => .ok (.nothing element)
| .array element =>
    ({ codec } : Conversion).packPlainArray element value
| .tuple _ =>
    .error (value.mismatch "an array of tuple members")
| .dictEntry _ _ =>
    .error (value.mismatch "a [key, value] pair")

/- The entry of a key and of what a value is packed to. -/
def entryOf
    (key : Value)
    (type : BasicType)
    (packed : Except Error Variant) :
    Except Error Variant := do
  let key ← key.packBasic type
  let value ← packed
  Variant.dictEntry key value

mutual

/- What a value is packed to by a type. -/
def variantOf (codec : Codec) :
    Value → Ty → Except Error Variant
| .null, type => codec.leafOf .null type
| .array items, type =>
    type.throughMaybes fun
    | .tuple types =>
        (membersOf codec items types).map .tuple
    | .dictEntry key value => pairOf codec items key value
    | .array element =>
        if element.isPackedWhole then
          codec.leafOf (.array items) (.array element)
        else do
          let children ← elementsOf codec items element
          Variant.array element children
    | type => codec.leafOf (.array items) type
| .map entries, type =>
    type.throughMaybes fun
    | .array (.dictEntry key value) => do
        let children ← entriesOf codec entries key value
        Variant.array (.dictEntry key value) children
    | type => codec.leafOf (.map entries) type
| value, type => type.throughMaybes (codec.leafOf value)
termination_by structural value => value

/-
  What items are packed to as the members of a tuple. Items
  without a type are ignored.
-/
def membersOf (codec : Codec) :
    List Value → List Ty → Except Error (List Variant)
| _, [] => .ok []
| [], type :: _ =>
    .error
      (.typeMismatch
        s!"a tuple member of type '{type.signature}'"
        "end of array")
| item :: items, type :: types => do
    let child ← variantOf codec item type
    let children ← membersOf codec items types
    return child :: children
termination_by structural items => items

/- What two items are packed to as an entry. -/
def pairOf (codec : Codec) :
    List Value → BasicType → Ty → Except Error Variant
| [key, value], keyType, type =>
    entryOf key keyType (variantOf codec value type)
| items, _, _ =>
    .error
      ((Value.array items).mismatch "a [key, value] pair")
termination_by structural items => items

/- What items are packed to as elements of a type. -/
def elementsOf (codec : Codec) :
    List Value → Ty → Except Error (List Variant)
| [], _ => .ok []
| item :: items, element => do
    let child ← variantOf codec item element
    let children ← elementsOf codec items element
    return child :: children
termination_by structural items => items

/- What the entries of a map are packed to. -/
def entriesOf (codec : Codec) :
    List (String × Value) → BasicType → Ty →
      Except Error (List Variant)
| [], _, _ => .ok []
| (name, value) :: entries, keyType, type => do
    let key ← Value.parseKey name keyType
    let child ←
      entryOf key keyType (variantOf codec value type)
    let children ← entriesOf codec entries keyType type
    return child :: children
termination_by structural entries => entries

end

variable {codec : Codec}

/- The elements of an array are packed in their order. -/
theorem elementsOf_eq_mapM
    (items : List Value)
    (element : Ty) :
    codec.elementsOf items element =
      items.mapM (codec.variantOf · element) := by
  induction items with
  | nil => rfl
  | cons item items ih =>
      rw [elementsOf, List.mapM_cons, ih]

/- The entries of a map are packed in their order, as pairs. -/
theorem entriesOf_eq_mapM
    (entries : List (String × Value))
    (key : BasicType)
    (type : Ty) :
    codec.entriesOf entries key type =
      entries.mapM (fun entry => do
        let name ← Value.parseKey entry.1 key
        codec.variantOf (.array [name, entry.2])
          (.dictEntry key type)) := by
  induction entries with
  | nil => rfl
  | cons entry entries ih =>
      rw [entriesOf, List.mapM_cons, ih]
      cases Value.parseKey entry.1 key <;> rfl

end Codec

end GVariant

------------------------------------------------------------
-- Packing At A Type
------------------------------------------------------------

namespace GVariant

namespace Reader

/- What starts with a type string is taken as that type. -/
theorem Took.eq_after_of_chars
    {r r' : Reader}
    {type other : Ty}
    {rest : List Char}
    (hTook : r.Took other.chars r')
    (hRest : r.rest = type.chars ++ rest) :
    other = type ∧ r' = r.after type.chars rest := by
  have hText :
      other.chars ++ r'.rest = type.chars ++ rest := by
    rw [← hTook.1, hRest]
  rcases Ty.chars_append_inj hText with ⟨rfl, hSame⟩
  rw [← hSame]
  exact ⟨rfl, hTook.2⟩

end Reader

namespace Conversion

variable {conv : Conversion}
variable {type : Ty}
variable {depth : Nat}
variable {r : Reader}
variable {rest : List Char}

/- What is packed at a type is of it and takes all of it. -/
theorem eq_after_of_pack
    {value : Value}
    {v : Variant}
    {r' : Reader}
    (hPack : pack conv value depth r = (.ok v, r'))
    (hRest : r.rest = type.chars ++ rest) :
    v.type = type ∧ r' = r.after type.chars rest := by
  have hInside : ∀ w ∈ value.variants, True := by
    simp
  have hPacked := pack_ends conv hInside depth r v r' hPack
  exact hPacked.took.eq_after_of_chars hRest

/- An element type is read behind the head of an array. -/
theorem readAt_element
    {element : Ty}
    (hRest : r.rest = element.chars ++ rest)
    (hReader : depth + (Ty.array element).nesting ≤ r.maxDepth) :
    r.readAt (depth + 1) =
      (.ok element, r.after element.chars rest) := by
  refine Reader.readAt_chars hRest ?_
  rw [Ty.nesting] at hReader
  omega

/-
  Packing the value at a type is packing it by that type,
  for any reader that stands at the type and at any depth
  where the type is within the limits of the reader and of
  the conversion.
-/
def Follows (conv : Conversion) (value : Value) : Prop :=
  ∀ (type : Ty) (depth : Nat) (r : Reader)
    (rest : List Char),
    r.rest = type.chars ++ rest →
      depth + type.nesting ≤ r.maxDepth →
        depth + type.nesting ≤ conv.maxDepth →
          (pack conv value depth r).1 =
            conv.codec.variantOf value type

/- A function is taken through no maybes at other types. -/
theorem throughMaybes_of_ne
    (inner : Ty → Except Error Variant)
    (hClass : type.cls ≠ .maybe) :
    type.throughMaybes inner = inner type := by
  cases type with
  | maybe element => exact absurd rfl hClass
  | _ => rfl

/- Maybes are put around a result, not around a failure. -/
theorem fst_wrapMaybes_one
    (step : Step Variant) :
    (wrapMaybes 1 step).1 = step.1.map .just := by
  rcases step with ⟨result, r⟩
  cases result <;> rfl

/-
  A value that is present follows the type if it does so
  behind the first character of every type that is no maybe.
  The induction takes off the maybes, each one level deeper.
-/
theorem follows_of_packBehind
    {value : Value}
    (hPresent : value ≠ .null)
    {inner : Ty → Except Error Variant}
    (hValue :
      ∀ type,
        conv.codec.variantOf value type =
          type.throughMaybes inner)
    (hBehind :
      ∀ (type : Ty) (depth : Nat) (r : Reader)
        (rest : List Char),
        type.cls ≠ .maybe →
          r.rest = type.chars.tail ++ rest →
            depth + type.nesting ≤ r.maxDepth →
              depth + type.nesting ≤ conv.maxDepth →
                (conv.packBehind value type.cls depth r).1 =
                  inner type) :
    conv.Follows value := by
  have hSingle :
      ∀ (type : Ty) (depth : Nat) (r : Reader)
        (rest : List Char),
        type.cls ≠ .maybe →
          r.rest = type.chars ++ rest →
            depth + type.nesting ≤ r.maxDepth →
              depth + type.nesting ≤ conv.maxDepth →
                (pack conv value depth r).1 =
                  type.throughMaybes inner := by
    intro type depth r rest hClass hRest hReader hLimit
    rcases type.chars_eq_cons with ⟨tail, hChars⟩
    have hHead : r.rest = type.cls.char :: (tail ++ rest) := by
      rw [hRest, hChars, List.cons_append]
    rw [throughMaybes_of_ne inner hClass,
      pack_class conv type.cls hPresent hClass hHead
        (Nat.le_trans (Nat.le_add_right _ _) hReader)]
    refine hBehind type depth _ rest hClass ?_ ?_ hLimit
    · rw [hChars]
      rfl
    · exact hReader
  intro type depth r rest hRest hReader hLimit
  rw [hValue]
  induction type generalizing depth r rest with
  | maybe element ih =>
      rw [Ty.nesting] at hReader hLimit
      have hElement :
          (pack conv value (depth + 1)
              (r.after ['m'] (element.chars ++ rest))).1 =
            element.throughMaybes inner := by
        apply ih (depth + 1) _ rest rfl
        · rw [Reader.maxDepth_after]
          omega
        · omega
      rw [pack_maybe conv hPresent hRest (by omega),
        fst_wrapMaybes_one, Ty.throughMaybes, ← hElement]
      rfl
  | _ =>
      apply hSingle _ depth r rest ?_ hRest hReader hLimit
      simp [Ty.cls]

end Conversion

end GVariant

------------------------------------------------------------
-- Values Without Items
------------------------------------------------------------

namespace GVariant

namespace Conversion

variable {conv : Conversion}
variable {type : Ty}
variable {depth : Nat}
variable {r : Reader}
variable {rest : List Char}

/- A value is not packed item by item behind most heads. -/
theorem fst_packFlat
    (codec : Codec)
    (value : Value)
    (hArray : type.cls ≠ .array)
    (hRest : r.rest = type.chars.tail ++ rest)
    (hReader : depth + type.nesting ≤ r.maxDepth) :
    (packFlat value type.cls depth r).1 =
      codec.leafOf value type := by
  cases type with
  | array element => exact absurd rfl hArray
  | maybe element =>
      have hNested :
          depth + 1 + element.nesting ≤ r.maxDepth := by
        rw [Ty.nesting] at hReader
        omega
      have hElement := Reader.readAt_chars hRest hNested
      simp only [packFlat, Ty.cls, hElement]
      rfl
  | «variant» => cases value <;> rfl
  | _ => rfl

theorem fst_packLeaf
    (conv : Conversion)
    (value : Value)
    (hRest : r.rest = type.chars.tail ++ rest)
    (hReader : depth + type.nesting ≤ r.maxDepth) :
    (packLeaf conv value type.cls depth r).1 =
      conv.codec.leafOf value type := by
  cases type with
  | array element =>
      have hElement := readAt_element hRest hReader
      simp only [packLeaf, Ty.cls, hElement]
      rfl
  | _ =>
      refine fst_packFlat conv.codec value ?_ hRest hReader
      simp [Ty.cls]

/- A value without items follows the type. -/
theorem follows_leaf
    {value : Value}
    (hPresent : value ≠ .null)
    (hValue :
      ∀ type,
        conv.codec.variantOf value type =
          type.throughMaybes (conv.codec.leafOf value))
    (hLeaf :
      ∀ cls depth r,
        conv.packBehind value cls depth r =
          packLeaf conv value cls depth r) :
    conv.Follows value := by
  apply follows_of_packBehind hPresent hValue
  intro type depth r rest _ hRest hReader _
  rw [hLeaf]
  exact fst_packLeaf conv value hRest hReader

/- So does a value that is absent, whose type may be a maybe. -/
theorem follows_null
    (conv : Conversion) :
    conv.Follows .null := by
  intro type depth r rest hRest hReader _
  rcases type.chars_eq_cons with ⟨tail, hChars⟩
  have hHead :
      r.readHead false depth =
        (.ok (0, type.cls),
          r.after [type.cls.char] (tail ++ rest)) := by
    apply Reader.readHead_class
    · rw [hRest, hChars, List.cons_append]
    · exact Nat.le_trans (Nat.le_add_right _ _) hReader
    · exact fun _ => rfl
  have hBody :
      (r.after [type.cls.char] (tail ++ rest)).rest =
        type.chars.tail ++ rest := by
    rw [hChars]
    rfl
  rw [pack, hHead]
  exact fst_packLeaf conv .null hBody hReader

end Conversion

end GVariant

------------------------------------------------------------
-- Members, Elements And Entries
------------------------------------------------------------

namespace GVariant

namespace Conversion

variable {conv : Conversion}
variable {depth : Nat}
variable {r : Reader}
variable {rest : List Char}

/- Members follow their types if every item does. -/
theorem fst_packMembers
    {items : List Value}
    (hItems : ∀ item ∈ items, conv.Follows item)
    {types : List Ty}
    (hRest : r.rest = Ty.charsAll types ++ ')' :: rest)
    (hReader :
      ∀ type ∈ types, depth + type.nesting ≤ r.maxDepth)
    (hLimit :
      ∀ type ∈ types, depth + type.nesting ≤ conv.maxDepth) :
    (packMembers conv items depth r).1 =
      conv.codec.membersOf items types := by
  induction types generalizing items r with
  | nil =>
      have hPeek : r.peek? = some ')' := by
        rw [Reader.peek?, hRest]
        rfl
      cases items <;> rw [packMembers, hPeek] <;> rfl
  | cons type types ih =>
      rw [Ty.charsAll, List.append_assoc] at hRest
      rcases List.forall_mem_cons.mp hReader with
        ⟨hFirstReader, hOthersReader⟩
      rcases List.forall_mem_cons.mp hLimit with
        ⟨hFirstLimit, hOthersLimit⟩
      rcases type.chars_eq_cons with ⟨tail, hChars⟩
      have hPeek : r.peek? = some type.cls.char := by
        rw [Reader.peek?, hRest, hChars]
        rfl
      have hOpen := type.cls.char_ne_close
      cases items with
      | nil =>
          have hMissing :
              missingMember depth r =
                .typeMismatch
                  s!"a tuple member of type '{type.signature}'"
                  "end of array" := by
            rw [missingMember,
              Reader.readAt_chars hRest hFirstReader]
          simp only [packMembers, hPeek, hMissing]
          rfl
      | cons item items =>
          rcases List.forall_mem_cons.mp hItems with
            ⟨hItem, hItems'⟩
          have hFirst :=
            hItem type depth r _ hRest hFirstReader hFirstLimit
          rw [packMembers, hPeek, Codec.membersOf, ← hFirst]
          split
          · rename_i hNone
            cases hNone
          · rename_i hClose
            exact absurd (Option.some.inj hClose) hOpen
          · rcases hPack : pack conv item depth r with
              ⟨result, r'⟩
            cases result with
            | error e => rfl
            | ok child =>
                have hBehind := (eq_after_of_pack hPack hRest).2
                subst hBehind
                have hOthers :=
                  ih (r := r.after type.chars _) hItems' rfl
                    hOthersReader hOthersLimit
                simp only [bind, Except.bind, ← hOthers]
                rcases packMembers conv items depth
                    (r.after type.chars _) with
                  ⟨children, r''⟩
                cases children <;> rfl

/-
  An entry whose brace was taken follows its key type and
  its value type. The closing brace is behind the value.
-/
theorem fst_packEntryWith
    {value : Value}
    (hValue : conv.Follows value)
    (key : Value)
    {keyType : BasicType}
    {type : Ty}
    (hRest :
      r.rest = keyType.char :: (type.chars ++ '}' :: rest))
    (hReader : depth + (type.nesting + 1) ≤ r.maxDepth)
    (hLimit : depth + (type.nesting + 1) ≤ conv.maxDepth) :
    (packEntryWith (pack conv value (depth + 1)) key
        depth r).1 =
      Codec.entryOf key keyType
        (conv.codec.variantOf value type) := by
  have hKey :=
    packEntryKey_char key hRest (by omega : depth + 1 ≤ _)
  have hPacked :
      (pack conv value (depth + 1)
          (r.after [keyType.char]
            (type.chars ++ '}' :: rest))).1 =
        conv.codec.variantOf value type := by
    apply hValue type (depth + 1) _ _ rfl
    · rw [Reader.maxDepth_after]
      omega
    · omega
  rw [packEntryWith, hKey, Codec.entryOf, ← hPacked]
  cases hBasic : key.packBasic keyType with
  | error e => rfl
  | ok packedKey =>
      rcases hPack :
          pack conv value (depth + 1)
            (r.after [keyType.char]
              (type.chars ++ '}' :: rest)) with
        ⟨result, r'⟩
      cases result with
      | error e => simp only [hPack, bind, Except.bind]
      | ok packedValue =>
          have hBehind := (eq_after_of_pack hPack rfl).2
          subst hBehind
          simp only [hPack]
          rw [Reader.closeEntry_brace rfl]
          rfl

/- Two items follow an entry type, others are no entry. -/
theorem fst_packPair
    {items : List Value}
    (hItems : ∀ item ∈ items, conv.Follows item)
    {keyType : BasicType}
    {type : Ty}
    (hRest :
      r.rest = keyType.char :: (type.chars ++ '}' :: rest))
    (hReader : depth + (type.nesting + 1) ≤ r.maxDepth)
    (hLimit : depth + (type.nesting + 1) ≤ conv.maxDepth) :
    (packPair conv items depth r).1 =
      conv.codec.pairOf items keyType type := by
  match items with
  | [] => rfl
  | [_] => rfl
  | [key, value] =>
      have hValue := hItems value (by simp)
      exact fst_packEntryWith hValue key hRest hReader hLimit
  | _ :: _ :: _ :: _ => rfl

/- Elements follow their type, each by its own reader. -/
theorem packElements_eq
    {items : List Value}
    (hItems : ∀ item ∈ items, conv.Follows item)
    {element : Ty}
    (hLimit : depth + element.nesting ≤ conv.maxDepth) :
    packElements conv items element depth =
      conv.codec.elementsOf items element := by
  induction items with
  | nil => rfl
  | cons item items ih =>
      rcases List.forall_mem_cons.mp hItems with
        ⟨hItem, hItems'⟩
      have hRest :
          (Reader.ofChars element.chars conv.maxDepth).rest =
            element.chars ++ [] := by
        rw [List.append_nil]
        rfl
      rw [packElements, Codec.elementsOf,
        hItem element depth _ [] hRest hLimit hLimit,
        ih hItems']
      cases conv.codec.variantOf item element with
      | error e => rfl
      | ok child =>
          cases conv.codec.elementsOf items element <;> rfl

/- Entries of a map follow their key and value types. -/
theorem packEntries_eq
    {entries : List (String × Value)}
    (hEntries : ∀ entry ∈ entries, conv.Follows entry.2)
    (key : BasicType)
    {type : Ty}
    (hLimit : depth + (type.nesting + 1) ≤ conv.maxDepth) :
    packEntries conv entries key (.dictEntry key type) depth =
      conv.codec.entriesOf entries key type := by
  induction entries with
  | nil => rfl
  | cons entry entries ih =>
      rcases List.forall_mem_cons.mp hEntries with
        ⟨hEntry, hEntries'⟩
      have hDepth : depth ≤ conv.maxDepth := by
        omega
      rcases openEntry_eq_ok key type hDepth with
        ⟨r, hOpen, hRest, hMax⟩
      rw [packEntries, Codec.entriesOf, hOpen, ih hEntries']
      cases Value.parseKey entry.1 key with
      | error e => rfl
      | ok name =>
          have hFirst :=
            fst_packEntryWith hEntry name hRest
              (hMax.symm ▸ hLimit) hLimit
          simp only [hFirst, bind, Except.bind]
          cases Codec.entryOf name key
              (conv.codec.variantOf entry.2 type) with
          | error e => rfl
          | ok child =>
              cases conv.codec.entriesOf entries key type <;> rfl

end Conversion

end GVariant

------------------------------------------------------------
-- Packing Follows The Type
------------------------------------------------------------

namespace GVariant

namespace Conversion

variable {conv : Conversion}

/- An array follows the type if its items do. -/
theorem follows_array
    {items : List Value}
    (hItems : ∀ item ∈ items, conv.Follows item) :
    conv.Follows (.array items) := by
  apply follows_of_packBehind (by simp) fun _ => rfl
  intro type depth r rest _ hRest hReader hLimit
  cases type with
  | tuple types =>
      have hMembers :
          r.rest = Ty.charsAll types ++ ')' :: rest := by
        simpa [Ty.chars] using hRest
      have hNested :
          ∀ limit,
            depth + (Ty.tuple types).nesting ≤ limit →
              ∀ type ∈ types,
                depth + 1 + type.nesting ≤ limit := by
        intro limit hInside type hMem
        have hBelow :
            type.nesting < (Ty.tuple types).nesting :=
          (Ty.nestingAll_lt_iff types).mp
            (Nat.lt_succ_self _) type hMem
        omega
      have hPacked :=
        fst_packMembers hItems hMembers (hNested _ hReader)
          (hNested _ hLimit)
      simp only [packBehind, Ty.cls, ← hPacked]
      rcases packMembers conv items (depth + 1) r with
        ⟨result, r'⟩
      cases result <;> rfl
  | dictEntry key value =>
      have hEntry :
          r.rest = key.char :: (value.chars ++ '}' :: rest) := by
        simpa [Ty.chars] using hRest
      exact fst_packPair hItems hEntry hReader hLimit
  | array element =>
      have hNested :
          depth + 1 + element.nesting ≤ conv.maxDepth := by
        rw [Ty.nesting] at hLimit
        omega
      have hElements := packElements_eq hItems hNested
      simp only [packBehind, Ty.cls, packArray,
        readAt_element hRest hReader, hElements]
      split
      · rfl
      · cases conv.codec.elementsOf items element <;> rfl
  | _ =>
      refine fst_packFlat conv.codec _ ?_ hRest hReader
      simp [Ty.cls]

/- A map follows the type if the values of its entries do. -/
theorem follows_map
    {entries : List (String × Value)}
    (hEntries : ∀ entry ∈ entries, conv.Follows entry.2) :
    conv.Follows (.map entries) := by
  apply follows_of_packBehind (by simp) fun _ => rfl
  intro type depth r rest _ hRest hReader hLimit
  cases type with
  | array element =>
      have hElement := readAt_element hRest hReader
      cases element with
      | dictEntry key type =>
          have hNested :
              depth + 1 + (type.nesting + 1) ≤ conv.maxDepth := by
            rw [Ty.nesting, Ty.nesting] at hLimit
            omega
          have hPacked := packEntries_eq hEntries key hNested
          simp only [packBehind, Ty.cls, packDictionary,
            hElement, hPacked]
          cases conv.codec.entriesOf entries key type <;> rfl
      | _ =>
          simp only [packBehind, Ty.cls, packDictionary,
            hElement]
          rfl
  | _ =>
      refine fst_packFlat conv.codec _ ?_ hRest hReader
      simp [Ty.cls]

/-
  Whatever the value, packing it at a type is packing it by
  that type. The induction is on the value, for every type,
  depth and reader.
-/
theorem follows
    (conv : Conversion)
    (value : Value) :
    conv.Follows value := by
  induction value with
  | null => exact follows_null conv
  | array items ih => exact follows_array ih
  | map entries ih => exact follows_map ih
  | _ =>
      exact
        follows_leaf (by simp) (fun _ => rfl) fun _ _ _ => rfl

/-
  Packing at the start of a reader that stands at a type
  within the limits.
-/
theorem fst_packNext
    {type : Ty}
    {r : Reader}
    {rest : List Char}
    (value : Value)
    (hRest : r.rest = type.chars ++ rest)
    (hReader : type.nesting ≤ r.maxDepth)
    (hLimit : type.nesting ≤ conv.maxDepth) :
    (conv.packNext value r).1 =
      conv.codec.variantOf value type := by
  rw [← Nat.zero_add type.nesting] at hReader hLimit
  exact conv.follows value type 0 r rest hRest hReader hLimit

/- Packing by the type string of a type within the limit. -/
theorem packAs_eq_variantOf
    {signature : String}
    {type : Ty}
    (value : Value)
    (hRead :
      (Reader.ofString signature conv.maxDepth).readWhole =
        .ok type) :
    conv.packAs signature value =
      conv.codec.variantOf value type := by
  rcases Reader.readWhole_ofString_eq_ok_iff.mp hRead with
    ⟨hChars, hNested⟩
  have hRest :
      (Reader.ofString signature conv.maxDepth).rest =
        type.chars ++ [] := by
    rw [hChars, List.append_nil]
    rfl
  rw [packAs_eq_readWhole, hRead]
  exact fst_packNext value hRest hNested hNested

/- A type within the limit is packed by as its type string. -/
theorem packAs_signature_eq
    {type : Ty}
    (value : Value)
    (hNested : type.nesting ≤ conv.maxDepth) :
    conv.packAs type.signature value =
      conv.codec.variantOf value type := by
  apply packAs_eq_variantOf
  rw [Reader.readWhole_ofString_eq_ok_iff, Ty.signature,
    String.toList_ofList]
  exact ⟨rfl, hNested⟩

end Conversion

end GVariant
