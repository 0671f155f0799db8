import GVariant.Proofs.Conversion.Repack

/-
  Deeply unpacking a packed value gives the value back, for
  every value that is canonical for its type.

  A type admits several host values for one variant, such
  as integers of either kind or items of a byte array. The
  canonical one is the one that unpacking makes. It is the
  host value of a variant that loses nothing, and therefore
  packs to that variant.

  Key definitions include:
    * `Value.CanonicalBasic`
    * `Value.Canonical`
    * `Codec.Represents`
    * `Codec.Covers`

  Main declarations:
    * `Value.exists_scalar_of_canonicalBasic`
    * `Codec.covers`
    * `Conversion.deepUnpack_packAs`
-/

------------------------------------------------------------
-- Canonical Values
------------------------------------------------------------

namespace GVariant

namespace Value

/-
  The canonical values of a basic type. An integer of the
  widest unsigned kind is unsigned only if it has to be.
-/
def CanonicalBasic : BasicType → Value → Prop
| .boolean, .bool _ => True
| .int .uint64, .int n => 0 ≤ n.toInt
| .int .uint64, .uint n => Int64.maxValue.toInt < n.toNat
| .int kind, .int n => kind.InRange n.toInt
| .double, .double _ => True
| .text kind, .string text => kind.Accepts text
| _, _ => False

/- A text that some key of a basic type is rendered to. -/
def IsKeyText (type : BasicType) (text : String) : Prop :=
  ∃ key : Scalar,
    key.type = type ∧ key.Valid ∧ key.keyText = text

mutual

/-
  The canonical values of a type. Those of a maybe are the
  absent value and the canonical values of its element that
  are present. Those of a dictionary are maps in the order
  of their keys. A dictionary of doubles has none.
-/
def Canonical : Ty → Value → Prop
| .basic type, value => CanonicalBasic type value
| .variant, .variant w => w.WellFormed
| .maybe element, value =>
    value = .null ∨ value ≠ .null ∧ Canonical element value
| .array (.basic (.int .byte)), .bytes _ => True
| .array (.basic (.int .byte)), _ => False
| .array (.dictEntry key type), .map entries =>
    key ≠ .double ∧
      Entries.Sorted entries ∧
      ∀ entry ∈ entries,
        IsKeyText key entry.1 ∧ Canonical type entry.2
| .array (.dictEntry _ _), _ => False
| .array element, .array items =>
    ∀ item ∈ items, Canonical element item
| .tuple types, .array items => CanonicalAll types items
| .dictEntry key type, .array [first, second] =>
    CanonicalBasic key first ∧ Canonical type second
| _, _ => False

/- As many canonical values as types, in the same order. -/
def CanonicalAll : List Ty → List Value → Prop
| [], [] => True
| type :: types, item :: items =>
    Canonical type item ∧ CanonicalAll types items
| _, _ => False

end

/- Other arrays have arrays as their canonical values. -/
theorem canonical_array_iff
    {element : Ty}
    (hByte : element ≠ .byte)
    (hElement : element.cls ≠ .dictEntry)
    {value : Value} :
    Canonical (.array element) value ↔
      ∃ items,
        value = .array items ∧
          ∀ item ∈ items, Canonical element item := by
  have hEntry :
      ∀ key type, element ≠ .dictEntry key type := by
    rintro key type rfl
    exact hElement rfl
  cases value with
  | array items => simp [Canonical]
  | _ => simp [Canonical, hByte, hEntry]

/- Entries have pairs as their canonical values. -/
theorem canonical_dictEntry_iff
    {key : BasicType}
    {type : Ty}
    {value : Value} :
    Canonical (.dictEntry key type) value ↔
      ∃ first second,
        value = .array [first, second] ∧
          CanonicalBasic key first ∧
            Canonical type second := by
  constructor
  · intro hCanonical
    cases value with
    | array items =>
        match items with
        | [first, second] =>
            exact ⟨first, second, rfl, hCanonical⟩
        | [] | [_] | _ :: _ :: _ :: _ =>
            simp [Canonical] at hCanonical
    | _ => simp [Canonical] at hCanonical
  · rintro ⟨first, second, rfl, hPair⟩
    exact hPair

/- A signed integer is that of the integer it stands for. -/
theorem ofInt_toInt
    (n : Int64) :
    ofInt n.toInt = .int n := by
  rw [ofInt, Int64.ofInt_toInt]

/- The widest unsigned integers are signed if they can be. -/
theorem ofNat_toNat_toInt
    {n : Int64}
    (hSign : 0 ≤ n.toInt) :
    ofNat n.toInt.toNat = .int n := by
  have hNat : (n.toInt.toNat : Int) = n.toInt :=
    Int.toNat_of_nonneg hSign
  have hRange : IntKind.InRange .int64 n.toInt :=
    ⟨n.minValue_le_toInt, n.toInt_le⟩
  rw [ofNat, hNat, if_pos hRange, ← Int64.ofInt_eq_ofNat,
    hNat, Int64.ofInt_toInt]

/- The widest unsigned integers are unsigned otherwise. -/
theorem ofNat_toNat
    {n : UInt64}
    (hLarge : Int64.maxValue.toInt < n.toNat) :
    ofNat n.toNat = .uint n := by
  have hRange : ¬ IntKind.InRange .int64 n.toNat :=
    fun hSmall => Int.not_le.mpr hLarge hSmall.2
  rw [ofNat, if_neg hRange, UInt64.ofNat_toNat]

/- Scalars have the canonical values of their types. -/
theorem exists_scalar_of_canonicalBasic
    {type : BasicType}
    {value : Value}
    (hCanonical : CanonicalBasic type value) :
    ∃ s : Scalar,
      s.type = type ∧ s.Valid ∧ s.toValue = value := by
  unfold CanonicalBasic at hCanonical
  split at hCanonical
  · rename_i value
    exact ⟨.boolean value, rfl, trivial, rfl⟩
  · rename_i n
    let word := IntKind.word .uint64 n.toInt
    have hRange : IntKind.InRange .uint64 n.toInt :=
      ⟨hCanonical, Int.le_trans n.toInt_le (by decide)⟩
    have hWord : (word.toNat : Int) = n.toInt :=
      IntKind.value_word hRange
    have hNat : word.toNat = n.toInt.toNat := by
      rw [← hWord, Int.toNat_natCast]
    refine ⟨.int .uint64 word, rfl, trivial, ?_⟩
    rw [Scalar.toValue, hNat, ofNat_toNat_toInt hCanonical]
  · rename_i n
    exact
      ⟨.int .uint64 n.toBitVec, rfl, trivial,
        ofNat_toNat hCanonical⟩
  · rename_i kind n hKind
    have hValue := IntKind.value_word hCanonical
    refine ⟨.int kind (kind.word n.toInt), rfl, trivial, ?_⟩
    rw [Scalar.toValue_int hKind, hValue, ofInt_toInt]
  · rename_i value
    exact ⟨.double value, rfl, trivial, rfl⟩
  · rename_i kind text
    exact ⟨.text kind text, rfl, hCanonical, rfl⟩
  · exact hCanonical.elim

end Value

end GVariant

------------------------------------------------------------
-- Represented Values
------------------------------------------------------------

namespace GVariant

namespace Codec

/-
  A variant of a type has a value as its host value, and
  loses nothing to it.
-/
structure Represents
    (codec : Codec)
    (type : Ty)
    (value : Value)
    (v : Variant) : Prop where
  type_eq : v.type = type
  wellFormed : v.WellFormed
  lossless : v.Lossless
  host_eq : codec.host v = value

/- All canonical values of a type are represented. -/
def Covers (codec : Codec) (type : Ty) : Prop :=
  ∀ value,
    value.Canonical type →
      ∃ v, codec.Represents type value v

variable {codec : Codec}

/- Basic types are covered by scalars. -/
theorem covers_basic
    (type : BasicType) :
    codec.Covers (.basic type) := by
  intro value hCanonical
  rcases Value.exists_scalar_of_canonicalBasic hCanonical with
    ⟨s, hType, hValid, hValue⟩
  exact ⟨.scalar s, congrArg _ hType, hValid, trivial, hValue⟩

/- The boxed type is covered by boxes. -/
theorem covers_variant :
    codec.Covers .variant := by
  intro value hCanonical
  cases value with
  | «variant» w =>
      exact ⟨.boxed w, rfl, hCanonical, trivial, rfl⟩
  | _ => simp [Value.Canonical] at hCanonical

/- Maybes are covered if their elements are. -/
theorem covers_maybe
    {element : Ty}
    (hElement : codec.Covers element) :
    codec.Covers (.maybe element) := by
  intro value hCanonical
  rcases hCanonical with hAbsent | ⟨hPresent, hCanonical⟩
  · subst hAbsent
    exact ⟨.nothing element, rfl, trivial, trivial, rfl⟩
  · rcases hElement value hCanonical with ⟨child, hChild⟩
    have hJust : child.isNothing = false := by
      cases child with
      | nothing element =>
          exact absurd hChild.host_eq.symm hPresent
      | _ => rfl
    exact
      ⟨.just child, congrArg _ hChild.type_eq,
        hChild.wellFormed, ⟨hJust, hChild.lossless⟩,
        hChild.host_eq⟩

/- Byte arrays are covered by buffers. -/
theorem covers_bytes
    (hCodec : codec.valueOfBytes = .bytes) :
    codec.Covers (.array .byte) := by
  intro value hCanonical
  cases value with
  | bytes content =>
      refine ⟨.bytes content, rfl, trivial, trivial, ?_⟩
      rw [host, hCodec]
  | _ => simp [Value.Canonical] at hCanonical

/- Other arrays are covered if their elements are. -/
theorem covers_array
    {element : Ty}
    (hByte : element ≠ .byte)
    (hEntry : element.cls ≠ .dictEntry)
    (hElement : codec.Covers element) :
    codec.Covers (.array element) := by
  intro value hCanonical
  rcases (Value.canonical_array_iff hByte hEntry).mp
      hCanonical with ⟨items, rfl, hItems⟩
  have hImages :
      ∀ item ∈ items,
        ∃ child : Variant,
          (child.type = element ∧
            child.WellFormed ∧ child.Lossless) ∧
            codec.host child = item := by
    intro item hMem
    rcases hElement item (hItems item hMem) with ⟨v, hItem⟩
    exact
      ⟨v, ⟨hItem.type_eq, hItem.wellFormed, hItem.lossless⟩,
        hItem.host_eq⟩
  rcases exists_map_eq hImages with ⟨children, hAll, hMap⟩
  refine
    ⟨.arrayOf element children, rfl, ⟨hByte, ?_, ?_⟩, ?_, ?_⟩
  · exact fun child hMem => (hAll child hMem).1
  · rw [Variant.wellFormedAll_iff]
    exact fun child hMem => (hAll child hMem).2.1
  · exact
      Variant.lossless_arrayOf hEntry
        fun child hMem => (hAll child hMem).2.2
  · rw [host_arrayOf codec hEntry, hMap]

/- Host values of entries are pairs of texts and values. -/
theorem hostPairs_map_entry
    (codec : Codec)
    (pairs : List (Scalar × Variant)) :
    codec.hostPairs
        (pairs.map fun pair => .entry pair.1 pair.2) =
      pairs.map fun pair =>
        (pair.1.keyText, codec.host pair.2) := by
  induction pairs with
  | nil => rfl
  | cons pair pairs ih =>
      simp only [List.map_cons, hostPairs, ih]

/- Dictionaries are covered if their values are. -/
theorem covers_dictionary
    (key : BasicType)
    {type : Ty}
    (hType : codec.Covers type) :
    codec.Covers (.array (.dictEntry key type)) := by
  intro value hCanonical
  cases value with
  | map entries =>
      rcases hCanonical with ⟨hDouble, hSorted, hEntries⟩
      let entryOf (pair : Scalar × Variant) : Variant :=
        .entry pair.1 pair.2
      have hImages :
          ∀ entry ∈ entries,
            ∃ pair : Scalar × Variant,
              ((entryOf pair).type = .dictEntry key type ∧
                (entryOf pair).WellFormed ∧
                (entryOf pair).Lossless) ∧
                (pair.1.keyText, codec.host pair.2) =
                  entry := by
        intro entry hMem
        rcases hEntries entry hMem with
          ⟨⟨s, hKey, hValid, hText⟩, hValue⟩
        rcases hType entry.2 hValue with ⟨v, hItem⟩
        refine ⟨(s, v), ⟨?_, ?_, hItem.lossless⟩, ?_⟩
        · simp [entryOf, Variant.type, hKey, hItem.type_eq]
        · exact ⟨hValid, hItem.wellFormed⟩
        · rw [hText, hItem.host_eq]
      rcases exists_map_eq hImages with ⟨pairs, hAll, hMap⟩
      have hPairs :
          codec.hostPairs (pairs.map entryOf) = entries := by
        rw [hostPairs_map_entry, hMap]
      have hTexts :
          (Variant.keyTexts (pairs.map entryOf)).Pairwise
            (· < ·) := by
        rw [← map_fst_hostPairs codec, hPairs,
          List.pairwise_map]
        exact hSorted
      have hEach :
          ∀ child ∈ pairs.map entryOf,
            child.type = .dictEntry key type ∧
              child.WellFormed ∧ child.Lossless :=
        List.forall_mem_map.mpr hAll
      refine
        ⟨.arrayOf (.dictEntry key type) (pairs.map entryOf),
          rfl, ⟨by simp, ?_, ?_⟩, ⟨hDouble, hTexts, ?_⟩, ?_⟩
      · exact fun child hMem => (hEach child hMem).1
      · rw [Variant.wellFormedAll_iff]
        exact fun child hMem => (hEach child hMem).2.1
      · rw [Variant.losslessAll_iff]
        exact fun child hMem => (hEach child hMem).2.2
      · rw [host_dictionary codec hTexts, hPairs]
  | _ => simp [Value.Canonical] at hCanonical

/- Members of tuples are represented one by one. -/
theorem exists_members
    {types : List Ty}
    (hTypes : ∀ type ∈ types, codec.Covers type)
    {items : List Value}
    (hCanonical : Value.CanonicalAll types items) :
    ∃ children,
      Variant.typeAll children = types ∧
        Variant.WellFormedAll children ∧
        Variant.LosslessAll children ∧
        codec.hostAll children = items := by
  induction types generalizing items with
  | nil =>
      cases items with
      | nil => exact ⟨[], rfl, trivial, trivial, rfl⟩
      | cons item items => exact hCanonical.elim
  | cons type types ih =>
      rcases List.forall_mem_cons.mp hTypes with
        ⟨hFirst, hOthers⟩
      cases items with
      | nil => exact hCanonical.elim
      | cons item items =>
          rcases hFirst item hCanonical.1 with ⟨child, hItem⟩
          rcases ih hOthers hCanonical.2 with
            ⟨children, hTail, hWell, hLossless, hHosts⟩
          refine
            ⟨child :: children, ?_,
              ⟨hItem.wellFormed, hWell⟩,
              ⟨hItem.lossless, hLossless⟩, ?_⟩
          · rw [Variant.typeAll, hItem.type_eq, hTail]
          · rw [hostAll, hItem.host_eq, hHosts]

/- Tuples are covered if their members are. -/
theorem covers_tuple
    {types : List Ty}
    (hTypes : ∀ type ∈ types, codec.Covers type) :
    codec.Covers (.tuple types) := by
  intro value hCanonical
  cases value with
  | array items =>
      rcases exists_members hTypes hCanonical with
        ⟨children, hType, hWell, hLossless, hHosts⟩
      exact
        ⟨.tuple children, congrArg Ty.tuple hType, hWell,
          hLossless, congrArg Value.array hHosts⟩
  | _ => simp [Value.Canonical] at hCanonical

/- Entries are covered if their values are. -/
theorem covers_dictEntry
    (key : BasicType)
    {type : Ty}
    (hType : codec.Covers type) :
    codec.Covers (.dictEntry key type) := by
  intro value hCanonical
  rcases Value.canonical_dictEntry_iff.mp hCanonical with
    ⟨first, second, rfl, hFirst, hSecond⟩
  rcases Value.exists_scalar_of_canonicalBasic hFirst with
    ⟨s, hKey, hValid, hScalar⟩
  rcases hType second hSecond with ⟨v, hItem⟩
  refine
    ⟨.entry s v, ?_, ⟨hValid, hItem.wellFormed⟩,
      hItem.lossless, ?_⟩
  · rw [Variant.type, hKey, hItem.type_eq]
  · rw [host, hScalar, hItem.host_eq]

/- All types are covered if byte arrays stay buffers. -/
theorem covers
    (hCodec : codec.valueOfBytes = .bytes)
    (type : Ty) :
    codec.Covers type := by
  suffices hBoth :
      codec.Covers type ∧
        ∀ key value, type = .dictEntry key value →
          codec.Covers value from
    hBoth.1
  induction type with
  | basic type => exact ⟨covers_basic type, by simp⟩
  | «variant» => exact ⟨covers_variant, by simp⟩
  | maybe element ih => exact ⟨covers_maybe ih.1, by simp⟩
  | array element ih =>
      refine ⟨?_, by simp⟩
      by_cases hEntry : element.cls = .dictEntry
      · cases element with
        | dictEntry key type =>
            exact covers_dictionary key (ih.2 key type rfl)
        | _ => cases hEntry
      · by_cases hByte : element = .byte
        · subst hByte
          exact covers_bytes hCodec
        · exact covers_array hByte hEntry ih.1
  | tuple types ih =>
      exact
        ⟨covers_tuple fun type hMem => (ih type hMem).1,
          by simp⟩
  | dictEntry key type ih =>
      refine ⟨covers_dictEntry key ih.1, ?_⟩
      intro name value hEntry
      cases hEntry
      exact ih.1

end Codec

end GVariant

------------------------------------------------------------
-- Unpacking Packed Values
------------------------------------------------------------

namespace GVariant

namespace Conversion

/-
  A value that is canonical for a type is packed by the
  signature of the type, and deeply unpacked again from what
  it is packed to.
-/
theorem exists_packed_of_canonical
    {conv : Conversion}
    (hCodec : conv.codec.valueOfBytes = .bytes)
    {type : Ty}
    (hLimit : type.nesting ≤ conv.maxDepth)
    {value : Value}
    (hCanonical : value.Canonical type) :
    ∃ v,
      conv.packAs type.signature value = .ok v ∧
        conv.deepUnpack v = .ok value := by
  rcases conv.codec.covers hCodec type value hCanonical with
    ⟨v, hItem⟩
  have hNested : v.type.nesting ≤ conv.maxDepth := by
    rw [hItem.type_eq]
    exact hLimit
  have hTyped :=
    (Variant.wellFormed_iff_wellTyped v).mp hItem.wellFormed
  have hPack :=
    packAs_signature hNested
      (repacks_of_lossless hCodec hTyped hItem.lossless)
  have hUnpack := deepUnpack_eq_host hTyped hNested
  rw [hItem.type_eq, hItem.host_eq] at hPack
  rw [hItem.host_eq] at hUnpack
  exact ⟨v, hPack, hUnpack⟩

/- What is packed at all is deeply unpacked. -/
theorem exists_unpacked_of_packAs
    {conv : Conversion}
    {signature : String}
    {value : Value}
    {v : Variant}
    (hPack : conv.packAs signature value = .ok v) :
    ∃ unpacked, conv.deepUnpack v = .ok unpacked := by
  have hInside : ∀ w ∈ value.variants, True :=
    fun _ _ => trivial
  rcases packed_of_packAs hInside hPack with
    ⟨hTyped, _, hLimit⟩
  exact ⟨_, deepUnpack_eq_host hTyped hLimit⟩

/-
  Deep unpacking undoes packing for canonical values of all
  types within the limit, if byte arrays stay buffers, and
  does not fail on anything that is packed.
-/
theorem deepUnpack_packAs
    (conv : Conversion) :
    (conv.codec.valueOfBytes = .bytes →
      ∀ type value,
        type.nesting ≤ conv.maxDepth →
          value.Canonical type →
            ∃ v,
              conv.packAs type.signature value = .ok v ∧
                conv.deepUnpack v = .ok value) ∧
      ∀ signature value v,
        conv.packAs signature value = .ok v →
          ∃ unpacked, conv.deepUnpack v = .ok unpacked := by
  refine ⟨?_, ?_⟩
  · intro hCodec type value hLimit hCanonical
    exact exists_packed_of_canonical hCodec hLimit hCanonical
  · intro signature value v hPack
    exact exists_unpacked_of_packAs hPack

def mixedType : Ty :=
  .tuple
    [.array (.dictEntry (.int .int16) (.maybe .string)),
      .byteString,
      .maybe (.maybe .boolean),
      .array (.int .uint64),
      .dictEntry (.text .objectPath) .variant]

def mixedValue : Value :=
  .array
    [.map
        [("-3", .null), ("10", .string "a"), ("9", .null)],
      .bytes [1, 2],
      .null,
      .array [.int 7, .uint 0xFFFFFFFFFFFFFFFF],
      .array [.string "/a", .variant (.just (.bytes []))]]

theorem deepUnpack_packAs_mixedValue :
    mixedValue.Canonical mixedType ∧
      (∃ v,
        standard.packAs mixedType.signature mixedValue =
            .ok v ∧
          standard.deepUnpack v = .ok mixedValue) ∧
        standard.packAs "ay" (.string "a") =
            .ok (.bytes [97, 0]) ∧
          ∃ unpacked,
            standard.deepUnpack (.bytes [97, 0]) =
              .ok unpacked := by
  have hKeys :
      Value.IsKeyText (.int .int16) "-3" ∧
        Value.IsKeyText (.int .int16) "10" ∧
          Value.IsKeyText (.int .int16) "9" :=
    ⟨⟨.int .int16 0xFFFD, rfl, trivial, by decide⟩,
      ⟨.int .int16 10, rfl, trivial, by decide⟩,
      ⟨.int .int16 9, rfl, trivial, by decide⟩⟩
  have hSorted :
      Entries.Sorted
        [("-3", Value.null), ("10", .string "a"),
          ("9", .null)] := by
    unfold Entries.Sorted
    decide
  have hCanonical : mixedValue.Canonical mixedType := by
    simp [mixedValue, mixedType, Value.Canonical,
      Value.CanonicalAll, Value.CanonicalBasic, hKeys,
      hSorted, TextKind.Accepts, Variant.WellFormed]
    decide
  have hPack :
      standard.packAs "ay" (.string "a") =
        .ok (.bytes [97, 0]) := by
    rfl
  exact
    ⟨hCanonical,
      (deepUnpack_packAs standard).1 rfl mixedType mixedValue
        (by decide) hCanonical,
      hPack,
      (deepUnpack_packAs standard).2 _ _ _ hPack⟩

end Conversion

end GVariant
