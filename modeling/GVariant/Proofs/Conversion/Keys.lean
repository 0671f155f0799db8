import GVariant.Proofs.Conversion.Agreement
import GVariant.Proofs.Conversion.Canonical
import Mathlib.Data.List.Nodup

/-
  The keys that the entries of a map are packed to.

  The names of a map are different texts. Each of them is
  read by the key type, and only an integer has more than
  one text that is read as it: signs and zeros in front make
  no difference. A dictionary therefore has a repeated key
  exactly if two names are the same integer. These entries
  are packed, but only the last of them is in the map that
  the dictionary is unpacked to.

  Key definitions include:
    * `Value.readKey?`
    * `Value.ReadsKeys`
    * `Variant.keysOf`
    * `Variant.keys`

  Main declarations:
    * `Value.readInt?_of_readKey?`
    * `Conversion.keysOf_packEntries`
    * `Conversion.exists_entries_of_packAs`
    * `Conversion.nodup_keys_iff_of_packAs`
-/

------------------------------------------------------------
-- Names Read As Keys
------------------------------------------------------------

namespace GVariant

/- A text that is read without a sign is read with one. -/
theorem Numeral.readInt?_of_readUnsigned?
    {text : List Char}
    {n : Nat}
    (hRead : readUnsigned? text = some n) :
    readInt? text = some n := by
  simp only [readUnsigned?, Option.ite_none_left_eq_some]
    at hRead
  simp [readInt?, hRead]

namespace Value

/- The scalar of a type that a name is packed to as a key. -/
def readKey? (type : BasicType) (name : String) :
    Option Scalar :=
  match parseKey name type with
  | .error _ => none
  | .ok key =>
      match key.packBasic type with
      | .ok (.scalar s) => some s
      | _ => none

theorem readKey?_eq_some_iff
    {type : BasicType}
    {name : String}
    {s : Scalar} :
    readKey? type name = some s ↔
      ∃ key,
        parseKey name type = .ok key ∧
          key.packBasic type = .ok (.scalar s) := by
  unfold readKey?
  cases hParse : parseKey name type with
  | error e => simp
  | ok key =>
      cases hPack : key.packBasic type with
      | error e => simp [hPack]
      | ok v => cases v <;> simp [hPack]

/- The text of a scalar other than a double is read as it. -/
theorem readKey?_keyText
    {s : Scalar}
    (hValid : s.Valid)
    (hDouble : s.type ≠ .double) :
    readKey? s.type s.keyText = some s :=
  readKey?_eq_some_iff.mpr
    (Scalar.packBasic_parseKey hValid hDouble)

/- The keys that the names of entries are read as. -/
def ReadsKeys
    (type : BasicType)
    (entries : List (String × Value))
    (keys : List Scalar) : Prop :=
  keys.map some =
    entries.map fun entry => readKey? type entry.1

theorem readsKeys_cons_iff
    {type : BasicType}
    {entry : String × Value}
    {entries : List (String × Value)}
    {s : Scalar}
    {keys : List Scalar} :
    ReadsKeys type (entry :: entries) (s :: keys) ↔
      readKey? type entry.1 = some s ∧
        ReadsKeys type entries keys := by
  simp [ReadsKeys, eq_comm]

/- A name is read as a valid scalar of the type. -/
theorem valid_of_readKey?
    {type : BasicType}
    {name : String}
    {s : Scalar}
    (hRead : readKey? type name = some s) :
    s.type = type ∧ s.Valid := by
  rcases readKey?_eq_some_iff.mp hRead with ⟨key, _, hPack⟩
  rcases exists_of_packBasic hPack with
    ⟨s', hScalar, hType, hValid⟩
  cases hScalar
  exact ⟨hType, hValid⟩

/- The value of an integer key is the integer that it is. -/
theorem toInteger_of_parseIntKey?
    {kind : IntKind}
    {name : String}
    {key : Value}
    (hParse : parseIntKey? kind name = some key) :
    ∃ n : Int,
      Numeral.readInt? name.toList = some n ∧
        key.toInteger kind =
          if kind.InRange n then
            .ok n
          else
            .error (key.outOfRange kind) := by
  unfold parseIntKey? at hParse
  split at hParse
  · rcases Option.bind_eq_some_iff.mp hParse with
      ⟨n, hRead, hValue⟩
    split at hValue
    · rename_i hRange
      cases hValue
      exact
        ⟨n, Numeral.readInt?_of_readUnsigned? hRead,
          toInteger_uint hRange _⟩
    · cases hValue
  · rcases Option.bind_eq_some_iff.mp hParse with
      ⟨n, hRead, hValue⟩
    split at hValue
    · rename_i hRange
      cases hValue
      exact ⟨n, hRead, toInteger_int hRange _⟩
    · cases hValue

/- A name that is read as an integer is that integer. -/
theorem readInt?_of_readKey?
    {kind : IntKind}
    {name : String}
    {s : Scalar}
    (hRead : readKey? (.int kind) name = some s) :
    ∃ word,
      s = .int kind word ∧
        Numeral.readInt? name.toList =
          some (kind.value word) := by
  rcases readKey?_eq_some_iff.mp hRead with
    ⟨key, hParse, hPack⟩
  simp only [parseKey] at hParse
  split at hParse
  · rename_i key' hKey
    cases hParse
    rcases toInteger_of_parseIntKey? hKey with
      ⟨n, hName, hInteger⟩
    simp only [packBasic, hInteger] at hPack
    split at hPack
    · rename_i hRange
      cases hPack
      refine ⟨kind.word n, rfl, ?_⟩
      rw [hName, IntKind.value_word hRange]
    · cases hPack
  · cases hParse

/- Any other name than a number is the text of its key. -/
theorem keyText_of_readKey?
    {type : BasicType}
    (hDouble : type ≠ .double)
    (hInt : ∀ kind, type ≠ .int kind)
    {name : String}
    {s : Scalar}
    (hRead : readKey? type name = some s) :
    s.keyText = name := by
  rcases readKey?_eq_some_iff.mp hRead with
    ⟨key, hParse, hPack⟩
  cases type with
  | boolean =>
      simp only [parseKey] at hParse
      split at hParse
      · rename_i key' hKey
        cases hParse
        split at hKey
        · rename_i hTrue
          cases hKey
          cases hPack
          exact hTrue.symm
        · split at hKey
          · rename_i hFalse
            cases hKey
            cases hPack
            exact hFalse.symm
          · cases hKey
      · cases hParse
  | int kind => exact absurd rfl (hInt kind)
  | double => exact absurd rfl hDouble
  | text kind =>
      cases hParse
      have hText : Variant.text kind name = .ok (.scalar s) :=
        hPack
      cases (Variant.text_eq_ok_iff.mp hText).2
      rfl

/-
  Names of integers are read as the same key exactly if they
  are the same integer.
-/
theorem readKey?_eq_iff
    {kind : IntKind}
    {a b : String}
    {s t : Scalar}
    (hA : readKey? (.int kind) a = some s)
    (hB : readKey? (.int kind) b = some t) :
    s = t ↔
      Numeral.readInt? a.toList =
        Numeral.readInt? b.toList := by
  rcases readInt?_of_readKey? hA with ⟨word, rfl, hIntA⟩
  rcases readInt?_of_readKey? hB with ⟨word', rfl, hIntB⟩
  rw [hIntA, hIntB]
  constructor
  · intro hSame
    cases hSame
    rfl
  · intro hSame
    have hWord := congrArg kind.word (Option.some.inj hSame)
    rw [kind.word_value, kind.word_value] at hWord
    rw [hWord]

end Value

end GVariant

------------------------------------------------------------
-- Keys Of Dictionaries
------------------------------------------------------------

namespace GVariant

namespace Variant

/- The keys of entries, in order. -/
def keysOf (entries : List Variant) : List Scalar :=
  entries.filterMap fun entry => entry.entry?.map Prod.fst

/- The keys of the entries that a variant has as children. -/
def keys (v : Variant) : List Scalar :=
  keysOf v.children

theorem keyTexts_eq_map
    (entries : List Variant) :
    keyTexts entries = (keysOf entries).map Scalar.keyText := by
  induction entries with
  | nil => rfl
  | cons entry entries ih =>
      cases entry with
      | entry key value => simp [keyTexts, keysOf, entry?, ih]
      | _ => simpa [keyTexts, keysOf, entry?] using ih

end Variant

namespace Conversion

variable {conv : Conversion}
variable {depth : Nat}

/- The key of an entry is what its name is packed to. -/
theorem key_of_packEntryWith
    {packValue : Reader → Step Variant}
    {key : Value}
    {type : BasicType}
    {r r' : Reader}
    {rest : List Char}
    {child : Variant}
    (hRest : r.rest = type.char :: rest)
    (hDepth : depth + 1 ≤ r.maxDepth)
    (hPack :
      packEntryWith packValue key depth r =
        (.ok child, r')) :
    ∃ s value,
      child = .entry s value ∧
        key.packBasic type = .ok (.scalar s) := by
  unfold packEntryWith at hPack
  rw [packEntryKey_char key hRest hDepth] at hPack
  split at hPack
  · cases hPack
  · rename_i packed behind hKey
    have hBasic : key.packBasic type = .ok packed :=
      (Prod.mk.inj hKey).1
    rcases Value.exists_of_packBasic hBasic with
      ⟨s, rfl, _, _⟩
    split at hPack
    · cases hPack
    · rename_i value _ _
      split at hPack
      · cases hPack
      · cases hPack
        exact ⟨s, value, rfl, hBasic⟩

/-
  The keys of a packed dictionary are what the names of the
  map are read as, in the same order. The induction is on
  the entries of the map.
-/
theorem keysOf_packEntries
    {key : BasicType}
    {type : Ty}
    (hDepth : depth + 1 ≤ conv.maxDepth)
    {entries : List (String × Value)}
    {children : List Variant}
    (hPack :
      packEntries conv entries key (.dictEntry key type)
          depth =
        .ok children) :
    Value.ReadsKeys key entries
      (Variant.keysOf children) := by
  induction entries generalizing children with
  | nil =>
      cases hPack
      rfl
  | cons entry entries ih =>
      rcases openEntry_eq_ok key type
          (Nat.le_of_succ_le hDepth) with
        ⟨r, hOpen, hRest, hMax⟩
      rw [packEntries] at hPack
      split at hPack
      · cases hPack
      · rename_i name hParse
        rw [hOpen] at hPack
        simp only at hPack
        split at hPack
        · cases hPack
        · rename_i child hChild
          split at hPack
          · cases hPack
          · rename_i others hOthers
            cases hPack
            rcases key_of_packEntryWith hRest
                (by rw [hMax]; exact hDepth)
                (Prod.ext hChild rfl) with
              ⟨s, value, rfl, hKey⟩
            have hRead :
                Value.readKey? key entry.1 = some s :=
              Value.readKey?_eq_some_iff.mpr
                ⟨name, hParse, hKey⟩
            exact
              Value.readsKeys_cons_iff.mpr
                ⟨hRead, ih hOthers⟩

/-
  A map is packed as a dictionary by packing its entries at
  the depth of the element type.
-/
theorem exists_entries_of_packAs
    {key : BasicType}
    {type : Ty}
    {entries : List (String × Value)}
    {v : Variant}
    (hPack :
      conv.packAs (Ty.array (.dictEntry key type)).signature
          (.map entries) =
        .ok v) :
    ∃ children,
      v = .arrayOf (.dictEntry key type) children ∧
        packEntries conv entries key (.dictEntry key type)
            1 =
          .ok children := by
  let signature := (Ty.array (.dictEntry key type)).signature
  have hInside : ∀ w ∈ (Value.map entries).variants, True :=
    fun _ _ => trivial
  rcases packed_of_packAs hInside hPack with
    ⟨_, hChars, hNested⟩
  have hText :
      signature.toList =
        (Ty.array (.dictEntry key type)).chars := by
    simp [signature, Ty.signature]
  have hType : v.type = .array (.dictEntry key type) :=
    Ty.chars_injective (hChars.trans hText)
  rw [hType, Ty.nesting] at hNested
  rcases packAs_eq_ok_iff.mp hPack with ⟨_, r, _, hNext, _⟩
  have hRest :
      (Reader.ofString signature conv.maxDepth).rest =
        (Ty.array (.dictEntry key type)).chars ++ [] := by
    rw [List.append_nil]
    exact hText
  have hReader :
      0 + ((Ty.dictEntry key type).nesting + 1) ≤
        (Reader.ofString signature conv.maxDepth).maxDepth := by
    rw [Nat.zero_add]
    exact hNested
  have hPresent : Value.map entries ≠ .null := by
    simp
  rcases pack_array_chars conv hPresent hRest hReader with
    ⟨hBehind, hElement⟩
  rw [packNext, hBehind] at hNext
  simp only [packBehind, packDictionary, hElement] at hNext
  split at hNext
  · cases hNext
  · rename_i children hChildren
    have hArray := (Prod.mk.inj hNext).1
    refine ⟨children, ?_, hChildren⟩
    rw [(Variant.array_eq_ok_iff.mp hArray).2]
    simp [Variant.packed]

end Conversion

end GVariant

------------------------------------------------------------
-- Repeated Keys
------------------------------------------------------------

namespace GVariant

namespace Conversion

variable {conv : Conversion}
variable {key : BasicType}
variable {entries : List (String × Value)}
variable {keys : List Scalar}

/- Every name is read as one of the keys. -/
theorem exists_key_of_mem
    (hKeys : Value.ReadsKeys key entries keys)
    {entry : String × Value}
    (hMem : entry ∈ entries) :
    ∃ s, Value.readKey? key entry.1 = some s := by
  have hRead :
      Value.readKey? key entry.1 ∈ keys.map some := by
    rw [hKeys]
    exact List.mem_map_of_mem hMem
  rcases List.mem_map.mp hRead with ⟨s, _, hSome⟩
  exact ⟨s, hSome.symm⟩

/- Keys are repeated as the results of reading them are. -/
theorem nodup_keys_iff_pairwise
    (hKeys : Value.ReadsKeys key entries keys) :
    keys.Nodup ↔
      entries.Pairwise fun a b =>
        Value.readKey? key a.1 ≠ Value.readKey? key b.1 := by
  have hSome :
      (keys.map some).Nodup ↔ keys.Nodup :=
    List.nodup_map_iff fun _ _ => Option.some.inj
  rw [← hSome, hKeys]
  exact List.pairwise_map

/- Names that are read as integers repeat as integers. -/
theorem nodup_keys_iff_of_int
    {kind : IntKind}
    (hKeys : Value.ReadsKeys (.int kind) entries keys) :
    keys.Nodup ↔
      (entries.map fun entry =>
        Numeral.readInt? entry.1.toList).Nodup := by
  rw [nodup_keys_iff_pairwise hKeys, List.Nodup,
    List.pairwise_map]
  refine List.Pairwise.iff_of_mem ?_
  intro a b hA hB
  rcases exists_key_of_mem hKeys hA with ⟨s, hS⟩
  rcases exists_key_of_mem hKeys hB with ⟨t, hT⟩
  have hSame := Value.readKey?_eq_iff hS hT
  rw [hS, hT, ne_eq, Option.some_inj, hSame]

/- Names that are the texts of their keys do not repeat. -/
theorem nodup_keys_of_forall
    (hKeys : Value.ReadsKeys key entries keys)
    (hEntries : Entries.Sorted entries)
    (hTexts :
      ∀ entry ∈ entries,
        ∀ s, Value.readKey? key entry.1 = some s →
          s.keyText = entry.1) :
    keys.Nodup := by
  rw [nodup_keys_iff_pairwise hKeys]
  refine hEntries.imp_of_mem ?_
  intro a b hA hB hLess hSame
  rcases exists_key_of_mem hKeys hA with ⟨s, hS⟩
  have hName : a.1 = b.1 := by
    rw [← hTexts a hA s hS, ← hTexts b hB s (hSame ▸ hS)]
  rw [hName] at hLess
  exact String.lt_irrefl _ hLess

/-
  Keys of any type other than doubles are repeated only
  where two names are the same integer.
-/
theorem nodup_keys_iff
    (hDouble : key ≠ .double)
    (hKeys : Value.ReadsKeys key entries keys)
    (hEntries : Entries.Sorted entries) :
    keys.Nodup ↔
      ∀ kind,
        key = .int kind →
          (entries.map fun entry =>
            Numeral.readInt? entry.1.toList).Nodup := by
  by_cases hInt : ∃ kind, key = .int kind
  · rcases hInt with ⟨kind, rfl⟩
    rw [nodup_keys_iff_of_int hKeys]
    constructor
    · intro hNodup _ _
      exact hNodup
    · intro hNodup
      exact hNodup kind rfl
  · have hOther : ∀ kind, key ≠ .int kind :=
      fun kind hKind => hInt ⟨kind, hKind⟩
    constructor
    · intro _ kind hKind
      exact absurd hKind (hOther kind)
    · intro _
      refine nodup_keys_of_forall hKeys hEntries ?_
      intro entry _ s hRead
      exact Value.keyText_of_readKey? hDouble hOther hRead

/- Names that scalars are rendered to are never repeated. -/
theorem nodup_keys_of_isKeyText
    (hDouble : key ≠ .double)
    (hKeys : Value.ReadsKeys key entries keys)
    (hEntries : Entries.Sorted entries)
    (hTexts :
      ∀ entry ∈ entries, Value.IsKeyText key entry.1) :
    keys.Nodup := by
  refine nodup_keys_of_forall hKeys hEntries ?_
  intro entry hMem s hRead
  rcases hTexts entry hMem with ⟨t, rfl, hValid, hText⟩
  rw [← hText, Value.readKey?_keyText hValid hDouble] at hRead
  rw [← Option.some.inj hRead, hText]

/- Keys of one type other than doubles differ in their texts. -/
theorem eq_of_keyText_eq
    (hDouble : key ≠ .double)
    (hValid : ∀ s ∈ keys, s.type = key ∧ s.Valid)
    {s t : Scalar}
    (hS : s ∈ keys)
    (hT : t ∈ keys)
    (hText : s.keyText = t.keyText) :
    s = t := by
  rcases hValid s hS with ⟨rfl, hValidS⟩
  rcases hValid t hT with ⟨hType, hValidT⟩
  exact
    Scalar.keyText_injective hValidS hValidT hType.symm
      hDouble hText

/- Their texts are repeated only where they are. -/
theorem nodup_map_keyText_iff
    (hDouble : key ≠ .double)
    (hValid : ∀ s ∈ keys, s.type = key ∧ s.Valid) :
    (keys.map Scalar.keyText).Nodup ↔ keys.Nodup := by
  constructor
  · exact List.Nodup.of_map _
  · intro hNodup
    rw [List.nodup_map_iff_inj_on hNodup]
    intro s hS t hT hText
    exact eq_of_keyText_eq hDouble hValid hS hT hText

/-
  The map that a dictionary is unpacked to has as many
  entries as the dictionary exactly if no key is repeated.
-/
theorem length_ofList_hostPairs_eq_iff
    {codec : Codec}
    {children : List Variant}
    (hDouble : key ≠ .double)
    (hValid :
      ∀ s ∈ Variant.keysOf children,
        s.type = key ∧ s.Valid) :
    (Entries.ofList (codec.hostPairs children)).length =
        (Variant.keysOf children).length ↔
      (Variant.keysOf children).Nodup := by
  have hTexts :
      (codec.hostPairs children).map Prod.fst =
        (Variant.keysOf children).map Scalar.keyText := by
    rw [Codec.map_fst_hostPairs, Variant.keyTexts_eq_map]
  have hLength :
      (codec.hostPairs children).length =
        (Variant.keysOf children).length := by
    simpa using congrArg List.length hTexts
  rw [← hLength, Entries.length_ofList_eq_iff, hTexts,
    nodup_map_keyText_iff hDouble hValid]

/-
  The keys of a packed map are what its names are read as.
  They are different exactly if no two names are the same
  integer, and only then is no entry lost when the
  dictionary is unpacked again. Names that are rendered from
  keys are read as different keys.
-/
theorem nodup_keys_iff_of_packAs
    {type : Ty}
    {v : Variant}
    (hDouble : key ≠ .double)
    (hEntries : Entries.Sorted entries)
    (hPack :
      conv.packAs (Ty.array (.dictEntry key type)).signature
          (.map entries) =
        .ok v) :
    Value.ReadsKeys key entries v.keys ∧
      (v.keys.Nodup ↔
        ∀ kind,
          key = .int kind →
            (entries.map fun entry =>
              Numeral.readInt? entry.1.toList).Nodup) ∧
      (∃ table,
        conv.deepUnpack v = .ok (.map table) ∧
          (table.length = entries.length ↔
            v.keys.Nodup)) ∧
      ((∀ entry ∈ entries, Value.IsKeyText key entry.1) →
        v.keys.Nodup) := by
  have hInside : ∀ w ∈ (Value.map entries).variants, True :=
    fun _ _ => trivial
  rcases packed_of_packAs hInside hPack with
    ⟨hTyped, _, hNested⟩
  rcases exists_entries_of_packAs hPack with
    ⟨children, rfl, hChildren⟩
  have hDepth : 1 + 1 ≤ conv.maxDepth := by
    simp only [Variant.type, Ty.nesting] at hNested
    omega
  have hKeys := keysOf_packEntries hDepth hChildren
  have hValid :
      ∀ s ∈ Variant.keysOf children,
        s.type = key ∧ s.Valid := by
    intro s hMem
    have hRead : some s ∈ (Variant.keysOf children).map some :=
      List.mem_map_of_mem hMem
    rw [hKeys] at hRead
    rcases List.mem_map.mp hRead with ⟨entry, _, hEntry⟩
    exact Value.valid_of_readKey? hEntry
  have hLength :
      (Variant.keysOf children).length = entries.length := by
    simpa using congrArg List.length hKeys
  refine
    ⟨hKeys, nodup_keys_iff hDouble hKeys hEntries,
      ⟨_, deepUnpack_eq_host hTyped hNested, ?_⟩, ?_⟩
  · rw [← hLength]
    exact length_ofList_hostPairs_eq_iff hDouble hValid
  · exact nodup_keys_of_isKeyText hDouble hKeys hEntries

/- Two integers, one with a sign that is not needed. -/
def signedNames : List (String × Value) :=
  [("+4", .int 1), ("-3", .null)]

def signedEntries : Variant :=
  .arrayOf (.dictEntry (.int .int16) (.maybe .byte))
    [.entry (.int .int16 4) (.just (Variant.byte 1)),
      .entry (.int .int16 (-3)) (.nothing .byte)]

theorem nodup_keys_signedEntries :
    standard.packAs signedEntries.type.signature
          (.map signedNames) =
        .ok signedEntries ∧
      signedEntries.keys.Nodup ∧
        ∃ table,
          standard.deepUnpack signedEntries =
              .ok (.map table) ∧
            table.length = 2 := by
  have hSorted : Entries.Sorted signedNames := by
    unfold Entries.Sorted signedNames
    decide
  have hPack :
      standard.packAs signedEntries.type.signature
          (.map signedNames) =
        .ok signedEntries := by
    rfl
  rcases nodup_keys_iff_of_packAs (by decide) hSorted
      hPack with
    ⟨_, hKeys, ⟨table, hUnpack, hLength⟩, _⟩
  have hNodup : signedEntries.keys.Nodup := by
    refine hKeys.mpr ?_
    intro _ _
    decide
  exact
    ⟨hPack, hNodup, table, hUnpack, hLength.mpr hNodup⟩

/- Two texts of one integer, and what they are packed to. -/
def oneTwice : List (String × Value) :=
  [("+1", .int 1), ("1", .int 2)]

def repeatedOne : Variant :=
  .arrayOf (.dictEntry (.int .int32) .byte)
    [.entry (.int .int32 1) (Variant.byte 1),
      .entry (.int .int32 1) (Variant.byte 2)]

/- The first of the two entries is lost. -/
theorem not_nodup_keys_repeatedOne :
    Entries.Sorted oneTwice ∧
      standard.packAs "a\x7biy\x7d" (.map oneTwice) =
          .ok repeatedOne ∧
        ¬ repeatedOne.keys.Nodup ∧
          standard.deepUnpack repeatedOne =
            .ok (.map [("1", .int 2)]) := by
  refine ⟨?_, by rfl, by decide, by rfl⟩
  unfold Entries.Sorted oneTwice
  decide

end Conversion

end GVariant
