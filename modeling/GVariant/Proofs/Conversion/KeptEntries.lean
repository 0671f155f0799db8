import GVariant.Proofs.Conversion.Containers
import GVariant.Proofs.Conversion.Keys
import GVariant.Proofs.Conversion.Unpacking

/-
  What a map keeps of the dictionary that it was unpacked
  from.

  The keys of a dictionary are rendered to texts, and no two
  keys of one type to the same text, unless they are
  doubles. So there is an entry of the map for each key, no
  two keys share one, and it has what the last value of the
  key is unpacked to. The order of the entries makes no
  other difference, and none of them is lost if no key is
  repeated.

  Key definitions include:
    * `Conversion.KeepsEntries`

  Main declarations:
    * `Variant.valid_of_mem_keys`
    * `Conversion.map_fst_of_unpacksEntry`
    * `Conversion.exists_unpacked_of_last`
    * `Conversion.keepsEntries_of_deepUnpack`
-/

------------------------------------------------------------
-- Keys Of A Dictionary
------------------------------------------------------------

namespace GVariant

namespace Variant

variable {key : BasicType}
variable {type : Ty}

/- Every variant of an array type but bytes is a list. -/
theorem exists_entries_of_type
    {v : Variant}
    (hType : v.type = .array (.dictEntry key type)) :
    ∃ entries, v = .arrayOf (.dictEntry key type) entries := by
  cases v with
  | arrayOf element entries =>
      cases hType
      exact ⟨entries, rfl⟩
  | _ => cases hType

theorem mem_keysOf_iff
    {s : Scalar}
    {entries : List Variant} :
    s ∈ keysOf entries ↔
      ∃ value, .entry s value ∈ entries := by
  unfold keysOf
  rw [List.mem_filterMap]
  constructor
  · rintro ⟨entry, hMem, hKey⟩
    cases entry with
    | entry key value =>
        cases hKey
        exact ⟨value, hMem⟩
    | _ => cases hKey
  · rintro ⟨value, hMem⟩
    exact ⟨.entry s value, hMem, rfl⟩

/- The keys are valid scalars of the key type. -/
theorem valid_of_mem_keysOf
    {entries : List Variant}
    (hWell :
      (arrayOf (.dictEntry key type) entries).WellFormed) :
    ∀ s ∈ keysOf entries, s.type = key ∧ s.Valid := by
  intro s hMem
  rcases mem_keysOf_iff.mp hMem with ⟨value, hEntry⟩
  rcases hWell with ⟨_, hTypes, hEntries⟩
  have hValid := (wellFormedAll_iff entries).mp hEntries _ hEntry
  have hType := hTypes _ hEntry
  simp only [Variant.type, Ty.dictEntry.injEq] at hType
  exact ⟨hType.1, hValid.1⟩

end Variant

end GVariant

------------------------------------------------------------
-- Entries Of The Map
------------------------------------------------------------

namespace GVariant

namespace Conversion

variable {levels : Nat}
variable {unpackChild : Variant → Except Error Value}
variable {entries : List Variant}
variable {pairs : List (String × Value)}

/- The names that are put into the map are those of the keys. -/
theorem map_fst_of_unpacksEntry
    (hPairs :
      List.Forall₂ (UnpacksEntry levels unpackChild) entries
        pairs) :
    pairs.map Prod.fst =
      (Variant.keysOf entries).map Scalar.keyText := by
  induction hPairs with
  | nil => rfl
  | cons hPair _ ih =>
      rcases hPair with ⟨key, value, rfl, _, hName, _⟩
      rw [List.map_cons, hName, ih]
      rfl

/-
  The entry of the map for the last entry with a key. What
  comes after it has other names.
-/
theorem exists_unpacked_of_last
    {before after : List Variant}
    {s : Scalar}
    {child : Variant}
    (hPairs :
      List.Forall₂ (UnpacksEntry levels unpackChild)
        (before ++ .entry s child :: after) pairs)
    (hLast :
      ∀ t ∈ Variant.keysOf after, t.keyText ≠ s.keyText) :
    ∃ unpacked,
      unpackChild child = .ok unpacked ∧
        Entries.find? s.keyText (Entries.ofList pairs) =
          some unpacked := by
  let done := pairs.take before.length
  have hDrop :
      List.Forall₂ (UnpacksEntry levels unpackChild)
        (.entry s child :: after)
        (pairs.drop before.length) := by
    simpa using List.forall₂_drop before.length hPairs
  have hSplit : pairs = done ++ pairs.drop before.length :=
    (List.take_append_drop before.length pairs).symm
  rw [List.forall₂_cons_left_iff] at hDrop
  rcases hDrop with
    ⟨⟨name, unpacked⟩, later, hPair, hLater, hRest⟩
  rcases hPair with ⟨key, value, hEntry, _, hName, hValue⟩
  cases hEntry
  cases hName
  have hOther : s.keyText ∉ later.map Prod.fst := by
    rw [map_fst_of_unpacksEntry hLater]
    intro hMem
    rcases List.mem_map.mp hMem with ⟨t, hT, hText⟩
    exact hLast t hT hText
  refine ⟨unpacked, hValue, ?_⟩
  rw [hSplit, hRest]
  exact Entries.find?_ofList_append_cons unpacked hOther

end Conversion

end GVariant

------------------------------------------------------------
-- Unpacked Dictionaries
------------------------------------------------------------

namespace GVariant

namespace Conversion

/-
  A map that has the entries of a dictionary: it is found by
  the texts that keys are unpacked and rendered to, these
  tell keys apart, and the last value of each key is there.
-/
structure KeepsEntries
    (conv : Conversion)
    (v : Variant)
    (table : List (String × Value)) : Prop where
  sorted : Entries.Sorted table
  rendered :
    ∀ s ∈ v.keys,
      ∃ unpacked,
        conv.deepUnpack (.scalar s) = .ok unpacked ∧
          unpacked.toKeyText = .ok s.keyText
  mem_keys :
    ∀ name,
      name ∈ table.map Prod.fst ↔
        ∃ s ∈ v.keys, s.keyText = name
  distinct :
    ∀ s ∈ v.keys,
      ∀ t ∈ v.keys, s ≠ t → s.keyText ≠ t.keyText
  last_value :
    ∀ before s child after,
      v.children = before ++ .entry s child :: after →
        s ∉ Variant.keysOf after →
          ∃ unpacked,
            conv.deepUnpack child = .ok unpacked ∧
              Entries.find? s.keyText table = some unpacked
  length_eq_iff :
    table.length = v.childCount ↔ v.keys.Nodup

/-
  A dictionary that is unpacked, in whatever order its
  entries are and whether or not keys are repeated, becomes
  a map that keeps its entries.
-/
theorem keepsEntries_of_deepUnpack
    {conv : Conversion}
    {v : Variant}
    {key : BasicType}
    {type : Ty}
    {value : Value}
    (hWell : v.WellFormed)
    (hType : v.type = .array (.dictEntry key type))
    (hDouble : key ≠ .double)
    (hUnpack : conv.deepUnpack v = .ok value) :
    ∃ table,
      value = .map table ∧ conv.KeepsEntries v table := by
  rcases Variant.exists_entries_of_type hType with
    ⟨entries, rfl⟩
  have hEntries :
      conv.unpackEntries conv.maxDepth
          (conv.unpackLevels true false conv.maxDepth)
          entries =
        .ok value :=
    hUnpack
  rcases unpackEntries_eq_ok_iff.mp hEntries with
    ⟨pairs, hPairs, rfl⟩
  have hValid := Variant.valid_of_mem_keysOf hWell
  have hNames := map_fst_of_unpacksEntry hPairs
  have hDistinct :
      ∀ s ∈ Variant.keysOf entries,
        ∀ t ∈ Variant.keysOf entries,
          s ≠ t → s.keyText ≠ t.keyText := by
    intro s hS t hT hNe hText
    exact hNe (eq_of_keyText_eq hDouble hValid hS hT hText)
  refine ⟨_, rfl, ?_⟩
  constructor
  · exact Entries.sorted_ofList pairs
  · intro s _
    exact ⟨s.toValue, rfl, s.toKeyText_toValue⟩
  · intro name
    rw [Entries.mem_keys_ofList, hNames, List.mem_map]
    rfl
  · exact hDistinct
  · rintro before s child after rfl hLast
    have hOther :
        ∀ t ∈ Variant.keysOf after,
          t.keyText ≠ s.keyText := by
      intro t hT
      apply hDistinct
      · simpa [Variant.keysOf] using Or.inr (Or.inr hT)
      · simp [Variant.keysOf, Variant.entry?]
      · rintro rfl
        exact hLast hT
    rcases exists_unpacked_of_last hPairs hOther with
      ⟨unpacked, hChild, hFound⟩
    have hDeep : conv.deepUnpack child = .ok unpacked :=
      unpackVariant_of_unpackLevels (Nat.le_succ _) hChild
    exact ⟨unpacked, hDeep, hFound⟩
  · have hLength : pairs.length = entries.length :=
      hPairs.length_eq.symm
    rw [Variant.childCount, ← hLength,
      Entries.length_ofList_eq_iff, hNames]
    exact nodup_map_keyText_iff hDouble hValid

/- The widest key twice, around a small one. -/
def repeatedWidest : Variant :=
  .arrayOf (.dictEntry (.int .uint64) (.maybe .byte))
    [.entry (.int .uint64 18446744073709551615)
        (.just (Variant.byte 1)),
      .entry (.int .uint64 7) (.nothing .byte),
      .entry (.int .uint64 18446744073709551615)
        (.just (Variant.byte 3))]

theorem keepsEntries_repeatedWidest :
    repeatedWidest.WellFormed ∧
      standard.deepUnpack repeatedWidest =
        .ok (.map
          [("18446744073709551615", .int 3), ("7", .null)]) ∧
        standard.KeepsEntries repeatedWidest
          [("18446744073709551615", .int 3), ("7", .null)] := by
  have hWell : repeatedWidest.WellFormed := by
    simp [repeatedWidest, Variant.WellFormed,
      Variant.WellFormedAll, Variant.type, Scalar.type,
      Scalar.Valid, Variant.byte, Ty.byte]
  have hUnpack :
      standard.deepUnpack repeatedWidest =
        .ok (.map
          [("18446744073709551615", .int 3),
            ("7", .null)]) := by
    rfl
  rcases keepsEntries_of_deepUnpack hWell rfl (by decide)
      hUnpack with
    ⟨table, hMap, hKeeps⟩
  cases hMap
  exact ⟨hWell, hUnpack, hKeeps⟩

end Conversion

end GVariant
