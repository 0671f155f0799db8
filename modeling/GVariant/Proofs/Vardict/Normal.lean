import GVariant.Proofs.Text.Utf8
import GVariant.Proofs.Vardict.Boxing

/-
  The normal form of a dictionary of boxed values.

  A dictionary that comes from elsewhere has its entries in
  any order, and a key may come again. Read and made a
  variant again, it has the last entry of each key, in the
  order of the bytes of the keys. So it is unchanged exactly
  if its keys increase.

  Key definitions include:
    * `Entries.IsLast`
    * `Vardict.KeysIncrease`
    * `Vardict.Normalises`

  Main declarations:
    * `Entries.mem_ofList_iff`
    * `Entries.ofList_eq_self_iff`
    * `Vardict.exists_pairs_of_type`
    * `Vardict.ofVariant_normalises`
-/

------------------------------------------------------------
-- Last Entries
------------------------------------------------------------

namespace GVariant

namespace Entries

variable {α : Type}

/- An entry behind which its key does not come again. -/
def IsLast
    (entries : List (String × α))
    (entry : String × α) : Prop :=
  ∃ before after,
    entries = before ++ entry :: after ∧
      entry.1 ∉ after.map Prod.fst

/- Every key has a last entry. -/
theorem exists_isLast_of_mem_keys
    {key : String}
    {entries : List (String × α)}
    (hMem : key ∈ entries.map Prod.fst) :
    ∃ value, IsLast entries (key, value) := by
  induction entries with
  | nil => cases hMem
  | cons head entries ih =>
      by_cases hLater : key ∈ entries.map Prod.fst
      · rcases ih hLater with
          ⟨value, before, after, hSplit, hLast⟩
        exact
          ⟨value, head :: before, after, by rw [hSplit]; rfl,
            hLast⟩
      · rcases List.mem_cons.mp hMem with rfl | hTail
        · exact ⟨head.2, [], entries, rfl, hLater⟩
        · exact absurd hTail hLater

/- A table has the last entry of each key, and no other. -/
theorem mem_ofList_iff
    {entry : String × α}
    {entries : List (String × α)} :
    entry ∈ ofList entries ↔ IsLast entries entry := by
  have hLastMem :
      ∀ entry, IsLast entries entry → entry ∈ ofList entries :=
    by
    rintro ⟨key, value⟩ ⟨before, after, rfl, hLast⟩
    rw [← find?_eq_some_iff (sorted_ofList _)]
    exact find?_ofList_append_cons value hLast
  constructor
  · rcases entry with ⟨key, value⟩
    intro hMem
    have hKey : key ∈ entries.map Prod.fst :=
      mem_keys_ofList.mp (List.mem_map_of_mem hMem)
    rcases exists_isLast_of_mem_keys hKey with
      ⟨value', hLast⟩
    have hFirst := hLastMem _ hLast
    rw [← find?_eq_some_iff (sorted_ofList _)] at hMem hFirst
    rw [hMem, Option.some.injEq] at hFirst
    rw [hFirst]
    exact hLast
  · exact hLastMem entry

/- Entries are all kept in place exactly if in order. -/
theorem ofList_eq_self_iff
    {entries : List (String × α)} :
    ofList entries = entries ↔ Sorted entries := by
  constructor
  · intro hSame
    exact hSame ▸ sorted_ofList entries
  · exact ofList_of_sorted

end Entries

end GVariant

------------------------------------------------------------
-- Entries Of A Boxed Dictionary
------------------------------------------------------------

namespace GVariant

namespace Vardict

/- Keys in strictly increasing order of their bytes. -/
def KeysIncrease (pairs : List (String × Variant)) : Prop :=
  (pairs.map Prod.fst).Pairwise fun s t =>
    Utf8.encode s < Utf8.encode t

theorem keysIncrease_iff_sorted
    (pairs : List (String × Variant)) :
    KeysIncrease pairs ↔ Entries.Sorted pairs := by
  simp only [KeysIncrease, Entries.Sorted, List.pairwise_map,
    Utf8.encode_lt_encode_iff]

theorem boxedPair_injective :
    Function.Injective boxedPair := by
  rintro ⟨key, value⟩ ⟨key', value'⟩ hSame
  simp only [boxedPair, Variant.entry.injEq,
    Scalar.text.injEq, true_and,
    Variant.boxed.injEq] at hSame
  rw [hSame.1, hSame.2]

/- Entries with string keys and boxes are boxed pairs. -/
theorem exists_pair_of_type
    {v : Variant}
    (hWell : v.WellFormed)
    (hType : v.type = .vardictEntry) :
    ∃ pair,
      v = boxedPair pair ∧ '\x00' ∉ pair.1.toList := by
  cases v with
  | entry key value =>
      simp only [Variant.type, Ty.dictEntry.injEq] at hType
      rcases hType with ⟨hKey, hValue⟩
      cases key with
      | text kind name =>
          cases hKey
          cases value with
          | boxed content =>
              exact ⟨(name, content), rfl, hWell.1⟩
          | _ => simp [Variant.type] at hValue
      | _ => cases hKey
  | _ => simp [Variant.type] at hType

/-
  A well-formed dictionary of boxed values is a list of
  boxed pairs, without a NUL in their keys.
-/
theorem exists_pairs_of_type
    {v : Variant}
    (hWell : v.WellFormed)
    (hType : v.type = .vardict) :
    ∃ pairs : List (String × Variant),
      v = .arrayOf .vardictEntry (pairs.map boxedPair) ∧
        ∀ pair ∈ pairs, '\x00' ∉ pair.1.toList := by
  cases v with
  | arrayOf element children =>
      cases hType
      rcases hWell with ⟨_, hTypes, hChildren⟩
      rw [Variant.wellFormedAll_iff] at hChildren
      rcases
          exists_forall₂_of_forall fun child hMem =>
            exists_pair_of_type (hChildren child hMem)
              (hTypes child hMem) with
        ⟨pairs, hPairs⟩
      have hMap : children = pairs.map boxedPair := by
        rw [← List.forall₂_eq_eq_eq, List.forall₂_map_right_iff]
        exact hPairs.imp fun _ _ hPair => hPair.1
      refine ⟨pairs, by rw [hMap], ?_⟩
      intro pair hMem
      rcases exists_of_forall₂_right hPairs hMem with
        ⟨child, _, _, hNul⟩
      exact hNul
  | _ => simp [Variant.type] at hType

end Vardict

end GVariant

------------------------------------------------------------
-- The Normal Form
------------------------------------------------------------

namespace GVariant

namespace Vardict

/-
  A variant of boxed pairs and the variant that has the
  last pair of each key, in the order of the keys.
-/
structure Normalises
    (v w : Variant)
    (pairs table : List (String × Variant)) : Prop where
  input :
    v = .arrayOf .vardictEntry (pairs.map boxedPair)
  output :
    w = .arrayOf .vardictEntry (table.map boxedPair)
  wellFormed : w.WellFormed
  increasing : KeysIncrease table
  keys :
    ∀ key,
      key ∈ table.map Prod.fst ↔ key ∈ pairs.map Prod.fst
  last :
    ∀ pair, pair ∈ table ↔ Entries.IsLast pairs pair
  unchanged : w = v ↔ KeysIncrease pairs

/- The table of the pairs of a dictionary normalises it. -/
theorem normalises_ofList
    {pairs : List (String × Variant)}
    (hWell :
      (Variant.arrayOf .vardictEntry
        (pairs.map boxedPair)).WellFormed) :
    Normalises
      (.arrayOf .vardictEntry (pairs.map boxedPair))
      (.arrayOf .vardictEntry
        ((Entries.ofList pairs).map boxedPair))
      pairs (Entries.ofList pairs) where
  input := rfl
  output := rfl
  wellFormed := by
    rcases hWell with ⟨hByte, hTypes, hChildren⟩
    rw [Variant.wellFormedAll_iff] at hChildren
    have hKept :
        ∀ child ∈ (Entries.ofList pairs).map boxedPair,
          child ∈ pairs.map boxedPair := by
      intro child hMem
      rcases List.mem_map.mp hMem with ⟨pair, hPair, rfl⟩
      exact
        List.mem_map_of_mem (Entries.mem_of_mem_ofList hPair)
    exact
      ⟨hByte, fun child hMem => hTypes child (hKept child hMem),
        (Variant.wellFormedAll_iff _).mpr fun child hMem =>
          hChildren child (hKept child hMem)⟩
  increasing :=
    (keysIncrease_iff_sorted _).mpr
      (Entries.sorted_ofList pairs)
  keys := fun _ => Entries.mem_keys_ofList
  last := fun _ => Entries.mem_ofList_iff
  unchanged := by
    rw [keysIncrease_iff_sorted, ← Entries.ofList_eq_self_iff,
      Variant.arrayOf.injEq,
      (List.map_injective_iff.mpr boxedPair_injective).eq_iff]
    simp

/-
  A well-formed dictionary of boxed values is read, and made
  a variant in normal form. A variant of another type is
  refused for its type.
-/
theorem ofVariant_normalises
    (v : Variant) :
    (v.WellFormed →
        v.type = .vardict →
          ∃ d w pairs table,
            ofVariant v = .ok d ∧
              d.toVariant = .ok w ∧
              Normalises v w pairs table) ∧
      (v.type ≠ .vardict →
        ofVariant v =
          .error
            (.typeMismatch "a variant of type 'a\x7bsv\x7d'"
              v.quotedType)) := by
  constructor
  · intro hWell hType
    rcases exists_pairs_of_type hWell hType with
      ⟨pairs, rfl, hNul⟩
    have hEnd :
        ∀ pair ∈ Entries.ofList pairs,
          '\x00' ∉ pair.1.toList :=
      fun pair hMem =>
        hNul pair (Entries.mem_of_mem_ofList hMem)
    exact
      ⟨_, _, pairs, Entries.ofList pairs,
        ofVariant_boxed pairs,
        toVariant_eq_ok_iff.mpr ⟨hEnd, rfl⟩,
        normalises_ofList hWell⟩
  · intro hOther
    rw [ofVariant, if_neg hOther]
    rfl

/-
  A dictionary whose keys are out of order, and one of which
  comes again.
-/
def shuffledKeys : Variant :=
  .arrayOf .vardictEntry
    [.entry (.text .string "ü") (.boxed (.tuple [])),
      .entry (.text .string "b")
        (.boxed (.scalar (.double ⟨0x7FF8000000000001⟩))),
      .entry (.text .string "ü") (.boxed (.boxed (.bytes [])))]

theorem ofVariant_normalises_shuffledKeys :
    shuffledKeys.WellFormed ∧
      (∃ d w pairs table,
        ofVariant shuffledKeys = .ok d ∧
          d.toVariant = .ok w ∧
          Normalises shuffledKeys w pairs table) ∧
      (Variant.bytes [0]).type ≠ .vardict ∧
      ofVariant (.bytes [0]) =
        .error
          (.typeMismatch "a variant of type 'a\x7bsv\x7d'"
            "'ay'") := by
  have hWell : shuffledKeys.WellFormed := by
    simp [shuffledKeys, Variant.WellFormed,
      Variant.WellFormedAll, Scalar.Valid, TextKind.Accepts,
      Variant.type, Scalar.type]
  have hOther : (Variant.bytes [0]).type ≠ .vardict := by
    decide
  exact
    ⟨hWell, (ofVariant_normalises shuffledKeys).1 hWell rfl,
      hOther, (ofVariant_normalises (.bytes [0])).2 hOther⟩

end Vardict

end GVariant
