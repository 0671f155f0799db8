import GVariant.Vardict
import GVariant.Proofs.Variant.WellFormed

/-
  Dictionaries as variants and back.

  A dictionary without a NUL in its keys is boxed entry by
  entry, in the order of the keys. What is read from boxed
  entries, in any order, is the table of these entries, so
  a dictionary is read back from its variant.

  Key definitions include:
    * `Vardict.boxedPair`

  Main declarations:
    * `Vardict.toVariant_eq_ok_iff`
    * `Vardict.ofVariant_boxed`
    * `Vardict.ofVariant_of_toVariant`
-/

------------------------------------------------------------
-- Boxing Entries
------------------------------------------------------------

namespace GVariant

namespace Vardict

/- Dictionaries with the same entries are the same. -/
@[ext] theorem ext
    {d d' : Vardict}
    (hEntries : d.entries = d'.entries) :
    d = d' := by
  cases d
  cases d'
  cases hEntries
  rfl

/- A key as a string and its value in a box. -/
def boxedPair (entry : String × Variant) : Variant :=
  .entry (.text .string entry.1) (.boxed entry.2)

theorem boxedEntry_eq_ok_iff
    {entry : String × Variant}
    {v : Variant} :
    boxedEntry entry = .ok v ↔
      '\x00' ∉ entry.1.toList ∧ v = boxedPair entry := by
  have hKey :
      ∀ key,
        Variant.string entry.1 = .ok key ↔
          '\x00' ∉ entry.1.toList ∧
            key = .scalar (.text .string entry.1) :=
    fun key => @Variant.text_eq_ok_iff .string entry.1 key
  unfold boxedEntry
  cases hString : Variant.string entry.1 with
  | error e =>
      constructor
      · intro hBox
        cases hBox
      · rintro ⟨hNul, _⟩
        rw [(hKey _).mpr ⟨hNul, rfl⟩] at hString
        cases hString
  | ok key =>
      rcases (hKey key).mp hString with ⟨hNul, rfl⟩
      constructor
      · intro hBox
        cases hBox
        exact ⟨hNul, rfl⟩
      · rintro ⟨_, rfl⟩
        rfl

theorem mapM_boxedEntry_eq_ok_iff
    {entries : List (String × Variant)}
    {children : List Variant} :
    entries.mapM boxedEntry = .ok children ↔
      (∀ entry ∈ entries, '\x00' ∉ entry.1.toList) ∧
        children = entries.map boxedPair := by
  induction entries generalizing children with
  | nil =>
      constructor
      · intro hMap
        cases hMap
        simp
      · rintro ⟨_, rfl⟩
        rfl
  | cons entry entries ih =>
      simp only [mapM_cons_eq_ok_iff, boxedEntry_eq_ok_iff, ih,
        List.forall_mem_cons, List.map_cons]
      constructor
      · rintro ⟨_, _, ⟨hFirst, rfl⟩, ⟨hOthers, rfl⟩, rfl⟩
        exact ⟨⟨hFirst, hOthers⟩, rfl⟩
      · rintro ⟨⟨hFirst, hOthers⟩, rfl⟩
        exact ⟨_, _, ⟨hFirst, rfl⟩, ⟨hOthers, rfl⟩, rfl⟩

/-
  A dictionary becomes a variant exactly if none of its keys
  has a NUL. The entries keep their order.
-/
theorem toVariant_eq_ok_iff
    {d : Vardict}
    {v : Variant} :
    d.toVariant = .ok v ↔
      (∀ entry ∈ d.entries, '\x00' ∉ entry.1.toList) ∧
        v =
          .arrayOf .vardictEntry (d.entries.map boxedPair) := by
  have hArray :
      ∀ entries : List (String × Variant),
        Variant.array .vardictEntry (entries.map boxedPair) =
          .ok
            (.arrayOf .vardictEntry
              (entries.map boxedPair)) := by
    intro entries
    refine Variant.array_eq_ok_iff.mpr ⟨?_, rfl⟩
    intro child hMem
    rcases List.mem_map.mp hMem with ⟨entry, _, rfl⟩
    rfl
  unfold toVariant
  cases hMap : d.entries.mapM boxedEntry with
  | error e =>
      constructor
      · intro hEnd
        cases hEnd
      · rintro ⟨hNul, _⟩
        rw [mapM_boxedEntry_eq_ok_iff.mpr ⟨hNul, rfl⟩] at hMap
        cases hMap
  | ok children =>
      rcases mapM_boxedEntry_eq_ok_iff.mp hMap with ⟨hNul, rfl⟩
      dsimp only
      rw [hArray]
      constructor
      · intro hEnd
        cases hEnd
        exact ⟨hNul, rfl⟩
      · rintro ⟨_, rfl⟩
        rfl

/- It fails exactly if one of its keys has a NUL. -/
theorem exists_error_of_toVariant_iff
    {d : Vardict} :
    (∃ e, d.toVariant = .error e) ↔
      ∃ entry ∈ d.entries, '\x00' ∈ entry.1.toList := by
  constructor
  · rintro ⟨e, hError⟩
    by_cases hNul :
        ∃ entry ∈ d.entries, '\x00' ∈ entry.1.toList
    · exact hNul
    · have hNone :
          ∀ entry ∈ d.entries, '\x00' ∉ entry.1.toList :=
        fun entry hMem hChar => hNul ⟨entry, hMem, hChar⟩
      rw [toVariant_eq_ok_iff.mpr ⟨hNone, rfl⟩] at hError
      cases hError
  · rintro ⟨entry, hMem, hNul⟩
    cases hEnd : d.toVariant with
    | error e => exact ⟨e, rfl⟩
    | ok v =>
        have hNone := (toVariant_eq_ok_iff.mp hEnd).1
        exact absurd hNul (hNone entry hMem)

end Vardict

end GVariant

------------------------------------------------------------
-- Reading Boxed Entries
------------------------------------------------------------

namespace GVariant

namespace Vardict

/- Boxed entries are added one after another. -/
theorem foldlM_insertBoxed
    (entries : List (String × Variant))
    (d : Vardict) :
    (entries.map boxedPair).foldlM insertBoxed d =
      .ok
        (entries.foldl
          (fun d entry => d.insertValue entry.1 entry.2) d) := by
  induction entries generalizing d with
  | nil => rfl
  | cons entry entries ih =>
      rw [List.map_cons, List.foldlM_cons, List.foldl_cons,
        ← ih]
      rfl

theorem entries_foldl_insertValue
    (entries : List (String × Variant))
    (d : Vardict) :
    (entries.foldl
        (fun d entry => d.insertValue entry.1 entry.2)
        d).entries =
      entries.foldl
        (fun table entry => Entries.insert entry.1 entry.2 table)
        d.entries := by
  induction entries generalizing d with
  | nil => rfl
  | cons entry entries ih =>
      rw [List.foldl_cons, List.foldl_cons, ih]
      rfl

/-
  A variant of boxed entries, in any order, is read as the
  table of these entries.
-/
theorem ofVariant_boxed
    (entries : List (String × Variant)) :
    ofVariant
        (.arrayOf .vardictEntry (entries.map boxedPair)) =
      .ok
        { entries := Entries.ofList entries
          sorted := Entries.sorted_ofList entries } := by
  have hRead :
      ofVariant
          (.arrayOf .vardictEntry (entries.map boxedPair)) =
        (entries.map boxedPair).foldlM insertBoxed empty :=
    rfl
  rw [hRead, foldlM_insertBoxed]
  congr 1
  ext1
  exact entries_foldl_insertValue entries empty

/- A dictionary is read back from its variant. -/
theorem ofVariant_of_toVariant
    {d : Vardict}
    {v : Variant}
    (hEnd : d.toVariant = .ok v) :
    ofVariant v = .ok d := by
  rcases toVariant_eq_ok_iff.mp hEnd with ⟨_, rfl⟩
  rw [ofVariant_boxed]
  congr 1
  ext1
  exact Entries.ofList_of_sorted d.sorted

end Vardict

end GVariant
