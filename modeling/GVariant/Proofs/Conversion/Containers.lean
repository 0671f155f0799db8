import GVariant.Conversion.Unpacking
import GVariant.Proofs.Variant.WellFormed

/-
  Unpacking a container child by child.

  An array of items is unpacked exactly if each of them is.
  Each entry of a dictionary is unpacked to an entry of a
  map by itself, whatever was unpacked before it. The map is
  made of these in their order, so that the last one with a
  key stays. Entries that are related one by one make maps
  that are.

  Key definitions include:
    * `Entries.Related`
    * `Conversion.UnpacksEntry`

  Main declarations:
    * `Conversion.unpackItems_eq_ok_iff`
    * `Entries.forall₂_ofList`
    * `Conversion.unpackEntry_eq_ok_iff`
    * `Conversion.unpackEntries_eq_ok_iff`
-/

------------------------------------------------------------
-- Item By Item
------------------------------------------------------------

namespace GVariant

namespace Conversion

variable {unpackChild : Variant → Except Error Value}

/- Items are unpacked to the array of what each becomes. -/
theorem unpackItems_eq_ok_iff
    {children : List Variant}
    {value : Value} :
    unpackItems unpackChild children = .ok value ↔
      ∃ items,
        List.Forall₂
            (fun child item => unpackChild child = .ok item)
            children items ∧
          value = .array items := by
  simp only [← mapM_eq_ok_iff_forall₂, unpackItems]
  cases children.mapM unpackChild with
  | error e => simp
  | ok items => simp [eq_comm]

end Conversion

end GVariant

------------------------------------------------------------
-- Related Entries
------------------------------------------------------------

namespace GVariant

namespace Entries

variable {α β : Type}

/- Entries with the same key and with related values. -/
def Related
    (relation : α → β → Prop)
    (entry : String × α)
    (entry' : String × β) : Prop :=
  entry.1 = entry'.1 ∧ relation entry.2 entry'.2

variable {relation : α → β → Prop}

/- Related tables are related after the same insertion. -/
theorem forall₂_insert
    {key : String}
    {value : α}
    {value' : β}
    {table : List (String × α)}
    {table' : List (String × β)}
    (hValue : relation value value')
    (hTable : List.Forall₂ (Related relation) table table') :
    List.Forall₂ (Related relation) (insert key value table)
      (insert key value' table') := by
  induction hTable with
  | nil => exact .cons ⟨rfl, hValue⟩ .nil
  | @cons entry entry' table table' hHead hTail ih =>
      obtain ⟨name, content⟩ := entry
      obtain ⟨name', content'⟩ := entry'
      rcases hHead with ⟨rfl, hContent⟩
      rw [insert, insert]
      split
      · exact .cons ⟨rfl, hValue⟩ (.cons ⟨rfl, hContent⟩ hTail)
      · split
        · exact .cons ⟨rfl, hValue⟩ hTail
        · exact .cons ⟨rfl, hContent⟩ ih

/- Tables that are made of related entries are related. -/
theorem forall₂_ofList
    {entries : List (String × α)}
    {entries' : List (String × β)}
    (hEntries :
      List.Forall₂ (Related relation) entries entries') :
    List.Forall₂ (Related relation) (ofList entries)
      (ofList entries') := by
  refine List.rel_foldl ?_ .nil hEntries
  intro table table' hTable
  rintro ⟨key, value⟩ ⟨key', value'⟩ ⟨rfl, hValue⟩
  exact forall₂_insert hValue hTable

end Entries

end GVariant

------------------------------------------------------------
-- Entry By Entry
------------------------------------------------------------

namespace GVariant

namespace Conversion

variable {conv : Conversion}
variable {levels : Nat}
variable {unpackChild : Variant → Except Error Value}

/-
  What an entry of a dictionary adds to the map: the text of
  its key, for which a level is left, and what its value is
  unpacked to.
-/
def UnpacksEntry
    (levels : Nat)
    (unpackChild : Variant → Except Error Value)
    (entry : Variant)
    (pair : String × Value) : Prop :=
  ∃ key value,
    entry = .entry key value ∧
      levels ≠ 0 ∧
      pair.1 = key.keyText ∧
      unpackChild value = .ok pair.2

/- An entry is inserted into any table alike. -/
theorem unpackEntry_eq_ok_iff
    {entry : Variant}
    {table table' : List (String × Value)} :
    conv.unpackEntry levels unpackChild table entry =
        .ok table' ↔
      ∃ pair,
        UnpacksEntry levels unpackChild entry pair ∧
          table' = Entries.insert pair.1 pair.2 table := by
  constructor
  · intro hEntry
    cases entry with
    | entry key value =>
        rw [unpackEntry] at hEntry
        split at hEntry
        · cases hEntry
        · rename_i hLevels
          split at hEntry
          · cases hEntry
          · rename_i unpacked hValue
            cases hEntry
            exact
              ⟨(key.keyText, unpacked),
                ⟨key, value, rfl, hLevels, rfl, hValue⟩, rfl⟩
    | _ => cases hEntry
  · rintro ⟨⟨name, unpacked⟩, hPair, rfl⟩
    rcases hPair with ⟨key, value, rfl, hLevels, rfl, hValue⟩
    simp only [unpackEntry, hLevels, if_false, hValue]

/- The entries are inserted in their order. -/
theorem foldlM_unpackEntry_eq_ok_iff
    {entries : List Variant}
    {table table' : List (String × Value)} :
    entries.foldlM (conv.unpackEntry levels unpackChild)
        table =
        .ok table' ↔
      ∃ pairs,
        List.Forall₂ (UnpacksEntry levels unpackChild) entries
            pairs ∧
          table' =
            pairs.foldl
              (fun table pair =>
                Entries.insert pair.1 pair.2 table)
              table := by
  induction entries generalizing table with
  | nil =>
      simp only [List.forall₂_nil_left_iff, exists_eq_left,
        List.foldl_nil]
      constructor
      · intro hNone
        cases hNone
        rfl
      · rintro rfl
        rfl
  | cons entry entries ih =>
      rw [List.foldlM_cons, bind_eq_ok_iff]
      constructor
      · rintro ⟨next, hEntry, hFold⟩
        rcases unpackEntry_eq_ok_iff.mp hEntry with
          ⟨pair, hPair, rfl⟩
        rcases ih.mp hFold with ⟨pairs, hPairs, rfl⟩
        exact ⟨pair :: pairs, .cons hPair hPairs, rfl⟩
      · rintro ⟨pairs, hPairs, rfl⟩
        cases hPairs with
        | cons hPair hOthers =>
            exact
              ⟨_, unpackEntry_eq_ok_iff.mpr ⟨_, hPair, rfl⟩,
                ih.mpr ⟨_, hOthers, rfl⟩⟩

/-
  A dictionary is unpacked exactly if its entries are, to the
  map of what they are unpacked to.
-/
theorem unpackEntries_eq_ok_iff
    {entries : List Variant}
    {value : Value} :
    conv.unpackEntries levels unpackChild entries =
        .ok value ↔
      ∃ pairs,
        List.Forall₂ (UnpacksEntry levels unpackChild) entries
            pairs ∧
          value = .map (Entries.ofList pairs) := by
  have hFold :=
    @foldlM_unpackEntry_eq_ok_iff conv levels unpackChild
      entries []
  unfold unpackEntries
  constructor
  · intro hUnpack
    split at hUnpack
    · cases hUnpack
    · rename_i table hTable
      cases hUnpack
      rcases hFold.mp hTable with ⟨pairs, hPairs, rfl⟩
      exact ⟨pairs, hPairs, rfl⟩
  · rintro ⟨pairs, hPairs, rfl⟩
    rw [hFold.mpr ⟨pairs, hPairs, rfl⟩]
    rfl

end Conversion

end GVariant
