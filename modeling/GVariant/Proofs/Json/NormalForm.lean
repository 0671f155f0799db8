import GVariant.Json.Basic
import GVariant.Proofs.Conversion.Canonical
import GVariant.Proofs.Conversion.Modes
import GVariant.Proofs.Value.Integers

/-
  What is left of a host value that goes through JSON.

  JSON has no variants, no bytes, no doubles that are not
  finite and one kind of integers. A host value comes back
  in normal form, which has none of these; a value in normal
  form comes back as it was. Only a variant that cannot be
  unpacked stops a value from becoming JSON. All of this
  holds of any library of trees that is as it must be.

  Maps of the host are in the order of their keys, which is
  the order in which JSON objects are read again.

  Key definitions include:
    * `Value.Ordered`
    * `Value.normaliseWith`
    * `Value.normalForm`
    * `Value.IsNormal`
    * `Value.ComesBack`

  Main declarations:
    * `Value.exists_treeWith_iff`
    * `Value.comesBack_of_ordered`
    * `Value.toJson_variant`
    * `Value.normalForm_variant`
    * `Value.isNormal_of_normalForm`
    * `Value.normaliseWith_of_isNormal`
    * `Value.toJson_normalForm`
-/

------------------------------------------------------------
-- Ordered Maps
------------------------------------------------------------

namespace GVariant

namespace Value

mutual

/- A host value whose maps are in the order of their keys. -/
def Ordered : Value → Prop
| .array items => OrderedAll items
| .map entries =>
    Entries.Sorted entries ∧ OrderedEntries entries
| _ => True

/- Several host values whose maps are in order. -/
def OrderedAll : List Value → Prop
| [] => True
| item :: items => item.Ordered ∧ OrderedAll items

/- Entries whose values have their maps in order. -/
def OrderedEntries : List (String × Value) → Prop
| [] => True
| (_, value) :: entries =>
    value.Ordered ∧ OrderedEntries entries

end

theorem ordered_array_iff
    (items : List Value) :
    Ordered (.array items) ↔ ∀ item ∈ items, item.Ordered := by
  rw [Ordered]
  induction items with
  | nil => simp [OrderedAll]
  | cons item items ih => simp [OrderedAll, ih]

theorem ordered_map_iff
    (entries : List (String × Value)) :
    Ordered (.map entries) ↔
      Entries.Sorted entries ∧
        ∀ entry ∈ entries, entry.2.Ordered := by
  have hEntries :
      OrderedEntries entries ↔
        ∀ entry ∈ entries, entry.2.Ordered := by
    induction entries with
    | nil => simp [OrderedEntries]
    | cons entry entries ih =>
        simp [OrderedEntries, ih]
  rw [Ordered, hEntries]

theorem ordered_toValue
    (s : Scalar) :
    s.toValue.Ordered := by
  refine Scalar.toValue_elim ?_ ?_ ?_ ?_ ?_ s <;>
    exact fun _ => True.intro

end Value

namespace Conversion

/- A recursive unpacking puts every map in order. -/
theorem ordered_of_recursiveUnpack
    {v : Variant}
    {value : Value}
    (hUnpack : standard.recursiveUnpack v = .ok value) :
    value.Ordered := by
  refine
    holds_of_unpackLevels Value.Ordered rfl
      Value.ordered_toValue True.intro
      (fun _ => True.intro)
      (fun items => (Value.ordered_array_iff items).mpr)
      ?_ hUnpack
  intro pairs hPairs
  apply (Value.ordered_map_iff _).mpr
  refine ⟨Entries.sorted_ofList pairs, ?_⟩
  intro pair hMem
  exact hPairs pair (Entries.mem_of_mem_ofList hMem)

end Conversion

end GVariant

------------------------------------------------------------
-- Normal Forms
------------------------------------------------------------

namespace GVariant

namespace Value

mutual

/-
  A host value without bytes, without doubles that are not
  finite and with unsigned integers only beyond the signed
  ones. What a variant becomes is given.
-/
def normaliseWith
    (ofVariant : Variant → Except Error Value) :
    Value → Except Error Value
| .null => .ok .null
| .bool value => .ok (.bool value)
| .int value => .ok (.int value)
| .uint value =>
    if value.toNat < 2 ^ 63 then
      .ok (.int (Int64.ofNat value.toNat))
    else
      .ok (.uint value)
| .double value =>
    if value.isFinite then .ok (.double value) else .ok .null
| .string value => .ok (.string value)
| .bytes content =>
    .ok
      (.array
        (content.map fun byte =>
          .int (Int64.ofNat byte.toNat)))
| .array items =>
    (normaliseItemsWith ofVariant items).map .array
| .map entries =>
    (normaliseEntriesWith ofVariant entries).map .map
| .variant v => ofVariant v

/- The same of several items. -/
def normaliseItemsWith
    (ofVariant : Variant → Except Error Value) :
    List Value → Except Error (List Value)
| [] => .ok []
| item :: items => do
    let item ← item.normaliseWith ofVariant
    let items ← normaliseItemsWith ofVariant items
    return item :: items

/- The same of the values of entries, whose keys are kept. -/
def normaliseEntriesWith
    (ofVariant : Variant → Except Error Value) :
    List (String × Value) →
      Except Error (List (String × Value))
| [] => .ok []
| (key, value) :: entries => do
    let value ← value.normaliseWith ofVariant
    let entries ← normaliseEntriesWith ofVariant entries
    return (key, value) :: entries

end

/-
  The normal form of a host value. A variant becomes the
  normal form of what it is unpacked to, in which no variant
  is left.
-/
def normalForm (value : Value) : Except Error Value :=
  value.normaliseWith fun v => do
    let unpacked ← Conversion.standard.recursiveUnpack v
    unpacked.normaliseWith fun left => .ok (.variant left)

/-
  A host value in normal form: none of its parts is changed
  by the way through JSON.
-/
inductive IsNormal : Value → Prop
| null : IsNormal .null
| bool (value : Bool) : IsNormal (.bool value)
| int (value : Int64) : IsNormal (.int value)
| uint
    {value : UInt64}
    (hLarge : 2 ^ 63 ≤ value.toNat) :
    IsNormal (.uint value)
| double
    {value : Double}
    (hFinite : value.isFinite = true) :
    IsNormal (.double value)
| string (value : String) : IsNormal (.string value)
| array
    {items : List Value}
    (hItems : ∀ item ∈ items, IsNormal item) :
    IsNormal (.array items)
| map
    {entries : List (String × Value)}
    (hEntries : ∀ entry ∈ entries, IsNormal entry.2) :
    IsNormal (.map entries)

end Value

end GVariant

------------------------------------------------------------
-- Normal Forms Of Containers
------------------------------------------------------------

namespace GVariant

namespace Value

variable {ofVariant : Variant → Except Error Value}

theorem normaliseWith_uint
    (value : UInt64) :
    normaliseWith ofVariant (.uint value) =
      if value.toNat < 2 ^ 63 then
        .ok (.int (Int64.ofNat value.toNat))
      else
        .ok (.uint value) :=
  rfl

theorem normaliseWith_double
    (value : Double) :
    normaliseWith ofVariant (.double value) =
      if value.isFinite then .ok (.double value)
      else .ok .null :=
  rfl

theorem normaliseWith_array
    (items : List Value) :
    normaliseWith ofVariant (.array items) =
      (normaliseItemsWith ofVariant items).map .array :=
  rfl

theorem normaliseWith_map
    (entries : List (String × Value)) :
    normaliseWith ofVariant (.map entries) =
      (normaliseEntriesWith ofVariant entries).map .map :=
  rfl

theorem normaliseWith_array_eq_ok_iff
    {items : List Value}
    {value : Value} :
    normaliseWith ofVariant (.array items) = .ok value ↔
      ∃ results,
        List.Forall₂
            (fun item result =>
              item.normaliseWith ofVariant = .ok result)
            items results ∧
          value = .array results := by
  have hItems :
      ∀ results,
        normaliseItemsWith ofVariant items = .ok results ↔
          List.Forall₂
            (fun item result =>
              item.normaliseWith ofVariant = .ok result)
            items results := by
    induction items with
    | nil =>
        intro results
        rw [List.forall₂_nil_left_iff, normaliseItemsWith]
        simp [eq_comm]
    | cons item items ih =>
        intro results
        simp only [normaliseItemsWith, bind_eq_ok_iff, ih,
          List.forall₂_cons_left_iff, pure, Except.pure,
          Except.ok.injEq, exists_and_left,
          @eq_comm _ _ results]
  simp only [normaliseWith_array, ← hItems]
  cases normaliseItemsWith ofVariant items with
  | error e => simp [Except.map]
  | ok results => simp [Except.map, eq_comm]

theorem normaliseWith_map_eq_ok_iff
    {entries : List (String × Value)}
    {value : Value} :
    normaliseWith ofVariant (.map entries) = .ok value ↔
      ∃ results,
        List.Forall₂
            (Entries.Related fun value result =>
              value.normaliseWith ofVariant = .ok result)
            entries results ∧
          value = .map results := by
  have hEntries :
      ∀ results,
        normaliseEntriesWith ofVariant entries = .ok results ↔
          List.Forall₂
            (Entries.Related fun value result =>
              value.normaliseWith ofVariant = .ok result)
            entries results := by
    induction entries with
    | nil =>
        intro results
        rw [List.forall₂_nil_left_iff, normaliseEntriesWith]
        simp [eq_comm]
    | cons entry entries ih =>
        intro results
        simp only [normaliseEntriesWith, bind_eq_ok_iff, ih,
          List.forall₂_cons_left_iff, pure, Except.pure,
          Except.ok.injEq, Entries.Related]
        constructor
        · rintro ⟨first, hFirst, rest, hRest, rfl⟩
          exact
            ⟨(entry.1, first), rest, ⟨rfl, hFirst⟩, hRest, rfl⟩
        · rintro
            ⟨⟨key, first⟩, rest, ⟨rfl, hFirst⟩, hRest, rfl⟩
          exact ⟨first, hFirst, rest, hRest, rfl⟩
  simp only [normaliseWith_map, ← hEntries]
  cases normaliseEntriesWith ofVariant entries with
  | error e => simp [Except.map]
  | ok results => simp [Except.map, eq_comm]

end Value

end GVariant

------------------------------------------------------------
-- Values In Normal Form
------------------------------------------------------------

namespace GVariant

namespace Value

variable {ofVariant : Variant → Except Error Value}

/- A value in normal form is its normal form. -/
theorem normaliseWith_of_isNormal
    {value : Value}
    (hNormal : value.IsNormal) :
    value.normaliseWith ofVariant = .ok value := by
  induction hNormal with
  | uint hLarge =>
      rw [normaliseWith_uint, if_neg (Nat.not_lt.mpr hLarge)]
  | double hFinite =>
      rw [normaliseWith_double, if_pos hFinite]
  | array _ ih =>
      exact
        normaliseWith_array_eq_ok_iff.mpr
          ⟨_, List.forall₂_same.mpr ih, rfl⟩
  | map _ ih =>
      exact
        normaliseWith_map_eq_ok_iff.mpr
          ⟨_,
            List.forall₂_same.mpr fun entry hMem =>
              ⟨rfl, ih entry hMem⟩,
            rfl⟩
  | _ => rfl

/- It has no variants. -/
theorem variants_of_isNormal
    {value : Value}
    (hNormal : value.IsNormal) :
    value.variants = [] := by
  induction hNormal with
  | array _ ih => exact (variantsAll_eq_nil_iff _).mpr ih
  | map _ ih =>
      exact (variantsOfEntries_eq_nil_iff _).mpr ih
  | _ => rfl

/-
  A value is in normal form afterwards if what its variants
  become is.
-/
theorem isNormal_of_normaliseWith
    {value result : Value}
    (hVariants :
      ∀ w ∈ value.variants,
        ∀ left, ofVariant w = .ok left → left.IsNormal)
    (hNormal : value.normaliseWith ofVariant = .ok result) :
    result.IsNormal := by
  induction value generalizing result with
  | null =>
      cases hNormal
      exact .null
  | bool value =>
      cases hNormal
      exact .bool value
  | int value =>
      cases hNormal
      exact .int value
  | uint value =>
      rw [normaliseWith_uint] at hNormal
      split at hNormal
      · cases hNormal
        exact .int _
      · rename_i hLarge
        cases hNormal
        exact .uint (Nat.le_of_not_lt hLarge)
  | double value =>
      rw [normaliseWith_double] at hNormal
      split at hNormal
      · rename_i hFinite
        cases hNormal
        exact .double hFinite
      · cases hNormal
        exact .null
  | string value =>
      cases hNormal
      exact .string value
  | bytes content =>
      cases hNormal
      apply IsNormal.array
      intro item hMem
      rcases List.mem_map.mp hMem with ⟨byte, _, rfl⟩
      exact .int _
  | array items ih =>
      rw [variants, forall_variantsAll_iff] at hVariants
      rcases normaliseWith_array_eq_ok_iff.mp hNormal with
        ⟨results, hItems, rfl⟩
      apply IsNormal.array
      intro result hMem
      rcases exists_of_forall₂_right hItems hMem with
        ⟨item, hItem, hResult⟩
      exact ih item hItem (hVariants item hItem) hResult
  | map entries ih =>
      rw [variants, forall_variantsOfEntries_iff] at hVariants
      rcases normaliseWith_map_eq_ok_iff.mp hNormal with
        ⟨results, hEntries, rfl⟩
      apply IsNormal.map
      intro result hMem
      rcases exists_of_forall₂_right hEntries hMem with
        ⟨entry, hEntry, _, hResult⟩
      exact ih entry hEntry (hVariants entry hEntry) hResult
  | «variant» w =>
      exact hVariants w List.mem_cons_self result hNormal

/- A normal form is in normal form. -/
theorem isNormal_of_normalForm
    {value result : Value}
    (hNormal : value.normalForm = .ok result) :
    result.IsNormal := by
  refine isNormal_of_normaliseWith ?_ hNormal
  intro w _ left hLeft
  rcases bind_eq_ok_iff.mp hLeft with
    ⟨unpacked, hUnpack, hUnpacked⟩
  refine isNormal_of_normaliseWith ?_ hUnpacked
  simp [Conversion.variants_of_unpackLevels rfl hUnpack]

end Value

end GVariant

------------------------------------------------------------
-- Trees Of Containers
------------------------------------------------------------

namespace GVariant

/- Entries have related ones if their values have. -/
theorem Entries.exists_related_of_forall
    {α β : Type}
    (relation : α → β → Prop)
    {entries : List (String × α)}
    (hEntries :
      ∀ entry ∈ entries, ∃ result, relation entry.2 result) :
    ∃ results,
      List.Forall₂ (Related relation) entries results := by
  apply exists_forall₂_of_forall
  intro entry hMem
  rcases hEntries entry hMem with ⟨result, hResult⟩
  exact ⟨(entry.1, result), rfl, hResult⟩

/- Entries in order have related ones in order. -/
theorem Entries.Sorted.of_related
    {α β : Type}
    {relation : α → β → Prop}
    {entries : List (String × α)}
    {results : List (String × β)}
    (hSorted : Sorted entries)
    (hRelated :
      List.Forall₂ (Related relation) entries results) :
    Sorted results := by
  have hKeys :
      results.map Prod.fst = entries.map Prod.fst := by
    rw [← List.forall₂_eq_eq_eq, List.forall₂_map_left_iff,
      List.forall₂_map_right_iff]
    exact hRelated.flip.imp fun _ _ hPair => hPair.1.symm
  have hOrder := List.pairwise_map.mpr hSorted
  rw [← hKeys] at hOrder
  exact List.pairwise_map.mp hOrder

namespace Value

variable {library : JsonLibrary}
variable {toTree : Variant → Except Error library.Tree}

theorem treeWith_array_eq_ok_iff
    {items : List Value}
    {tree : library.Tree} :
    treeWith library toTree (.array items) = .ok tree ↔
      ∃ trees,
        List.Forall₂
            (fun item tree =>
              item.treeWith library toTree = .ok tree)
            items trees ∧
          library.ofArray trees = tree := by
  have hItems :
      treeItemsWith library toTree items =
        items.mapM (treeWith library toTree) := by
    induction items with
    | nil => rfl
    | cons item items ih =>
        rw [treeItemsWith, List.mapM_cons, ih]
        cases treeWith library toTree item with
        | error e => rfl
        | ok tree =>
            cases items.mapM (treeWith library toTree) <;> rfl
  rw [treeWith, hItems]
  simp only [← mapM_eq_ok_iff_forall₂]
  cases items.mapM (treeWith library toTree) with
  | error e => simp
  | ok trees => simp

theorem treeWith_map_eq_ok_iff
    {entries : List (String × Value)}
    {tree : library.Tree} :
    treeWith library toTree (.map entries) = .ok tree ↔
      ∃ members,
        List.Forall₂
            (Entries.Related fun value tree =>
              value.treeWith library toTree = .ok tree)
            entries members ∧
          library.ofObject members = tree := by
  have hMembers :
      ∀ members,
        treeMembersWith library toTree entries =
            .ok members ↔
          List.Forall₂
            (Entries.Related fun value tree =>
              value.treeWith library toTree = .ok tree)
            entries members := by
    induction entries with
    | nil =>
        intro members
        rw [List.forall₂_nil_left_iff, treeMembersWith]
        simp [eq_comm]
    | cons entry entries ih =>
        intro members
        rw [List.forall₂_cons_left_iff, treeMembersWith]
        simp only [← ih, Entries.Related]
        cases treeWith library toTree entry.2 with
        | error e => simp
        | ok tree =>
            cases treeMembersWith library toTree entries with
            | error e => simp
            | ok others =>
                simp only [Except.ok.injEq]
                constructor
                · rintro rfl
                  exact
                    ⟨(entry.1, tree), others, ⟨rfl, rfl⟩, rfl,
                      rfl⟩
                · rintro ⟨⟨key, tree⟩, others, hEntry, hRest,
                    rfl⟩
                  rcases hEntry with ⟨rfl, rfl⟩
                  rw [hRest]
  rw [treeWith]
  simp only [← hMembers]
  cases treeMembersWith library toTree entries with
  | error e => simp
  | ok members => simp

/- Only variants can keep a value from having a tree. -/
theorem exists_treeWith_iff
    {value : Value} :
    (∃ tree, value.treeWith library toTree = .ok tree) ↔
      ∀ w ∈ value.variants, ∃ tree, toTree w = .ok tree := by
  induction value with
  | array items ih =>
      rw [variants, forall_variantsAll_iff]
      constructor
      · rintro ⟨tree, hTree⟩ item hMem
        rcases treeWith_array_eq_ok_iff.mp hTree with
          ⟨trees, hItems, _⟩
        rcases exists_of_forall₂_left hItems hMem with
          ⟨itemTree, _, hItem⟩
        exact (ih item hMem).mp ⟨itemTree, hItem⟩
      · intro hVariants
        rcases
            exists_forall₂_of_forall fun item hMem =>
              (ih item hMem).mpr (hVariants item hMem) with
          ⟨trees, hItems⟩
        exact
          ⟨_, treeWith_array_eq_ok_iff.mpr
            ⟨trees, hItems, rfl⟩⟩
  | map entries ih =>
      rw [variants, forall_variantsOfEntries_iff]
      constructor
      · rintro ⟨tree, hTree⟩ entry hMem
        rcases treeWith_map_eq_ok_iff.mp hTree with
          ⟨members, hEntries, _⟩
        rcases exists_of_forall₂_left hEntries hMem with
          ⟨member, _, _, hEntry⟩
        exact (ih entry hMem).mp ⟨member.2, hEntry⟩
      · intro hVariants
        rcases
            Entries.exists_related_of_forall
              (fun value tree =>
                value.treeWith library toTree = .ok tree)
              (fun entry hMem =>
                (ih entry hMem).mpr
                  (hVariants entry hMem)) with
          ⟨members, hEntries⟩
        exact
          ⟨_, treeWith_map_eq_ok_iff.mpr
            ⟨members, hEntries, rfl⟩⟩
  | «variant» w => simp [variants, treeWith]
  | _ => exact iff_of_true ⟨_, rfl⟩ (by simp [variants])

/- A value without variants has a tree in any case. -/
theorem exists_treeWith_of_variants_eq_nil
    {value : Value}
    (hNone : value.variants = []) :
    ∃ tree, value.treeWith library toTree = .ok tree :=
  exists_treeWith_iff.mpr (by simp [hNone])

/- The same trees of variants give the same tree. -/
theorem treeWith_mono
    {toTree' : Variant → Except Error library.Tree}
    {value : Value}
    {tree : library.Tree}
    (hVariants :
      ∀ w ∈ value.variants, ∀ tree,
        toTree w = .ok tree → toTree' w = .ok tree)
    (hTree : value.treeWith library toTree = .ok tree) :
    value.treeWith library toTree' = .ok tree := by
  induction value generalizing tree with
  | array items ih =>
      rw [variants, forall_variantsAll_iff] at hVariants
      rcases treeWith_array_eq_ok_iff.mp hTree with
        ⟨trees, hItems, rfl⟩
      have hEach :
          ∀ item ∈ items, ∀ tree,
            item.treeWith library toTree = .ok tree →
              item.treeWith library toTree' = .ok tree :=
        fun item hMem _ => ih item hMem (hVariants item hMem)
      have hBoth :=
        (List.forall₂_and_left _ _).mpr ⟨hEach, hItems⟩
      refine
        treeWith_array_eq_ok_iff.mpr ⟨trees, ?_, rfl⟩
      exact hBoth.imp fun _ tree hItem =>
        hItem.1 tree hItem.2
  | map entries ih =>
      rw [variants, forall_variantsOfEntries_iff] at hVariants
      rcases treeWith_map_eq_ok_iff.mp hTree with
        ⟨members, hEntries, rfl⟩
      have hEach :
          ∀ entry ∈ entries, ∀ tree,
            entry.2.treeWith library toTree = .ok tree →
              entry.2.treeWith library toTree' = .ok tree :=
        fun entry hMem _ =>
          ih entry hMem (hVariants entry hMem)
      have hBoth :=
        (List.forall₂_and_left _ _).mpr ⟨hEach, hEntries⟩
      refine
        treeWith_map_eq_ok_iff.mpr ⟨members, ?_, rfl⟩
      exact hBoth.imp fun _ member hEntry =>
        ⟨hEntry.2.1, hEntry.1 member.2 hEntry.2.2⟩
  | «variant» w =>
      exact hVariants w List.mem_cons_self tree hTree
  | _ => exact hTree

end Value

end GVariant

------------------------------------------------------------
-- There And Back
------------------------------------------------------------

namespace GVariant

namespace Value

variable {library : JsonLibrary}
variable {toTree : Variant → Except Error library.Tree}
variable {ofVariant : Variant → Except Error Value}

/- An unsigned integer comes back with a sign if it can. -/
theorem normaliseWith_uint_eq_ofNat
    (value : UInt64) :
    normaliseWith ofVariant (.uint value) =
      .ok (.ofNat value.toNat) := by
  have hRange :
      IntKind.InRange .int64 value.toNat ↔
        value.toNat < 2 ^ 63 := by
    rw [IntKind.inRange_int64_iff]
    omega
  rw [normaliseWith_uint, ofNat, UInt64.ofNat_toNat]
  by_cases hSmall : value.toNat < 2 ^ 63
  · rw [if_pos hSmall, if_pos (hRange.mpr hSmall)]
  · rw [if_neg hSmall, if_neg (mt hRange.mp hSmall)]

/- A signed integer comes back, whichever way it is shown. -/
theorem ofJson_ofSigned
    (hLawful : library.Lawful)
    (value : Int64) :
    ofJson library (library.ofSigned value) = .int value := by
  have hShown :
      ofJson library (library.ofSigned value) =
        if value.toInt < 0 then
          .int value
        else
          .ofNat (UInt64.ofNat value.toInt.toNat).toNat :=
    hLawful.visit_signed visitor value
  rw [hShown]
  split
  · rfl
  · rename_i hSign
    have hLess := value.toInt_lt
    have hFits : value.toInt.toNat < UInt64.size := by
      rw [UInt64.size]
      omega
    have hWord :
        (UInt64.ofNat value.toInt.toNat).toNat =
          value.toInt.toNat :=
      UInt64.toNat_ofNat_of_lt hFits
    rw [hWord, ofNat_toNat_toInt (by omega)]

/- Bytes come back as integers. -/
theorem ofJson_ofBytes
    (hLawful : library.Lawful)
    (content : List UInt8) :
    ofJson library (library.ofBytes content) =
      .array
        (content.map fun byte =>
          .int (Int64.ofNat byte.toNat)) := by
  have hByte :
      ∀ byte : UInt8,
        ofJson library (library.ofUnsigned byte.toUInt64) =
          .int (Int64.ofNat byte.toNat) := by
    intro byte
    have hLess := UInt8.toNat_lt byte
    have hRange : IntKind.InRange .int64 byte.toNat := by
      rw [IntKind.inRange_int64_iff]
      omega
    have hShown :
        ofJson library (library.ofUnsigned byte.toUInt64) =
          .ofNat byte.toUInt64.toNat :=
      hLawful.visit_unsigned visitor byte.toUInt64
    rw [hShown, UInt8.toNat_toUInt64, ofNat, if_pos hRange]
  have hShown :
      ofJson library (library.ofBytes content) =
        .array
          ((content.map fun byte =>
              library.ofUnsigned byte.toUInt64).map
            (ofJson library)) := by
    rw [hLawful.ofBytes]
    exact hLawful.visit_array visitor _
  rw [hShown, List.map_map]
  exact
    congrArg Value.array
      (List.map_congr_left fun byte _ => hByte byte)

/- Members in order come back in order. -/
theorem ofJson_ofObject
    (hLawful : library.Lawful)
    {members : List (String × library.Tree)}
    (hSorted : Entries.Sorted members) :
    ofJson library (library.ofObject members) =
      .map
        (members.map fun member =>
          (member.1, ofJson library member.2)) := by
  have hShown :
      ofJson library (library.ofObject members) =
        .ofEntries
          (members.map fun member =>
            (member.1, ofJson library member.2)) :=
    hLawful.visit_object visitor members hSorted
  rw [hShown, ofEntries, Entries.ofList_of_sorted]
  exact List.pairwise_map.mpr hSorted

/- The tree of a value comes back as its normal form. -/
def ComesBack
    (library : JsonLibrary)
    (toTree : Variant → Except Error library.Tree)
    (ofVariant : Variant → Except Error Value)
    (value : Value) : Prop :=
  ∀ tree,
    value.treeWith library toTree = .ok tree →
      value.normaliseWith ofVariant = .ok (ofJson library tree)

/- A double that is not finite comes back as nothing. -/
theorem comesBack_double
    (hLawful : library.Lawful)
    (value : Double) :
    ComesBack library toTree ofVariant (.double value) := by
  intro tree hTree
  cases hTree
  rw [normaliseWith_double]
  cases hFinite : value.isFinite with
  | true =>
      exact
        congrArg Except.ok
          (hLawful.visit_double visitor value hFinite).symm
  | false =>
      rw [hLawful.ofDouble value hFinite]
      exact congrArg Except.ok (hLawful.visit_null visitor).symm

theorem comesBack_array
    (hLawful : library.Lawful)
    {items : List Value}
    (hItems :
      ∀ item ∈ items, item.ComesBack library toTree ofVariant) :
    ComesBack library toTree ofVariant (.array items) := by
  intro tree hTree
  rcases treeWith_array_eq_ok_iff.mp hTree with
    ⟨trees, hTrees, rfl⟩
  rw [normaliseWith_array_eq_ok_iff]
  refine
    ⟨trees.map (ofJson library),
      List.forall₂_map_right_iff.mpr ?_,
      hLawful.visit_array visitor trees⟩
  have hBoth :=
    (List.forall₂_and_left _ _).mpr ⟨hItems, hTrees⟩
  exact hBoth.imp fun _ tree hItem => hItem.1 tree hItem.2

theorem comesBack_map
    (hLawful : library.Lawful)
    {entries : List (String × Value)}
    (hSorted : Entries.Sorted entries)
    (hEntries :
      ∀ entry ∈ entries,
        entry.2.ComesBack library toTree ofVariant) :
    ComesBack library toTree ofVariant (.map entries) := by
  intro tree hTree
  rcases treeWith_map_eq_ok_iff.mp hTree with
    ⟨members, hMembers, rfl⟩
  rw [normaliseWith_map_eq_ok_iff]
  refine
    ⟨_, List.forall₂_map_right_iff.mpr ?_,
      ofJson_ofObject hLawful (hSorted.of_related hMembers)⟩
  have hBoth :=
    (List.forall₂_and_left _ _).mpr ⟨hEntries, hMembers⟩
  exact hBoth.imp fun _ member hEntry =>
    ⟨hEntry.2.1, hEntry.1 member.2 hEntry.2.2⟩

/-
  The tree of an ordered value comes back as its normal
  form, if the trees of its variants come back as what these
  become.
-/
theorem comesBack_of_ordered
    (hLawful : library.Lawful)
    {value : Value}
    (hOrdered : value.Ordered)
    (hVariants :
      ∀ w ∈ value.variants, ∀ tree,
        toTree w = .ok tree →
          ofVariant w = .ok (ofJson library tree)) :
    value.ComesBack library toTree ofVariant := by
  induction value with
  | null =>
      intro tree hTree
      cases hTree
      exact congrArg Except.ok (hLawful.visit_null visitor).symm
  | bool value =>
      intro tree hTree
      cases hTree
      exact
        congrArg Except.ok
          (hLawful.visit_bool visitor value).symm
  | int value =>
      intro tree hTree
      cases hTree
      rw [ofJson_ofSigned hLawful]
      rfl
  | uint value =>
      intro tree hTree
      cases hTree
      rw [normaliseWith_uint_eq_ofNat]
      exact
        congrArg Except.ok
          (hLawful.visit_unsigned visitor value).symm
  | double value => exact comesBack_double hLawful value
  | string value =>
      intro tree hTree
      cases hTree
      exact
        congrArg Except.ok
          (hLawful.visit_string visitor value).symm
  | bytes content =>
      intro tree hTree
      cases hTree
      rw [ofJson_ofBytes hLawful]
      rfl
  | array items ih =>
      rw [ordered_array_iff] at hOrdered
      rw [variants, forall_variantsAll_iff] at hVariants
      exact
        comesBack_array hLawful fun item hMem =>
          ih item hMem (hOrdered item hMem)
            (hVariants item hMem)
  | map entries ih =>
      rw [ordered_map_iff] at hOrdered
      rw [variants, forall_variantsOfEntries_iff] at hVariants
      exact
        comesBack_map hLawful hOrdered.1 fun entry hMem =>
          ih entry hMem (hOrdered.2 entry hMem)
            (hVariants entry hMem)
  | «variant» w => exact hVariants w List.mem_cons_self

/-
  What variants become does not matter to a value without
  variants: its normal form is what comes back.
-/
theorem normaliseWith_eq_normalForm
    {value : Value}
    (hOrdered : value.Ordered)
    (hNone : value.variants = []) :
    value.normaliseWith ofVariant = value.normalForm := by
  have hTree :
      ∃ tree,
        value.treeWith Json.library
            (fun left =>
              .error (.assertion (.wrongContent left.type))) =
          .ok tree :=
    exists_treeWith_of_variants_eq_nil hNone
  rcases hTree with ⟨tree, hTree⟩
  have hAny :
      ∀ ofVariant : Variant → Except Error Value,
        value.normaliseWith ofVariant =
          .ok (ofJson Json.library tree) := by
    intro ofVariant
    exact
      comesBack_of_ordered Json.library_lawful hOrdered
        (by simp [hNone]) tree hTree
  rw [normalForm, hAny, hAny]

/-
  A variant has the normal form of what it is unpacked to.
-/
theorem normalForm_variant
    (w : Variant) :
    normalForm (.variant w) =
      Conversion.standard.recursiveUnpack w >>= normalForm := by
  have hVariant :
      normalForm (.variant w) =
        Conversion.standard.recursiveUnpack w >>= fun unpacked =>
          unpacked.normaliseWith fun left =>
            .ok (.variant left) :=
    rfl
  rw [hVariant]
  cases hUnpack : Conversion.standard.recursiveUnpack w with
  | error e => rfl
  | ok unpacked =>
      exact
        normaliseWith_eq_normalForm
          (Conversion.ordered_of_recursiveUnpack hUnpack)
          (Conversion.variants_of_unpackLevels rfl hUnpack)

end Value

end GVariant

------------------------------------------------------------
-- Through JSON
------------------------------------------------------------

namespace GVariant

namespace Value

variable {library : JsonLibrary}

/- The tree of a variant is that of what it is unpacked to. -/
theorem toJson_variant
    (w : Variant) :
    toJson library (.variant w) =
      Conversion.standard.recursiveUnpack w >>=
        toJson library := by
  rw [toJson, treeWith]
  cases hUnpack : Conversion.standard.recursiveUnpack w with
  | error e => rfl
  | ok unpacked =>
      have hNone : unpacked.variants = [] :=
        Conversion.variants_of_unpackLevels rfl hUnpack
      have hTree :
          ∃ tree,
            unpacked.treeWith library
                (fun left =>
                  .error
                    (.assertion (.wrongContent left.type))) =
              .ok tree :=
        exists_treeWith_of_variants_eq_nil hNone
      rcases hTree with ⟨tree, hTree⟩
      have hAgain : unpacked.toJson library = .ok tree :=
        treeWith_mono (by simp [hNone]) hTree
      exact hTree.trans hAgain.symm

/- A variant has a tree exactly if it can be unpacked. -/
theorem exists_toJson_variant_iff
    (w : Variant) :
    (∃ tree, toJson library (.variant w) = .ok tree) ↔
      ∃ unpacked,
        Conversion.standard.recursiveUnpack w =
          .ok unpacked := by
  rw [toJson_variant]
  cases hUnpack : Conversion.standard.recursiveUnpack w with
  | error e => simp [bind, Except.bind]
  | ok unpacked =>
      have hNone : unpacked.variants = [] :=
        Conversion.variants_of_unpackLevels rfl hUnpack
      exact
        iff_of_true (exists_treeWith_of_variants_eq_nil hNone)
          ⟨unpacked, rfl⟩

/- The tree of a variant comes back as its normal form. -/
theorem normalForm_of_toJson_variant
    (hLawful : library.Lawful)
    {w : Variant}
    {tree : library.Tree}
    (hTree : toJson library (.variant w) = .ok tree) :
    normalForm (.variant w) = .ok (ofJson library tree) := by
  rw [toJson_variant] at hTree
  rw [normalForm_variant]
  rcases bind_eq_ok_iff.mp hTree with
    ⟨unpacked, hUnpack, hTree⟩
  rw [hUnpack]
  refine
    comesBack_of_ordered hLawful
      (Conversion.ordered_of_recursiveUnpack hUnpack) ?_ tree
      hTree
  simp [Conversion.variants_of_unpackLevels rfl hUnpack]

/-
  In any library, a host value whose maps are in order has a
  tree exactly if all of its variants can be unpacked, and
  what is read from the tree is its normal form. To take the
  normal form again changes nothing, and values in normal
  form come back as they were.
-/
theorem toJson_normalForm
    (hLawful : library.Lawful)
    {value : Value}
    (hOrdered : value.Ordered) :
    ((∃ tree, value.toJson library = .ok tree) ↔
        ∀ w ∈ value.variants,
          ∃ unpacked,
            Conversion.standard.recursiveUnpack w =
              .ok unpacked) ∧
      (∀ tree,
        value.toJson library = .ok tree →
          value.normalForm = .ok (ofJson library tree)) ∧
      (∀ w,
        normalForm (.variant w) =
          Conversion.standard.recursiveUnpack w >>=
            normalForm) ∧
      (∀ form,
        value.normalForm = .ok form →
          form.IsNormal ∧ form.normalForm = .ok form) ∧
      (value.IsNormal →
        ∃ tree,
          value.toJson library = .ok tree ∧
            ofJson library tree = value) := by
  have hSucceeds :
      (∃ tree, value.toJson library = .ok tree) ↔
        ∀ w ∈ value.variants,
          ∃ unpacked,
            Conversion.standard.recursiveUnpack w =
              .ok unpacked := by
    rw [toJson, exists_treeWith_iff]
    exact forall₂_congr fun w _ => exists_toJson_variant_iff w
  have hTree :
      ∀ tree,
        value.toJson library = .ok tree →
          value.normalForm = .ok (ofJson library tree) := by
    intro tree hJson
    refine
      comesBack_of_ordered hLawful hOrdered ?_ tree hJson
    intro w _ tree hVariant
    exact normalForm_of_toJson_variant hLawful hVariant
  refine ⟨hSucceeds, hTree, normalForm_variant, ?_, ?_⟩
  · intro form hForm
    have hNormal : form.IsNormal :=
      isNormal_of_normalForm hForm
    exact ⟨hNormal, normaliseWith_of_isNormal hNormal⟩
  · intro hNormal
    have hSame : value.normalForm = .ok value :=
      normaliseWith_of_isNormal hNormal
    have hNone : value.variants = [] :=
      variants_of_isNormal hNormal
    rcases hSucceeds.mpr (by simp [hNone]) with
      ⟨tree, hJson⟩
    rw [hTree tree hJson, Except.ok.injEq] at hSame
    exact ⟨tree, hJson, hSame⟩

/-
  Each kind of part that does not come back as it was, one
  of them in a box inside of a map.
-/
def changedParts : Value :=
  .array
    [.bytes [7, 255], .uint 9, .double ⟨0x7FF0000000000000⟩,
      .map
        [("k", .variant (.boxed (.bytes [1]))),
          ("m", .uint 0x8000000000000000)]]

theorem toJson_normalForm_changedParts :
    changedParts.Ordered ∧
      (∃ tree,
        changedParts.toJson Json.library = .ok tree ∧
          ofJson Json.library tree =
            .array
              [.array [.int 7, .int 255], .int 9, .null,
                .map
                  [("k", .array [.int 1]),
                    ("m", .uint 0x8000000000000000)]]) := by
  have hKeys : "k" < "m" := by decide
  have hSorted :
      Entries.Sorted
        [("k", Value.variant (.boxed (.bytes [1]))),
          ("m", .uint 0x8000000000000000)] :=
    List.pairwise_pair.mpr hKeys
  have hOrdered : changedParts.Ordered := by
    simp only [changedParts, Ordered, OrderedAll,
      OrderedEntries, and_true, true_and]
    exact hSorted
  rcases toJson_normalForm Json.library_lawful hOrdered with
    ⟨hSucceeds, hTree, _⟩
  have hVariants :
      ∀ w ∈ changedParts.variants,
        ∃ unpacked,
          Conversion.standard.recursiveUnpack w =
            .ok unpacked := by
    intro w hMem
    have hBox : w = .boxed (.bytes [1]) := by
      simpa [changedParts, variants, variantsAll,
        variantsOfEntries] using hMem
    rw [hBox]
    exact ⟨_, rfl⟩
  rcases hSucceeds.mpr hVariants with ⟨tree, hJson⟩
  have hForm := hTree tree hJson
  refine ⟨hOrdered, tree, hJson, ?_⟩
  have hParts :
      changedParts.normalForm =
        .ok
          (.array
            [.array [.int 7, .int 255], .int 9, .null,
              .map
                [("k", .array [.int 1]),
                  ("m", .uint 0x8000000000000000)]]) := by
    rfl
  rw [hParts, Except.ok.injEq] at hForm
  exact hForm.symm

end Value

end GVariant
