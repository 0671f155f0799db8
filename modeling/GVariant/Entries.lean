/-
  Lists of entries in strictly increasing order of their
  keys.

  Texts are ordered by code points, which is the order of
  their bytes. Inserting keeps the order and replaces an
  entry with the same key, so there is one list for each
  set of entries.

  Key definitions include:
    * `Entries.Sorted`
    * `Entries.insert`
    * `Entries.find?`
    * `Entries.erase`
    * `Entries.ofList`

  Each update changes what is found for one key, and the
  order is kept:
    * `Entries.find?_insert`
    * `Entries.find?_erase`
    * `Entries.find?_eq_some_iff`
    * `Entries.sorted_insert`
    * `Entries.sorted_erase`
    * `Entries.sorted_ofList`
    * `Entries.ofList_of_sorted`

  Of the entries that a list is made of the last of a key is
  kept, and none is lost only if no key is repeated:
    * `Entries.mem_keys_ofList`
    * `Entries.find?_ofList_append_cons`
    * `Entries.length_ofList_eq_iff`
-/

------------------------------------------------------------
-- Operations
------------------------------------------------------------

namespace GVariant

namespace Entries

variable {α : Type}

/- Strictly increasing keys. -/
def Sorted (entries : List (String × α)) : Prop :=
  entries.Pairwise fun a b => a.1 < b.1

/- Add an entry, in place of one with the same key. -/
def insert
    (key : String)
    (value : α) :
    List (String × α) → List (String × α)
| [] => [(key, value)]
| (key', value') :: entries =>
    if key < key' then
      (key, value) :: (key', value') :: entries
    else if key = key' then
      (key, value) :: entries
    else
      (key', value') :: insert key value entries

/- The value of a key. -/
def find?
    (key : String) :
    List (String × α) → Option α
| [] => none
| (key', value) :: entries =>
    if key = key' then some value else find? key entries

/- The entries other than that of a key. -/
def erase
    (key : String)
    (entries : List (String × α)) : List (String × α) :=
  entries.filter fun entry => entry.1 != key

/- Entries inserted one after another. -/
def ofList
    (entries : List (String × α)) : List (String × α) :=
  entries.foldl
    (fun table entry => insert entry.1 entry.2 table) []

end Entries

end GVariant

------------------------------------------------------------
-- Look-Up After Updates
------------------------------------------------------------

namespace GVariant

namespace Entries

variable {α : Type}

/- Insertion sets the value of its key and of no other. -/
theorem find?_insert
    (key other : String)
    (value : α)
    (entries : List (String × α)) :
    find? other (insert key value entries) =
      if other = key then
        some value
      else
        find? other entries := by
  induction entries with
  | nil => rfl
  | cons head entries ih =>
      obtain ⟨key', value'⟩ := head
      rw [insert]
      split
      · rfl
      · split
        · rename_i hEq
          subst hEq
          by_cases hOther : other = key
          · simp [find?, hOther]
          · simp [find?, hOther]
        · rename_i hNe
          rw [find?, ih, find?]
          by_cases hOther : other = key
          · simp [hOther, hNe]
          · simp [hOther]

/- Erasure takes the value of its key and of no other. -/
theorem find?_erase
    (key other : String)
    (entries : List (String × α)) :
    find? other (erase key entries) =
      if other = key then
        none
      else
        find? other entries := by
  induction entries with
  | nil => simp [erase, find?]
  | cons head entries ih =>
      obtain ⟨key', value'⟩ := head
      by_cases hKey : key' = key
      · have hErase :
            erase key ((key', value') :: entries) =
              erase key entries := by
          simp [erase, hKey]
        rw [hErase, ih, find?]
        by_cases hOther : other = key
        · simp [hOther]
        · simp [hOther, hKey]
      · have hErase :
            erase key ((key', value') :: entries) =
              (key', value') :: erase key entries := by
          simp [erase, hKey]
        rw [hErase, find?, ih, find?]
        by_cases hOther : other = key
        · have hNe : ¬ key = key' := fun h => hKey h.symm
          simp [hOther, hNe]
        · simp [hOther]

end Entries

end GVariant

------------------------------------------------------------
-- Order
------------------------------------------------------------

namespace GVariant

namespace Entries

variable {α : Type}

/- Insertion adds no other entry. -/
theorem mem_insert
    {key : String}
    {value : α}
    {entries : List (String × α)}
    {entry : String × α}
    (hMem : entry ∈ insert key value entries) :
    entry = (key, value) ∨ entry ∈ entries := by
  induction entries with
  | nil => simpa [insert] using hMem
  | cons head entries ih =>
      obtain ⟨key', value'⟩ := head
      rw [insert] at hMem
      split at hMem
      · simpa using hMem
      · split at hMem
        · rcases List.mem_cons.mp hMem with h | h
          · exact .inl h
          · exact .inr (List.mem_cons_of_mem _ h)
        · rcases List.mem_cons.mp hMem with h | h
          · exact .inr (by simp [h])
          · rcases ih h with h | h
            · exact .inl h
            · exact .inr (List.mem_cons_of_mem _ h)

/- Insertion keeps the order. -/
theorem sorted_insert
    {key : String}
    {value : α}
    {entries : List (String × α)}
    (hSorted : Sorted entries) :
    Sorted (insert key value entries) := by
  induction entries with
  | nil => simp [insert, Sorted]
  | cons head entries ih =>
      obtain ⟨key', value'⟩ := head
      have hTail := List.pairwise_cons.mp hSorted
      rw [insert]
      split
      · rename_i hLess
        refine List.pairwise_cons.mpr ⟨?_, hSorted⟩
        intro entry hEntry
        rcases List.mem_cons.mp hEntry with h | h
        · simpa [h] using hLess
        · exact String.lt_trans hLess (hTail.1 entry h)
      · rename_i hNotLess
        split
        · rename_i hEq
          subst hEq
          exact List.pairwise_cons.mpr ⟨hTail.1, hTail.2⟩
        · rename_i hNe
          refine List.pairwise_cons.mpr ⟨?_, ih hTail.2⟩
          intro entry hEntry
          rcases mem_insert hEntry with h | h
          · subst h
            rcases Std.le_iff_lt_or_eq.mp
                (String.not_lt.mp hNotLess) with h | h
            · exact h
            · exact absurd h.symm hNe
          · exact hTail.1 entry h

/- Erasure keeps the order. -/
theorem sorted_erase
    {key : String}
    {entries : List (String × α)}
    (hSorted : Sorted entries) :
    Sorted (erase key entries) :=
  List.Pairwise.filter _ hSorted

/- Entries inserted one after another are in order. -/
theorem sorted_ofList
    (entries : List (String × α)) :
    Sorted (ofList entries) := by
  have hFold :
      ∀ table : List (String × α),
        Sorted table →
          Sorted
            (entries.foldl
              (fun table entry =>
                insert entry.1 entry.2 table) table) := by
    induction entries with
    | nil =>
        intro table hTable
        exact hTable
    | cons head entries ih =>
        intro table hTable
        exact ih _ (sorted_insert hTable)
  exact hFold [] List.Pairwise.nil

/- What is found for a key is the entry with the key. -/
theorem find?_eq_some_iff
    {key : String}
    {value : α}
    {entries : List (String × α)}
    (hSorted : Sorted entries) :
    find? key entries = some value ↔
      (key, value) ∈ entries := by
  induction entries with
  | nil => simp [find?]
  | cons head entries ih =>
      obtain ⟨key', value'⟩ := head
      rcases List.pairwise_cons.mp hSorted with
        ⟨hHead, hTail⟩
      rw [find?, List.mem_cons]
      split
      · rename_i hSame
        subst hSame
        -- No later entry has the key again.
        have hOther : (key, value) ∉ entries :=
          fun hMem => String.lt_irrefl key (hHead _ hMem)
        simp [hOther, eq_comm]
      · rename_i hOther
        rw [ih hTail]
        simp [hOther]

/- An entry beyond all others is inserted at the end. -/
theorem insert_of_forall_lt
    {key : String}
    {value : α}
    {entries : List (String × α)}
    (hBeyond : ∀ entry ∈ entries, entry.1 < key) :
    insert key value entries = entries ++ [(key, value)] := by
  induction entries with
  | nil => rfl
  | cons head entries ih =>
      rcases List.forall_mem_cons.mp hBeyond with
        ⟨hHead, hRest⟩
      have hNotLess : ¬ key < head.1 :=
        String.lt_asymm hHead
      have hNotSame : key ≠ head.1 := by
        rintro rfl
        exact String.lt_irrefl _ hHead
      rw [insert, if_neg hNotLess, if_neg hNotSame, ih hRest]
      rfl

/- Entries in order are kept as they are. -/
theorem ofList_of_sorted
    {entries : List (String × α)}
    (hSorted : Sorted entries) :
    ofList entries = entries := by
  have hFold :
      ∀ table : List (String × α),
        Sorted (table ++ entries) →
          entries.foldl
              (fun table entry =>
                insert entry.1 entry.2 table) table =
            table ++ entries := by
    clear hSorted
    induction entries with
    | nil =>
        intro table _
        exact (List.append_nil table).symm
    | cons head entries ih =>
        intro table hTable
        have hBeyond :
            ∀ entry ∈ table, entry.1 < head.1 :=
          fun entry hMem =>
            (List.pairwise_append.mp hTable).2.2 entry hMem
              head List.mem_cons_self
        rw [List.foldl_cons, insert_of_forall_lt hBeyond,
          ih _ (by simpa using hTable), List.append_assoc]
        rfl
  exact hFold [] hSorted

end Entries

end GVariant

------------------------------------------------------------
-- Number Of Entries
------------------------------------------------------------

namespace GVariant

namespace Entries

variable {α : Type}

/- Insertion adds its key to the keys, and no other. -/
theorem mem_keys_insert
    {key other : String}
    {value : α}
    {entries : List (String × α)} :
    other ∈ (insert key value entries).map Prod.fst ↔
      other = key ∨ other ∈ entries.map Prod.fst := by
  induction entries with
  | nil => simp [insert]
  | cons head entries ih =>
      obtain ⟨key', value'⟩ := head
      rw [insert]
      split
      · simp
      · split
        · rename_i hEq
          subst hEq
          simp
        · rw [List.map_cons, List.mem_cons, ih, List.map_cons,
            List.mem_cons]
          exact or_left_comm

/- Insertion adds an entry exactly if its key is new. -/
theorem length_insert
    (key : String)
    (value : α)
    {entries : List (String × α)}
    (hSorted : Sorted entries) :
    (insert key value entries).length =
      if key ∈ entries.map Prod.fst then
        entries.length
      else
        entries.length + 1 := by
  induction entries with
  | nil => simp [insert]
  | cons head entries ih =>
      rcases List.pairwise_cons.mp hSorted with
        ⟨hHead, hTail⟩
      rw [insert, List.map_cons]
      split
      · rename_i hLess
        -- All of the keys are beyond the new one.
        have hNew : key ∉ head.1 :: entries.map Prod.fst := by
          intro hMem
          rcases List.mem_cons.mp hMem with rfl | hMem
          · exact String.lt_irrefl _ hLess
          · rcases List.mem_map.mp hMem with
              ⟨entry, hEntry, rfl⟩
            exact
              String.lt_asymm hLess (hHead entry hEntry)
        rw [if_neg hNew]
        rfl
      · split
        · rename_i hEq
          have hOld : key ∈ head.1 :: entries.map Prod.fst :=
            hEq ▸ List.mem_cons_self
          rw [if_pos hOld]
          rfl
        · rename_i hNe
          rw [List.length_cons, ih hTail]
          simp only [List.mem_cons, hNe, false_or,
            List.length_cons]
          split <;> rfl

/-
  A table gains all of the entries that are inserted exactly
  if their keys are different and new to it. It never gains
  more than them.
-/
theorem length_foldl_insert
    {table : List (String × α)}
    (hTable : Sorted table)
    (entries : List (String × α)) :
    (entries.foldl
          (fun table entry => insert entry.1 entry.2 table)
          table).length ≤
        table.length + entries.length ∧
      ((entries.foldl
            (fun table entry => insert entry.1 entry.2 table)
            table).length =
          table.length + entries.length ↔
        (entries.map Prod.fst).Nodup ∧
          ∀ key ∈ entries.map Prod.fst,
            key ∉ table.map Prod.fst) := by
  induction entries generalizing table with
  | nil => simp
  | cons head entries ih =>
      have hLength := length_insert head.1 head.2 hTable
      have hSorted : Sorted (insert head.1 head.2 table) :=
        sorted_insert hTable
      rcases ih hSorted with ⟨hLe, hEq⟩
      simp only [List.foldl_cons, List.length_cons,
        List.map_cons, List.nodup_cons, List.forall_mem_cons]
      by_cases hOld : head.1 ∈ table.map Prod.fst
      · rw [if_pos hOld] at hLength
        refine ⟨by omega, ?_⟩
        constructor
        · intro hAll
          omega
        · intro hNew
          exact absurd hOld hNew.2.1
      · rw [if_neg hOld] at hLength
        refine ⟨by omega, ?_⟩
        have hSum :
            table.length + (entries.length + 1) =
              (insert head.1 head.2 table).length +
                entries.length := by
          omega
        rw [hSum, hEq]
        simp only [mem_keys_insert, not_or]
        constructor
        · rintro ⟨hNodup, hNew⟩
          exact
            ⟨⟨fun hMem => (hNew head.1 hMem).1 rfl, hNodup⟩,
              hOld, fun key hMem => (hNew key hMem).2⟩
        · rintro ⟨⟨hHead, hNodup⟩, _, hNew⟩
          refine ⟨hNodup, ?_⟩
          intro key hMem
          exact
            ⟨fun hSame => hHead (hSame ▸ hMem), hNew key hMem⟩

/-
  A table has an entry for each entry that it is made of
  exactly if no key is repeated.
-/
theorem length_ofList_eq_iff
    {entries : List (String × α)} :
    (ofList entries).length = entries.length ↔
      (entries.map Prod.fst).Nodup := by
  have hEmpty : Sorted ([] : List (String × α)) :=
    List.Pairwise.nil
  simpa [ofList] using (length_foldl_insert hEmpty entries).2

end Entries

end GVariant

------------------------------------------------------------
-- Lists Made Of Entries
------------------------------------------------------------

namespace GVariant

namespace Entries

variable {α : Type}

/- Only what is inserted is added to a table. -/
theorem mem_foldl_insert
    {entry : String × α}
    {entries table : List (String × α)}
    (hMem :
      entry ∈
        entries.foldl
          (fun table entry => insert entry.1 entry.2 table)
          table) :
    entry ∈ table ∨ entry ∈ entries := by
  induction entries generalizing table with
  | nil => exact .inl hMem
  | cons head entries ih =>
      rw [List.foldl_cons] at hMem
      rcases ih hMem with hInserted | hLater
      · rcases mem_insert hInserted with rfl | hOld
        · exact .inr List.mem_cons_self
        · exact .inl hOld
      · exact .inr (List.mem_cons_of_mem _ hLater)

/- Entries that a table is made of are all it has. -/
theorem mem_of_mem_ofList
    {entry : String × α}
    {entries : List (String × α)}
    (hMem : entry ∈ ofList entries) :
    entry ∈ entries := by
  rcases mem_foldl_insert hMem with hNone | hEntry
  · cases hNone
  · exact hEntry

/- A table has the keys that are inserted into it. -/
theorem mem_keys_foldl_insert
    {key : String}
    {entries table : List (String × α)} :
    key ∈
        (entries.foldl
          (fun table entry => insert entry.1 entry.2 table)
          table).map Prod.fst ↔
      key ∈ table.map Prod.fst ∨
        key ∈ entries.map Prod.fst := by
  induction entries generalizing table with
  | nil => simp
  | cons head entries ih =>
      rw [List.foldl_cons, ih, mem_keys_insert, List.map_cons,
        List.mem_cons, or_assoc, or_left_comm]

theorem mem_keys_ofList
    {key : String}
    {entries : List (String × α)} :
    key ∈ (ofList entries).map Prod.fst ↔
      key ∈ entries.map Prod.fst := by
  simpa [ofList] using
    @mem_keys_foldl_insert α key entries []

/- Insertions with other keys do not change what is found. -/
theorem find?_foldl_insert_of_not_mem
    {key : String}
    {entries : List (String × α)}
    (hOther : key ∉ entries.map Prod.fst)
    (table : List (String × α)) :
    find? key
        (entries.foldl
          (fun table entry => insert entry.1 entry.2 table)
          table) =
      find? key table := by
  induction entries generalizing table with
  | nil => rfl
  | cons head entries ih =>
      rw [List.map_cons, List.mem_cons, not_or] at hOther
      rw [List.foldl_cons, ih hOther.2, find?_insert,
        if_neg hOther.1]

/- What is found for a key is its last entry. -/
theorem find?_ofList_append_cons
    {key : String}
    {before after : List (String × α)}
    (value : α)
    (hLast : key ∉ after.map Prod.fst) :
    find? key (ofList (before ++ (key, value) :: after)) =
      some value := by
  rw [ofList, List.foldl_append, List.foldl_cons,
    find?_foldl_insert_of_not_mem hLast, find?_insert,
    if_pos rfl]

end Entries

end GVariant
