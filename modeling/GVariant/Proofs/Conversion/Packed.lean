import GVariant.Proofs.Conversion.Heads
import GVariant.Proofs.Variant.WellFormed

/-
  What packing returns is a well-formed variant, and its
  type is what the reader took.

  The packer never looks into the variants that a host value
  holds, it only boxes them. Whatever holds of these holds
  of the boxes in the result, and outside of boxes the
  result is well-formed. The characters that were taken are
  the type string of the result, which keeps the limit of
  the reader. All of this is for any reader and any limits.

  Key definitions include:
    * `Value.variants`
    * `Step.Ends`
    * `Reader.Packed`

  Main declarations:
    * `Value.induction`
    * `Value.exists_of_packBasic`
    * `Conversion.pack_ends`
    * `Conversion.packed_of_packNext`
    * `Conversion.packAs_eq_ok_iff`
    * `Conversion.packed_of_packAs`
-/

------------------------------------------------------------
-- Induction
------------------------------------------------------------

namespace GVariant

namespace Value

/-
  Induction over the tree of a host value, with a hypothesis
  for every item of an array and every entry of a map.
-/
@[induction_eliminator]
theorem induction
    {motive : Value → Prop}
    (null : motive .null)
    (bool : ∀ value, motive (.bool value))
    (int : ∀ value, motive (.int value))
    (uint : ∀ value, motive (.uint value))
    (double : ∀ value, motive (.double value))
    (string : ∀ value, motive (.string value))
    (bytes : ∀ content, motive (.bytes content))
    (array :
      ∀ items,
        (∀ item ∈ items, motive item) →
          motive (.array items))
    (map :
      ∀ entries,
        (∀ entry ∈ entries, motive entry.2) →
          motive (.map entries))
    («variant» : ∀ value, motive (.variant value))
    (value : Value) :
    motive value := by
  refine
    @Value.rec motive
      (fun items => ∀ item ∈ items, motive item)
      (fun entries => ∀ entry ∈ entries, motive entry.2)
      (fun entry => motive entry.2)
      null bool int uint double string bytes array map
      «variant» ?_ ?_ ?_ ?_ ?_ value
  · simp
  · intro item items hItem hItems
    exact List.forall_mem_cons.mpr ⟨hItem, hItems⟩
  · simp
  · intro entry entries hEntry hEntries
    exact List.forall_mem_cons.mpr ⟨hEntry, hEntries⟩
  · intro key value hValue
    exact hValue

mutual

/- The variants that a host value holds. -/
def variants : Value → List Variant
| .array items => variantsAll items
| .map entries => variantsOfEntries entries
| .variant value => [value]
| _ => []

/- The variants that several host values hold. -/
def variantsAll : List Value → List Variant
| [] => []
| item :: items => item.variants ++ variantsAll items

/- The variants that the values of entries hold. -/
def variantsOfEntries :
    List (String × Value) → List Variant
| [] => []
| (_, value) :: entries =>
    value.variants ++ variantsOfEntries entries

end

theorem forall_variantsAll_iff
    {inside : Variant → Prop}
    (items : List Value) :
    (∀ w ∈ variantsAll items, inside w) ↔
      ∀ item ∈ items, ∀ w ∈ item.variants, inside w := by
  induction items with
  | nil => simp [variantsAll]
  | cons item items ih =>
      simp only [variantsAll, List.forall_mem_append,
        List.forall_mem_cons, ih]

theorem forall_variantsOfEntries_iff
    {inside : Variant → Prop}
    (entries : List (String × Value)) :
    (∀ w ∈ variantsOfEntries entries, inside w) ↔
      ∀ entry ∈ entries,
        ∀ w ∈ entry.2.variants, inside w := by
  induction entries with
  | nil => simp [variantsOfEntries]
  | cons entry entries ih =>
      simp only [variantsOfEntries, List.forall_mem_append,
        List.forall_mem_cons, ih]

end Value

end GVariant

------------------------------------------------------------
-- Scalars And Arrays Without Items
------------------------------------------------------------

namespace GVariant

variable {inside : Variant → Prop}

/- A host value is packed to a valid scalar of the type. -/
theorem Value.exists_of_packBasic
    {value : Value}
    {type : BasicType}
    {v : Variant}
    (hPack : value.packBasic type = .ok v) :
    ∃ s, v = .scalar s ∧ s.type = type ∧ s.Valid := by
  cases type with
  | boolean =>
      simp only [packBasic] at hPack
      cases hBool : value.toBool with
      | error e =>
          rw [hBool] at hPack
          cases hPack
      | ok b =>
          rw [hBool] at hPack
          cases hPack
          exact ⟨_, rfl, rfl, True.intro⟩
  | int kind =>
      simp only [packBasic] at hPack
      cases hInt : value.toInteger kind with
      | error e =>
          rw [hInt] at hPack
          cases hPack
      | ok n =>
          rw [hInt] at hPack
          cases hPack
          exact ⟨_, rfl, rfl, True.intro⟩
  | double =>
      simp only [packBasic] at hPack
      cases hDouble : value.toDouble with
      | error e =>
          rw [hDouble] at hPack
          cases hPack
      | ok x =>
          rw [hDouble] at hPack
          cases hPack
          exact ⟨_, rfl, rfl, True.intro⟩
  | text kind =>
      simp only [packBasic] at hPack
      split at hPack
      · cases hPack
      · rename_i text hText
        rcases Variant.text_eq_ok_iff.mp hPack with
          ⟨hAccepts, rfl⟩
        exact ⟨_, rfl, rfl, hAccepts⟩

/- An array has the type of arrays of its element type. -/
theorem Variant.type_of_array
    {element : Ty}
    {children : List Variant}
    {v : Variant}
    (hArray : array element children = .ok v) :
    v.type = .array element := by
  rcases array_eq_ok_iff.mp hArray with ⟨_, rfl⟩
  unfold packed
  split
  · rename_i hByte
    rw [hByte]
    rfl
  · rfl

/- Bytes and strings that are packed whole are arrays. -/
theorem Conversion.typed_of_packPlainArray
    {conv : Conversion}
    {element : Ty}
    {value : Value}
    {v : Variant}
    (hPack : conv.packPlainArray element value = .ok v) :
    v.WellTyped inside ∧ v.type = .array element := by
  unfold packPlainArray at hPack
  split at hPack
  · rename_i hByte
    rw [hByte]
    unfold packBytes at hPack
    split at hPack
    · cases hPack
      exact ⟨True.intro, rfl⟩
    · cases hPack
      exact ⟨True.intro, rfl⟩
    · split at hPack
      · cases hPack
      · cases hPack
        exact ⟨True.intro, rfl⟩
    · cases hPack
  · split at hPack
    · rename_i hString
      unfold packStrings at hPack
      split at hPack
      · cases hPack
      · split at hPack
        · cases hPack
        · have hTyped : v.WellTyped inside :=
            Variant.wellTyped_of_strings hPack
          rcases Variant.strings_eq_ok hPack with ⟨_, rfl⟩
          exact ⟨hTyped, by rw [hString]; rfl⟩
    · split at hPack <;> cases hPack

end GVariant

------------------------------------------------------------
-- Packed Variants
------------------------------------------------------------

namespace GVariant

/-
  The result of a step, if it has one, and the reader after
  it are in a relation.
-/
def Step.Ends
    {α : Type}
    (step : Step α)
    (relation : α → Reader → Prop) : Prop :=
  ∀ a r, step = (.ok a, r) → relation a r

/-
  A reader packed a variant at a depth: the variant is
  well-formed outside of boxes, the reader took its type
  string, and its type keeps the limit of the reader.
-/
structure Reader.Packed
    (inside : Variant → Prop)
    (r : Reader)
    (depth : Nat)
    (v : Variant)
    (r' : Reader) : Prop where
  wellTyped : v.WellTyped inside
  took : r.Took v.type.chars r'
  nesting_le : depth + v.type.nesting ≤ r.maxDepth

variable {inside : Variant → Prop}

namespace Variant

/- Maybes around a well-formed variant are well-formed. -/
theorem wellTyped_justs
    (count : Nat)
    {v : Variant}
    (hTyped : v.WellTyped inside) :
    (v.justs count).WellTyped inside := by
  induction count with
  | zero => exact hTyped
  | succ count ih => exact ih

theorem chars_type_justs
    (count : Nat)
    (v : Variant) :
    (v.justs count).type.chars =
      List.replicate count 'm' ++ v.type.chars := by
  induction count with
  | zero => rfl
  | succ count ih =>
      rw [justs, type, Ty.chars, ih]
      rfl

theorem nesting_type_justs
    (count : Nat)
    (v : Variant) :
    (v.justs count).type.nesting =
      v.type.nesting + count := by
  induction count with
  | zero => rfl
  | succ count ih =>
      rw [justs, type, Ty.nesting, ih]
      rfl

end Variant

namespace Conversion

variable {conv : Conversion}
variable {s r : Reader}
variable {depth : Nat}

/- Maybes are packed around what is packed behind them. -/
theorem wrapMaybes_ends
    {count : Nat}
    {result : Step Variant}
    (hTook : r.Took (List.replicate count 'm') s)
    (hResult :
      result.Ends (s.Packed inside (depth + count))) :
    (wrapMaybes count result).Ends
      (r.Packed inside depth) := by
  intro v r' hPack
  unfold wrapMaybes at hPack
  split at hPack
  · cases hPack
  · rename_i packed _
    cases hPack
    have hPacked := hResult packed _ rfl
    refine
      ⟨Variant.wellTyped_justs count hPacked.wellTyped, ?_, ?_⟩
    · rw [Variant.chars_type_justs]
      exact hTook.trans hPacked.took
    · rw [Variant.nesting_type_justs, ← hTook.maxDepth_eq]
      have hNested := hPacked.nesting_le
      omega

/- A class that asks for no array is packed at its head. -/
theorem packFlat_ends
    {value : Value}
    (hInside : ∀ w ∈ value.variants, inside w)
    {cls : TypeClass}
    (hHead : s.TookClass depth cls r) :
    (packFlat value cls depth r).Ends
      (s.Packed inside depth) := by
  intro v r' hPack
  unfold packFlat at hPack
  split at hPack
  · rename_i type
    rcases Value.exists_of_packBasic (Prod.mk.inj hPack).1 with
      ⟨scalar, rfl, rfl, hValid⟩
    cases (Prod.mk.inj hPack).2
    exact ⟨hValid, hHead.took, hHead.depth_le⟩
  · split at hPack
    · cases hPack
      exact
        ⟨hInside _ (by simp [Value.variants]), hHead.took,
          hHead.depth_le⟩
    · cases hPack
  · split at hPack
    · cases hPack
    · rename_i element _ hRead
      cases hPack
      rcases Reader.took_of_readAt (depth + 1) hRead with
        ⟨hTook, hNested⟩
      rw [hHead.took.maxDepth_eq] at hNested
      refine ⟨True.intro, hHead.took.trans hTook, ?_⟩
      rw [Variant.type, Ty.nesting]
      omega
  · cases hPack
  · cases hPack
  · cases hPack

/- An array is packed at its head and its element type. -/
theorem packed_array
    {element : Ty}
    {r' : Reader}
    {v : Variant}
    (hHead : s.TookClass depth .array r)
    (hRead : r.readAt (depth + 1) = (.ok element, r'))
    (hTyped : v.WellTyped inside ∧ v.type = .array element) :
    s.Packed inside depth v r' := by
  rcases Reader.took_of_readAt (depth + 1) hRead with
    ⟨hTook, hNested⟩
  rw [hHead.took.maxDepth_eq] at hNested
  refine ⟨hTyped.1, ?_, ?_⟩
  · rw [hTyped.2]
    exact hHead.took.trans hTook
  · rw [hTyped.2, Ty.nesting]
    omega

/- A leaf is packed at its head, as bytes at most. -/
theorem packLeaf_ends
    {value : Value}
    (hInside : ∀ w ∈ value.variants, inside w)
    {cls : TypeClass}
    (hHead : s.TookClass depth cls r) :
    (packLeaf conv value cls depth r).Ends
      (s.Packed inside depth) := by
  intro v r' hPack
  unfold packLeaf at hPack
  split at hPack
  · split at hPack
    · cases hPack
    · rename_i element _ hRead
      cases (Prod.mk.inj hPack).2
      exact
        packed_array hHead hRead
          (typed_of_packPlainArray (Prod.mk.inj hPack).1)
  · exact packFlat_ends hInside hHead v r' hPack

/- An array whose elements are packed well-formed. -/
theorem packArray_ends
    {value : Value}
    {packEach : Ty → Except Error (List Variant)}
    (hEach :
      ∀ {element children},
        packEach element = .ok children →
          ∀ child ∈ children, child.WellTyped inside)
    (hHead : s.TookClass depth .array r) :
    (packArray conv value packEach depth r).Ends
      (s.Packed inside depth) := by
  intro v r' hPack
  unfold packArray at hPack
  split at hPack
  · cases hPack
  · rename_i element _ hRead
    split at hPack
    · cases (Prod.mk.inj hPack).2
      exact
        packed_array hHead hRead
          (typed_of_packPlainArray (Prod.mk.inj hPack).1)
    · split at hPack
      · cases hPack
      · rename_i children hChildren
        have hArray := (Prod.mk.inj hPack).1
        cases (Prod.mk.inj hPack).2
        exact
          packed_array hHead hRead
            ⟨Variant.wellTyped_of_array hArray
                (hEach hChildren),
              Variant.type_of_array hArray⟩

/- A dictionary whose entries are packed well-formed. -/
theorem packDictionary_ends
    {value : Value}
    {packEach :
      BasicType → Ty → Except Error (List Variant)}
    (hEach :
      ∀ {key type children},
        packEach key (.dictEntry key type) = .ok children →
          ∀ child ∈ children, child.WellTyped inside)
    (hHead : s.TookClass depth .array r) :
    (packDictionary conv value packEach depth r).Ends
      (s.Packed inside depth) := by
  intro v r' hPack
  unfold packDictionary at hPack
  split at hPack
  · cases hPack
  · rename_i key type _ hRead
    split at hPack
    · cases hPack
    · rename_i children hChildren
      have hArray := (Prod.mk.inj hPack).1
      cases (Prod.mk.inj hPack).2
      exact
        packed_array hHead hRead
          ⟨Variant.wellTyped_of_array hArray (hEach hChildren),
            Variant.type_of_array hArray⟩
  · rename_i element _ _ hRead
    cases (Prod.mk.inj hPack).2
    exact
      packed_array hHead hRead
        (typed_of_packPlainArray (Prod.mk.inj hPack).1)

end Conversion

end GVariant

------------------------------------------------------------
-- Entries And Members
------------------------------------------------------------

namespace GVariant

namespace Conversion

variable {inside : Variant → Prop}
variable {conv : Conversion}
variable {s r : Reader}
variable {depth : Nat}

/- The key of an entry is a valid scalar of its character. -/
theorem packEntryKey_ends
    (key : Value)
    (depth : Nat)
    (r : Reader) :
    (packEntryKey key depth r).Ends fun v r' =>
      ∃ scalar,
        v = .scalar scalar ∧
          scalar.Valid ∧
          r.Took [scalar.type.char] r' ∧
          depth + 1 ≤ r.maxDepth := by
  intro v r' hPack
  unfold packEntryKey at hPack
  split at hPack
  · cases hPack
  · split at hPack
    · cases hPack
    · rename_i hRead
      rcases Reader.tookClass_of_readHead_false hRead with
        ⟨_, hHead⟩
      rcases Value.exists_of_packBasic
          (Prod.mk.inj hPack).1 with
        ⟨scalar, rfl, rfl, hValid⟩
      cases (Prod.mk.inj hPack).2
      exact ⟨scalar, rfl, hValid, hHead.took, hHead.depth_le⟩
    · cases hPack

/- An entry is packed from its brace on if its value is. -/
theorem packEntryWith_ends
    {packValue : Reader → Step Variant}
    (hValue :
      ∀ r, (packValue r).Ends (r.Packed inside (depth + 1)))
    (key : Value)
    (hHead : s.TookClass depth .dictEntry r) :
    (packEntryWith packValue key depth r).Ends
      (s.Packed inside depth) := by
  intro v r' hPack
  unfold packEntryWith at hPack
  split at hPack
  · cases hPack
  · rename_i packedKey behindKey hKey
    rcases packEntryKey_ends key depth r _ _ hKey with
      ⟨scalar, rfl, hValid, hKeyTook, _⟩
    split at hPack
    · cases hPack
    · rename_i value behindValue hPacked
      have hInner := hValue behindKey _ _ hPacked
      split at hPack
      · cases hPack
      · rename_i hClose
        cases hPack
        have hTook :=
          ((hHead.took.trans hKeyTook).trans hInner.took).trans
            (Reader.took_of_closeEntry hClose)
        have hNested := hInner.nesting_le
        rw [hKeyTook.maxDepth_eq, hHead.took.maxDepth_eq]
          at hNested
        refine ⟨⟨hValid, hInner.wellTyped⟩, ?_, ?_⟩
        · simpa [Variant.type, Ty.chars, TypeClass.char]
            using hTook
        · rw [Variant.type, Ty.nesting]
          omega

/-
  The members of a tuple are packed up to its parenthesis,
  each one level deeper than the tuple.
-/
structure PackedMembers
    (inside : Variant → Prop)
    (r : Reader)
    (depth : Nat)
    (children : List Variant)
    (r' : Reader) : Prop where
  wellTyped : ∀ child ∈ children, child.WellTyped inside
  took :
    r.Took (Ty.charsAll (Variant.typeAll children) ++ [')']) r'
  nesting_le :
    ∀ child ∈ children, depth + child.type.nesting ≤ r.maxDepth

/- A tuple is packed from its parenthesis on. -/
theorem tupleOf_ends
    {result : Step (List Variant)}
    (hHead : s.TookClass depth .tuple r)
    (hResult :
      result.Ends (PackedMembers inside r (depth + 1))) :
    (tupleOf result).Ends (s.Packed inside depth) := by
  intro v r' hPack
  unfold tupleOf at hPack
  split at hPack
  · cases hPack
  · rename_i children _
    cases hPack
    have hMembers := hResult children _ rfl
    have hDepth := hHead.depth_le
    have hItems :
        Ty.nestingAll (Variant.typeAll children) <
          s.maxDepth - depth + 1 := by
      rw [Ty.nestingAll_lt_iff, Variant.typeAll_eq_map]
      intro item hItem
      rcases List.mem_map.mp hItem with ⟨child, hChild, rfl⟩
      have hNested := hMembers.nesting_le child hChild
      rw [hHead.took.maxDepth_eq] at hNested
      omega
    refine ⟨?_, hHead.took.trans hMembers.took, ?_⟩
    · exact
        (Variant.wellTypedAll_iff inside children).mpr
          hMembers.wellTyped
    · rw [Variant.type, Ty.nesting]
      omega

/- A closing parenthesis ends the members. -/
theorem packedMembers_nil
    {r : Reader}
    (hPeek : r.peek? = some ')') :
    PackedMembers inside r depth [] r.pop.2 := by
  cases hRest : r.rest with
  | nil => simp [Reader.peek?, hRest] at hPeek
  | cons c rest =>
      have hChar : c = ')' := by
        simpa [Reader.peek?, hRest] using hPeek
      subst hChar
      have hPop := Reader.pop_cons hRest (by decide)
      rw [hPop]
      exact ⟨by simp, ⟨hRest, rfl⟩, by simp⟩

/- Members are packed one after another. -/
theorem packMembers_ends
    {items : List Value}
    (hItems :
      ∀ item ∈ items,
        ∀ depth r,
          (pack conv item depth r).Ends
            (r.Packed inside depth))
    (depth : Nat)
    (r : Reader) :
    (packMembers conv items depth r).Ends
      (PackedMembers inside r depth) := by
  induction items generalizing r with
  | nil =>
      intro children r' hPack
      rw [packMembers] at hPack
      split at hPack
      · cases hPack
      · rename_i hPeek
        cases hPack
        exact packedMembers_nil hPeek
      · cases hPack
  | cons item items ih =>
      intro children r' hPack
      rw [packMembers] at hPack
      split at hPack
      · cases hPack
      · rename_i hPeek
        cases hPack
        exact packedMembers_nil hPeek
      · split at hPack
        · cases hPack
        · rename_i child behind hChild
          split at hPack
          · cases hPack
          · rename_i rest _ hRest
            cases hPack
            rcases List.forall_mem_cons.mp hItems with
              ⟨hFirst, hOthers⟩
            have hPacked := hFirst depth r child behind hChild
            have hMembers := ih hOthers behind rest _ hRest
            have hNested := hMembers.nesting_le
            rw [hPacked.took.maxDepth_eq] at hNested
            refine ⟨?_, ?_, ?_⟩
            · exact
                List.forall_mem_cons.mpr
                  ⟨hPacked.wellTyped, hMembers.wellTyped⟩
            · have hTook := hPacked.took.trans hMembers.took
              simpa [Variant.typeAll, Ty.charsAll] using hTook
            · exact
                List.forall_mem_cons.mpr
                  ⟨hPacked.nesting_le, hNested⟩

/- The elements of an array are packed well-formed. -/
theorem packElements_wellTyped
    {items : List Value}
    (hItems :
      ∀ item ∈ items,
        ∀ depth r,
          (pack conv item depth r).Ends
            (r.Packed inside depth))
    {element : Ty}
    {depth : Nat}
    {children : List Variant}
    (hPack :
      packElements conv items element depth =
        .ok children) :
    ∀ child ∈ children, child.WellTyped inside := by
  induction items generalizing children with
  | nil =>
      rw [packElements] at hPack
      cases hPack
      simp
  | cons item items ih =>
      rw [packElements] at hPack
      split at hPack
      · cases hPack
      · rename_i child hChild
        split at hPack
        · cases hPack
        · rename_i rest hRest
          cases hPack
          rcases List.forall_mem_cons.mp hItems with
            ⟨hFirst, hOthers⟩
          have hPacked :=
            hFirst depth _ child _ (Prod.ext hChild rfl)
          exact
            List.forall_mem_cons.mpr
              ⟨hPacked.wellTyped, ih hOthers hRest⟩

/- A reader is opened behind the brace of an entry type. -/
theorem tookClass_of_openEntry
    {key : BasicType}
    {type : Ty}
    {limit depth : Nat}
    {r : Reader}
    (hOpen :
      (Ty.dictEntry key type).openEntry limit depth =
        .ok r) :
    (Reader.ofChars (Ty.dictEntry key type).chars
        limit).TookClass depth .dictEntry r := by
  unfold Ty.openEntry at hOpen
  split at hOpen
  · cases hOpen
  · rename_i hDepth
    cases hOpen
    exact ⟨⟨rfl, rfl⟩, Nat.le_of_not_lt hDepth⟩

/- The entries of a dictionary are packed well-formed. -/
theorem packEntries_wellTyped
    {entries : List (String × Value)}
    (hEntries :
      ∀ entry ∈ entries,
        ∀ depth r,
          (pack conv entry.2 depth r).Ends
            (r.Packed inside depth))
    {key : BasicType}
    {type : Ty}
    {depth : Nat}
    {children : List Variant}
    (hPack :
      packEntries conv entries key (.dictEntry key type)
          depth =
        .ok children) :
    ∀ child ∈ children, child.WellTyped inside := by
  induction entries generalizing children with
  | nil =>
      rw [packEntries] at hPack
      cases hPack
      simp
  | cons entry entries ih =>
      rw [packEntries] at hPack
      split at hPack
      · cases hPack
      · rename_i name hName
        split at hPack
        · cases hPack
        · rename_i r hOpen
          split at hPack
          · cases hPack
          · rename_i child hChild
            split at hPack
            · cases hPack
            · rename_i rest hRest
              cases hPack
              rcases List.forall_mem_cons.mp hEntries with
                ⟨hFirst, hOthers⟩
              have hPacked :=
                packEntryWith_ends (hFirst (depth + 1)) name
                  (tookClass_of_openEntry hOpen)
                  child _ (Prod.ext hChild rfl)
              exact
                List.forall_mem_cons.mpr
                  ⟨hPacked.wellTyped, ih hOthers hRest⟩

/- Two items are packed as an entry from its brace on. -/
theorem packPair_ends
    {items : List Value}
    (hItems :
      ∀ item ∈ items,
        ∀ depth r,
          (pack conv item depth r).Ends
            (r.Packed inside depth))
    (hHead : s.TookClass depth .dictEntry r) :
    (packPair conv items depth r).Ends
      (s.Packed inside depth) := by
  intro v r' hPack
  match items with
  | [] => cases hPack
  | [_] => cases hPack
  | [key, value] =>
      have hValue := hItems value (by simp) (depth + 1)
      exact packEntryWith_ends hValue key hHead v r' hPack
  | _ :: _ :: _ :: _ => cases hPack

end Conversion

end GVariant

------------------------------------------------------------
-- Packing
------------------------------------------------------------

namespace GVariant

namespace Conversion

variable {inside : Variant → Prop}

/-
  Whatever is packed is well-formed outside of boxes and is
  of the type that the reader took. The induction is on the
  value, for every depth and reader.
-/
theorem pack_ends
    (conv : Conversion)
    {value : Value}
    (hInside : ∀ w ∈ value.variants, inside w)
    (depth : Nat)
    (r : Reader) :
    (pack conv value depth r).Ends
      (r.Packed inside depth) := by
  induction value generalizing depth r with
  | array items ih =>
      have hItems :=
        (Value.forall_variantsAll_iff items).mp hInside
      have hEach :
          ∀ item ∈ items,
            ∀ depth r,
              (pack conv item depth r).Ends
                (r.Packed inside depth) :=
        fun item hMem => ih item hMem (hItems item hMem)
      rw [pack]
      split
      · intro v r' hPack
        cases hPack
      · rename_i hRead
        rcases Reader.tookClass_of_readHead hRead with
          ⟨s, hMaybes, hHead⟩
        apply wrapMaybes_ends hMaybes
        split
        · exact tupleOf_ends hHead (packMembers_ends hEach _ _)
        · exact packPair_ends hEach hHead
        · exact
            packArray_ends (packElements_wellTyped hEach) hHead
        · exact packFlat_ends hInside hHead
  | map entries ih =>
      have hEntries :=
        (Value.forall_variantsOfEntries_iff entries).mp hInside
      have hEach :
          ∀ entry ∈ entries,
            ∀ depth r,
              (pack conv entry.2 depth r).Ends
                (r.Packed inside depth) :=
        fun entry hMem => ih entry hMem (hEntries entry hMem)
      rw [pack]
      split
      · intro v r' hPack
        cases hPack
      · rename_i hRead
        rcases Reader.tookClass_of_readHead hRead with
          ⟨s, hMaybes, hHead⟩
        apply wrapMaybes_ends hMaybes
        split
        · exact
            packDictionary_ends
              (packEntries_wellTyped hEach) hHead
        · exact packFlat_ends hInside hHead
  | null =>
      rw [pack]
      split
      · intro v r' hPack
        cases hPack
      · rename_i hRead
        have hHead :=
          (Reader.tookClass_of_readHead_false hRead).2
        exact packLeaf_ends hInside hHead
  | _ =>
      rw [pack]
      · split
        · intro v r' hPack
          cases hPack
        · rename_i hRead
          rcases Reader.tookClass_of_readHead hRead with
            ⟨s, hMaybes, hHead⟩
          exact
            wrapMaybes_ends hMaybes
              (packLeaf_ends hInside hHead)
      all_goals simp

/- Packing by the next type of any reader. -/
theorem packed_of_packNext
    {conv : Conversion}
    {value : Value}
    {r r' : Reader}
    {v : Variant}
    (hInside : ∀ w ∈ value.variants, inside w)
    (hPack : conv.packNext value r = (.ok v, r')) :
    r.Packed inside 0 v r' :=
  pack_ends conv hInside 0 r v r' hPack

/-
  Packing by a signature succeeds if the signature is one
  single complete type, the value is packed by its start,
  and all of it is taken by that.
-/
theorem packAs_eq_ok_iff
    {conv : Conversion}
    {signature : String}
    {value : Value}
    {v : Variant} :
    conv.packAs signature value = .ok v ↔
      ∃ type r,
        (Reader.ofString signature conv.maxDepth).readWhole =
            .ok type ∧
          conv.packNext value
              (Reader.ofString signature conv.maxDepth) =
            (.ok v, r) ∧
          r.expectEnd = .ok () := by
  simp only [packAs, Reader.readWhole]
  rcases hRead :
      (Reader.ofString signature conv.maxDepth).readType
        false with ⟨checked, rest⟩
  rcases hPack :
      conv.packNext value
        (Reader.ofString signature conv.maxDepth) with
    ⟨result, after⟩
  simp only [bind_eq_ok_iff, pure, Except.pure,
    Except.ok.injEq]
  cases checked with
  | error e => simp
  | ok type =>
      cases hRest : rest.expectEnd with
      | error e => simp [hRest]
      | ok _ =>
          simp only [hRest]
          constructor
          · rintro ⟨_, _, _, _, _, rfl, _, hAfter, rfl⟩
            exact ⟨type, after, rfl, rfl, hAfter⟩
          · rintro ⟨_, _, _, hOk, hAfter⟩
            cases hOk
            exact
              ⟨type, rfl, (), True.intro, v, rfl, (), hAfter,
                rfl⟩

/-
  What is packed by a signature is well-formed outside of
  boxes, has the signature as its type string, and its type
  keeps the limit of the conversion.
-/
theorem packed_of_packAs
    {conv : Conversion}
    {signature : String}
    {value : Value}
    {v : Variant}
    (hInside : ∀ w ∈ value.variants, inside w)
    (hPack : conv.packAs signature value = .ok v) :
    v.WellTyped inside ∧
      v.type.chars = signature.toList ∧
      v.type.nesting ≤ conv.maxDepth := by
  rcases packAs_eq_ok_iff.mp hPack with
    ⟨_, r, _, hNext, hEnd⟩
  have hPacked := packed_of_packNext hInside hNext
  have hRest : r.rest = [] := by
    unfold Reader.expectEnd at hEnd
    split at hEnd
    · rename_i hEmpty
      exact List.isEmpty_iff.mp hEmpty
    · cases hEnd
  have hChars : signature.toList = v.type.chars ++ r.rest :=
    hPacked.took.1
  rw [hRest, List.append_nil] at hChars
  have hNested := hPacked.nesting_le
  rw [Nat.zero_add] at hNested
  exact ⟨hPacked.wellTyped, hChars.symm, hNested⟩

end Conversion

end GVariant
