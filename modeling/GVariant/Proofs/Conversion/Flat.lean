import GVariant.Conversion.Flat
import GVariant.Vardict
import GVariant.Proofs.Conversion.Packed
import GVariant.Proofs.Variant.Flat

/-
  Flat forms are packed like trees.

  A host value in flat form holds the flat forms of its
  variants. Packing looks at a variant only to put it in a
  box, so a value in flat form is packed to the flat form of
  what the value is packed to, or fails with the same error
  at the same place in the signature.

  Key definitions include:
    * `Value.flat`
    * `Step.map`

  Main declarations:
    * `FlatVariant.packBasic_outline`
    * `FlatVariant.packPlainArray_flat`
    * `FlatVariant.pack_flat`
    * `FlatVariant.packAs_flat`
    * `FlatVariant.ofEntries_flat`
-/

------------------------------------------------------------
-- Host Values
------------------------------------------------------------

namespace GVariant

namespace Value

mutual

/- The flat form of a host value. -/
def flat : Value → FlatValue
| .null => .null
| .bool value => .bool value
| .int value => .int value
| .uint value => .uint value
| .double value => .double value
| .string value => .string value
| .bytes content => .bytes content
| .array items => .array (flatAll items)
| .map entries => .map (flatEntries entries)
| .variant value => .variant value.flat

/- The flat forms of several host values. -/
def flatAll : List Value → List FlatValue
| [] => []
| item :: items => item.flat :: flatAll items

/- Entries with the flat forms of their values. -/
def flatEntries :
    List (String × Value) → List (String × FlatValue)
| [] => []
| (key, value) :: entries =>
    (key, value.flat) :: flatEntries entries

end

variable {α : Type}

theorem toBool_outline
    (value : Value) :
    value.flat.outline.toBool = value.toBool := by
  cases value <;> rfl

theorem toInteger_outline
    (value : Value)
    (kind : IntKind) :
    value.flat.outline.toInteger kind =
      value.toInteger kind := by
  cases value <;> rfl

theorem toDouble_outline
    (value : Value) :
    value.flat.outline.toDouble = value.toDouble := by
  cases value <;> rfl

theorem toString_outline
    (value : Value) :
    value.flat.outline.toString = value.toString := by
  cases value <;> rfl

theorem mismatch_outline
    (value : Value)
    (expected : String) :
    value.flat.outline.mismatch expected =
      value.mismatch expected := by
  cases value <;> rfl

/- Items are converted like those without an outline. -/
theorem mapM_outline
    (convert : Value → Except Error α)
    (hItem :
      ∀ item : Value, convert item.flat.outline = convert item)
    (items : List Value) :
    (FlatValue.outlineAll (flatAll items)).mapM convert =
      items.mapM convert := by
  induction items with
  | nil => rfl
  | cons item items ih =>
      rw [flatAll, FlatValue.outlineAll, List.mapM_cons,
        List.mapM_cons, hItem, ih]

end Value

end GVariant

------------------------------------------------------------
-- Basic Types And Whole Arrays
------------------------------------------------------------

namespace GVariant

namespace FlatVariant

open Variant (flat)

/- A basic type is packed from the outline of a value. -/
theorem packBasic_outline
    (value : Value)
    (type : BasicType) :
    packBasic value.flat.outline type =
      packBasic value type := by
  cases type <;>
    simp only [packBasic, Value.toBool_outline,
      Value.toInteger_outline, Value.toDouble_outline,
      Value.toString_outline]

theorem packBasic_flat
    (value : Value)
    (type : BasicType) :
    packBasic value type =
      (value.packBasic type).map flat := by
  cases type with
  | boolean =>
      rw [packBasic, Value.packBasic]
      cases value.toBool <;> rfl
  | int kind =>
      rw [packBasic, Value.packBasic]
      cases value.toInteger kind <;> rfl
  | double =>
      rw [packBasic, Value.packBasic]
      cases value.toDouble <;> rfl
  | text kind =>
      rw [packBasic, Value.packBasic]
      cases value.toString with
      | error e => rfl
      | ok value => exact text_flat kind value

theorem packBytes_outline
    (conv : Conversion)
    (value : Value) :
    packBytes conv value.flat.outline =
      packBytes conv value := by
  cases value with
  | array items =>
      have hItems :=
        Value.mapM_outline (fun item => item.toInteger .byte)
          (fun item => item.toInteger_outline .byte) items
      simp only [Value.flat, FlatValue.outline, packBytes,
        hItems]
  | _ => rfl

theorem packBytes_flat
    (conv : Conversion)
    (value : Value) :
    packBytes conv value = (conv.packBytes value).map flat := by
  cases value with
  | array items =>
      simp only [packBytes, Conversion.packBytes]
      cases items.mapM fun item => item.toInteger .byte <;> rfl
  | _ => rfl

theorem packStrings_outline
    (value : Value) :
    packStrings value.flat.outline = packStrings value := by
  cases value with
  | array items =>
      have hItems :=
        Value.mapM_outline Value.toString
          Value.toString_outline items
      simp only [Value.flat, FlatValue.outline, packStrings,
        Value.toItems, hItems]
  | _ => rfl

theorem packStrings_flat
    (value : Value) :
    packStrings value =
      (Conversion.packStrings value).map flat := by
  rw [packStrings, Conversion.packStrings]
  cases value.toItems "an array of strings" with
  | error e => rfl
  | ok items =>
      dsimp only
      cases items.mapM Value.toString with
      | error e => rfl
      | ok texts => exact strings_flat texts

theorem packPlainArray_outline
    (conv : Conversion)
    (element : FlatType)
    (value : Value) :
    packPlainArray conv element value.flat.outline =
      packPlainArray conv element value := by
  simp only [packPlainArray, packBytes_outline,
    packStrings_outline, Value.mismatch_outline]

/- The class of the element type says how to pack. -/
theorem packPlainArray_flat
    (conv : Conversion)
    (element : Ty)
    (value : Value) :
    packPlainArray conv element.flat value =
      (conv.packPlainArray element value).map flat := by
  cases element with
  | basic type =>
      cases type with
      | int kind =>
          cases kind with
          | byte => exact packBytes_flat conv value
          | _ => rfl
      | text kind =>
          cases kind with
          | string => exact packStrings_flat value
          | _ => rfl
      | _ => rfl
  | _ => rfl

theorem isPackedWhole_flat
    (element : Ty) :
    element.flat.isPackedWhole = element.isPackedWhole := by
  cases element with
  | basic type =>
      simp [FlatType.isPackedWhole, Ty.isPackedWhole, Ty.flat,
        Ty.cls]
  | _ =>
      simp [FlatType.isPackedWhole, Ty.isPackedWhole, Ty.flat,
        Ty.cls]

end FlatVariant

end GVariant

------------------------------------------------------------
-- Steps Of Packing
------------------------------------------------------------

namespace GVariant

/- A step with its result in another form. -/
def Step.map
    {α β : Type}
    (form : α → β)
    (step : Step α) : Step β :=
  (step.1.map form, step.2)

namespace FlatVariant

open Variant (flat)

theorem packEntryKey_outline
    (key : Value)
    (depth : Nat)
    (r : Reader) :
    packEntryKey key.flat.outline depth r =
      packEntryKey key depth r := by
  simp only [packEntryKey, packBasic_outline]

theorem packEntryKey_flat
    (key : Value)
    (depth : Nat)
    (r : Reader) :
    packEntryKey key depth r =
      Step.map flat (Conversion.packEntryKey key depth r) := by
  rw [packEntryKey, Conversion.packEntryKey]
  cases r.expectKey with
  | error e => rfl
  | ok _ =>
      rcases r.readHead false (depth + 1) with
        ⟨e | ⟨count, cls⟩, r'⟩
      · rfl
      · cases cls with
        | basic type =>
            simp only [packBasic_flat]
            rfl
        | _ => rfl

theorem packSingle_flat
    (value : Value)
    (cls : TypeClass)
    (depth : Nat)
    (r : Reader) :
    packSingle value.flat cls depth r =
      Step.map flat
        (Conversion.packFlat value cls depth r) := by
  cases cls with
  | basic type =>
      rw [packSingle, packBasic_outline, packBasic_flat]
      rfl
  | «variant» => cases value <;> rfl
  | maybe =>
      rw [packSingle, Conversion.packFlat]
      rcases r.readAt (depth + 1) with ⟨e | element, r'⟩ <;>
        rfl
  | _ =>
      simp only [packSingle, Value.mismatch_outline]
      rfl

theorem packLeaf_flat
    (conv : Conversion)
    (value : Value)
    (cls : TypeClass)
    (depth : Nat)
    (r : Reader) :
    packLeaf conv value.flat cls depth r =
      Step.map flat (conv.packLeaf value cls depth r) := by
  have hSingle := packSingle_flat value cls depth r
  cases cls with
  | array =>
      rw [packLeaf, Conversion.packLeaf]
      rcases r.readAt (depth + 1) with ⟨e | element, r'⟩
      · rfl
      · simp only [packPlainArray_outline, packPlainArray_flat]
        rfl
  | _ => exact hSingle

theorem justs_flat
    (count : Nat)
    (v : Variant) :
    justs count v.flat = (v.justs count).flat := by
  induction count with
  | zero => rfl
  | succ count ih => rw [justs, ih, just_flat, Variant.justs]

theorem wrapMaybes_flat
    {result : Step Variant}
    {flatResult : Step FlatVariant}
    (hResult : flatResult = Step.map flat result)
    (count : Nat) :
    wrapMaybes count flatResult =
      Step.map flat (Conversion.wrapMaybes count result) := by
  subst hResult
  rcases result with ⟨e | v, r⟩
  · rfl
  · exact
      congrArg (fun w => (Except.ok w, r)) (justs_flat count v)

theorem tupleOf_flat
    {result : Step (List Variant)}
    {flatResult : Step (List FlatVariant)}
    (hResult :
      flatResult = Step.map (List.map flat) result) :
    tupleOf flatResult =
      Step.map flat (Conversion.tupleOf result) := by
  subst hResult
  rcases result with ⟨e | children, r⟩
  · rfl
  · exact
      congrArg (fun w => (Except.ok w, r))
        (tuple_flat children)

theorem packEntryWith_outline
    (packValue : Reader → Step FlatVariant)
    (key : Value)
    (depth : Nat)
    (r : Reader) :
    packEntryWith packValue key.flat.outline depth r =
      packEntryWith packValue key depth r := by
  rw [packEntryWith, packEntryKey_outline, packEntryWith]

/- An entry is packed like its value is. -/
theorem packEntryWith_flat
    {packValue : Reader → Step Variant}
    {packFlat : Reader → Step FlatVariant}
    (hValue :
      ∀ r, packFlat r = Step.map flat (packValue r))
    (key : Value)
    (depth : Nat)
    (r : Reader) :
    packEntryWith packFlat key depth r =
      Step.map flat
        (Conversion.packEntryWith packValue key depth r) := by
  rw [packEntryWith, Conversion.packEntryWith,
    packEntryKey_flat]
  rcases Conversion.packEntryKey key depth r with
    ⟨e | key, r'⟩
  · rfl
  · simp only [Step.map, Except.map, hValue]
    rcases packValue r' with ⟨e | value, r''⟩
    · rfl
    · dsimp only [Except.map]
      rcases r''.closeEntry with ⟨e | _, s⟩
      · rfl
      · simp only [dictEntry_flat]
        rfl

/- An array is packed like its elements are. -/
theorem packArray_flat
    {packEach : Ty → Except Error (List Variant)}
    {packFlat : FlatType → Except Error (List FlatVariant)}
    (hEach :
      ∀ element : Ty,
        packFlat element.flat =
          (packEach element).map (List.map flat))
    (conv : Conversion)
    (value : Value)
    (depth : Nat)
    (r : Reader) :
    packArray conv value.flat packFlat depth r =
      Step.map flat
        (conv.packArray value packEach depth r) := by
  rw [packArray, Conversion.packArray]
  rcases r.readAt (depth + 1) with ⟨e | element, r'⟩
  · rfl
  · simp only [isPackedWhole_flat, packPlainArray_outline,
      packPlainArray_flat, hEach]
    cases element.isPackedWhole with
    | true => rfl
    | false =>
        simp only [Bool.false_eq_true, if_false]
        cases packEach element with
        | error e => rfl
        | ok children =>
            simp only [Except.map, array_flat]
            rfl

/- A dictionary is packed like its entries are. -/
theorem packDictionary_flat
    {packEach :
      BasicType → Ty → Except Error (List Variant)}
    {packFlat :
      TypeClass → FlatType → Except Error (List FlatVariant)}
    (hEach :
      ∀ (key : BasicType) (element : Ty),
        packFlat (.basic key) element.flat =
          (packEach key element).map (List.map flat))
    (conv : Conversion)
    (value : Value)
    (depth : Nat)
    (r : Reader) :
    packDictionary conv value.flat packFlat depth r =
      Step.map flat
        (conv.packDictionary value packEach depth r) := by
  rw [packDictionary, Conversion.packDictionary]
  rcases r.readAt (depth + 1) with ⟨e | element, r'⟩
  · rfl
  · cases element with
    | dictEntry key type =>
        have hKey :
            (Ty.dictEntry key type).flat.keyOf =
              .ok (Ty.basic key).flat := by
          rw [FlatType.keyOf, FlatType.key?_flat]
          rfl
        have hPacked := hEach key (.dictEntry key type)
        have hClass : (Ty.basic key).flat.cls = .basic key :=
          rfl
        simp only [hKey, hClass, hPacked]
        cases packEach key (.dictEntry key type) with
        | error e => rfl
        | ok children =>
            simp only [Except.map, array_flat]
            rfl
    | _ =>
        simp only [packPlainArray_outline, packPlainArray_flat]
        rfl

end FlatVariant

end GVariant

------------------------------------------------------------
-- Packing
------------------------------------------------------------

namespace GVariant

namespace FlatVariant

open Variant (flat)

/- An item is packed like the tree, at any depth and place. -/
def FlatPacks
    (conv : Conversion)
    (value : Value) : Prop :=
  ∀ depth r,
    pack conv value.flat depth r =
      Step.map flat (conv.pack value depth r)

variable {conv : Conversion}

theorem packMembers_flat
    {items : List Value}
    (hEach : ∀ item ∈ items, FlatPacks conv item)
    (depth : Nat)
    (r : Reader) :
    packMembers conv (Value.flatAll items) depth r =
      Step.map (List.map flat)
        (conv.packMembers items depth r) := by
  induction items generalizing r with
  | nil =>
      rw [Value.flatAll, packMembers, Conversion.packMembers]
      cases hNext : r.peek? with
      | none => rfl
      | some c =>
          by_cases hClose : c = ')'
          · subst hClose
            rfl
          · simp only
            rfl
  | cons item items ih =>
      rcases List.forall_mem_cons.mp hEach with
        ⟨hFirst, hOthers⟩
      rw [Value.flatAll, packMembers, Conversion.packMembers]
      cases hNext : r.peek? with
      | none => rfl
      | some c =>
          by_cases hClose : c = ')'
          · subst hClose
            rfl
          · simp only [hFirst depth r]
            rcases conv.pack item depth r with ⟨e | child, r'⟩
            · rfl
            · simp only [Step.map, Except.map, ih hOthers r']
              rcases conv.packMembers items depth r' with
                ⟨e | children, r''⟩ <;>
                rfl

theorem packElements_flat
    {items : List Value}
    (hEach : ∀ item ∈ items, FlatPacks conv item)
    (depth : Nat)
    (element : Ty) :
    packElements conv (Value.flatAll items) element.flat
        depth =
      (conv.packElements items element depth).map
        (List.map flat) := by
  induction items with
  | nil => rfl
  | cons item items ih =>
      rcases List.forall_mem_cons.mp hEach with
        ⟨hFirst, hOthers⟩
      have hStart :
          Reader.ofChars element.flat.chars conv.maxDepth =
            Reader.ofChars element.chars conv.maxDepth :=
        rfl
      rw [Value.flatAll, packElements, Conversion.packElements,
        hStart, hFirst, ih hOthers]
      simp only [Step.map]
      cases (conv.pack item depth
          (Reader.ofChars element.chars conv.maxDepth)).1 with
      | error e => rfl
      | ok child =>
          cases conv.packElements items element depth <;> rfl

theorem packEntries_flat
    {entries : List (String × Value)}
    (hEach : ∀ entry ∈ entries, FlatPacks conv entry.2)
    (depth : Nat)
    (key : BasicType)
    (element : Ty) :
    packEntries conv (Value.flatEntries entries) (.basic key)
        element.flat depth =
      (conv.packEntries entries key element depth).map
        (List.map flat) := by
  induction entries with
  | nil => rfl
  | cons entry entries ih =>
      rcases entry with ⟨name, value⟩
      rcases List.forall_mem_cons.mp hEach with
        ⟨hFirst, hOthers⟩
      have hOpen :
          element.flat.openEntry conv.maxDepth depth =
            element.openEntry conv.maxDepth depth :=
        rfl
      rw [Value.flatEntries, packEntries,
        Conversion.packEntries, parseKey, hOpen, ih hOthers]
      cases Value.parseKey name key with
      | error e => rfl
      | ok name =>
          dsimp only
          cases element.openEntry conv.maxDepth depth with
          | error e => rfl
          | ok r =>
              have hEntry :=
                packEntryWith_flat (hFirst (depth + 1)) name
                  depth r
              simp only [hEntry, Step.map]
              cases (Conversion.packEntryWith
                  (conv.pack value (depth + 1)) name depth
                  r).1 with
              | error e => rfl
              | ok child =>
                  cases conv.packEntries entries key element
                      depth <;>
                    rfl

theorem packPair_flat
    {items : List Value}
    (hEach : ∀ item ∈ items, FlatPacks conv item)
    (depth : Nat)
    (r : Reader) :
    packPair conv (Value.flatAll items) depth r =
      Step.map flat (conv.packPair items depth r) := by
  rcases items with _ | ⟨key, _ | ⟨value, _ | ⟨next, items⟩⟩⟩
  · rfl
  · rfl
  · have hValue := hEach value (by simp)
    rw [Value.flatAll, Value.flatAll, Value.flatAll, packPair,
      packEntryWith_outline,
      packEntryWith_flat (hValue (depth + 1)),
      Conversion.packPair]
  · rfl

theorem pack_array_flat
    {items : List Value}
    (hEach : ∀ item ∈ items, FlatPacks conv item) :
    FlatPacks conv (.array items) := by
  intro depth r
  rw [Value.flat, pack, Conversion.pack]
  rcases r.readHead true depth with ⟨e | ⟨count, cls⟩, r'⟩
  · rfl
  · apply wrapMaybes_flat
    have hSingle :=
      packSingle_flat (.array items) cls (depth + count) r'
    cases cls with
    | tuple =>
        exact
          tupleOf_flat
            (packMembers_flat hEach (depth + count + 1) r')
    | dictEntry => exact packPair_flat hEach (depth + count) r'
    | array =>
        have hElements :
            ∀ element : Ty,
              packElements conv (Value.flatAll items)
                  element.flat (depth + count + 1) =
                (conv.packElements items element
                    (depth + count + 1)).map
                  (List.map flat) :=
          packElements_flat hEach (depth + count + 1)
        exact
          packArray_flat hElements conv (.array items)
            (depth + count) r'
    | _ => exact hSingle

theorem pack_map_flat
    {entries : List (String × Value)}
    (hEach : ∀ entry ∈ entries, FlatPacks conv entry.2) :
    FlatPacks conv (.map entries) := by
  intro depth r
  rw [Value.flat, pack, Conversion.pack]
  rcases r.readHead true depth with ⟨e | ⟨count, cls⟩, r'⟩
  · rfl
  · apply wrapMaybes_flat
    have hSingle :=
      packSingle_flat (.map entries) cls (depth + count) r'
    cases cls with
    | array =>
        have hEntries :
            ∀ (key : BasicType) (element : Ty),
              packEntries conv (Value.flatEntries entries)
                  (.basic key) element.flat
                  (depth + count + 1) =
                (conv.packEntries entries key element
                    (depth + count + 1)).map
                  (List.map flat) :=
          packEntries_flat hEach (depth + count + 1)
        exact
          packDictionary_flat hEntries conv (.map entries)
            (depth + count) r'
    | _ => exact hSingle

/- A value that has no items is packed by the head alone. -/
theorem pack_leaf_flat
    {value : Value}
    (hFlat :
      ∀ depth r,
        pack conv value.flat depth r =
          match r.readHead true depth with
          | (.error e, r') => (.error e, r')
          | (.ok (count, cls), r') =>
              wrapMaybes count
                (packLeaf conv value.flat cls (depth + count)
                  r'))
    (hTree :
      ∀ depth r,
        conv.pack value depth r =
          match r.readHead true depth with
          | (.error e, r') => (.error e, r')
          | (.ok (count, cls), r') =>
              Conversion.wrapMaybes count
                (conv.packLeaf value cls (depth + count)
                  r')) :
    FlatPacks conv value := by
  intro depth r
  rw [hFlat, hTree]
  rcases r.readHead true depth with ⟨e | ⟨count, cls⟩, r'⟩
  · rfl
  · exact
      wrapMaybes_flat
        (packLeaf_flat conv value cls (depth + count) r') count

/-
  A flat form is packed like the tree. The induction is on
  the value, for every depth and reader.
-/
theorem pack_flat
    (conv : Conversion)
    (value : Value) :
    FlatPacks conv value := by
  induction value with
  | array items ih => exact pack_array_flat ih
  | map entries ih => exact pack_map_flat ih
  | null =>
      intro depth r
      rw [Value.flat, pack, Conversion.pack]
      rcases r.readHead false depth with
        ⟨e | ⟨count, cls⟩, r'⟩
      · rfl
      · exact packLeaf_flat conv .null cls depth r'
  | _ =>
      exact pack_leaf_flat (fun _ _ => rfl) (fun _ _ => rfl)

theorem packNext_flat
    (conv : Conversion)
    (value : Value)
    (r : Reader) :
    packNext conv value.flat r =
      Step.map flat (conv.packNext value r) :=
  pack_flat conv value 0 r

theorem packAs_flat
    (conv : Conversion)
    (signature : String)
    (value : Value) :
    packAs conv signature value.flat =
      (conv.packAs signature value).map flat := by
  rw [packAs, Conversion.packAs]
  simp only [packNext_flat, Step.map]
  rcases (Reader.ofString signature conv.maxDepth).readType
      false with ⟨e | type, rest⟩
  · rfl
  · dsimp only
    cases rest.expectEnd with
    | error e => rfl
    | ok _ =>
        rcases conv.packNext value
            (Reader.ofString signature conv.maxDepth) with
          ⟨e | v, after⟩
        · rfl
        · dsimp only
          cases after.expectEnd <;> rfl

end FlatVariant

end GVariant

------------------------------------------------------------
-- Ending A Dictionary
------------------------------------------------------------

namespace GVariant

namespace FlatVariant

open Variant (flat)

theorem boxedEntry_flat
    (entry : String × Variant) :
    boxedEntry (entry.1, entry.2.flat) =
      (Vardict.boxedEntry entry).map flat := by
  rw [boxedEntry, Vardict.boxedEntry]
  have hKey :
      string entry.1 = (Variant.string entry.1).map flat :=
    text_flat .string entry.1
  rw [hKey]
  cases Variant.string entry.1 with
  | error e => rfl
  | ok key => exact dictEntry_flat key (.boxed entry.2)

/- Entries of flat forms end like those of trees. -/
theorem ofEntries_flat
    (d : Vardict) :
    ofEntries
        (d.entries.map fun entry => (entry.1, entry.2.flat)) =
      d.toVariant.map flat := by
  have hEntries :
      (d.entries.map fun entry =>
            (entry.1, entry.2.flat)).mapM boxedEntry =
        (d.entries.mapM Vardict.boxedEntry).map
          (List.map flat) := by
    rw [List.mapM_map]
    exact mapM_map fun entry _ => boxedEntry_flat entry
  rw [ofEntries, Vardict.toVariant, hEntries]
  cases d.entries.mapM Vardict.boxedEntry with
  | error e => rfl
  | ok children => exact array_flat .vardictEntry children

end FlatVariant

end GVariant
