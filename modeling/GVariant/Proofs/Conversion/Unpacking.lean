import GVariant.Proofs.Conversion.Containers
import GVariant.Proofs.Signature.Cutoff
import GVariant.Proofs.Variant.Reachable
import GVariant.Proofs.Value.Scalar

/-
  Unpacking fails at the limit of nesting only.

  With more levels, unpacking does the same unless it was
  cut off, and with more levels than a variant is high it
  succeeds. So the limit is the only reason to fail. What a
  variant holds is found by its class: a well-formed variant
  answers every accessor that its class asks for, and the
  key of an entry always has a text. Unpacking by class and
  accessors, with all the failures that these might have,
  is therefore the same as unpacking by the tree.

  Key definitions include:
    * `Variant.height`

  Main declarations:
    * `Conversion.unpackLevels_cutOff`
    * `Conversion.exists_unpackLevels`
    * `Conversion.unpackByClass_eq_unpackLevels`
    * `Conversion.unpackLevels_ok_or_nestingError`
    * `Conversion.unpackVariant_ok_or_nestingError`
-/

------------------------------------------------------------
-- Height
------------------------------------------------------------

namespace GVariant

namespace Variant

mutual

/-
  The number of levels of values below the root of a
  variant, boxes opened.
-/
def height : Variant → Nat
| .scalar _ => 0
| .boxed child => child.height + 1
| .nothing _ => 0
| .just child => child.height + 1
| .bytes _ => 0
| .arrayOf _ children => heightAll children
| .tuple children => heightAll children
| .entry _ value => value.height + 1

/- The levels that children add to their container. -/
def heightAll : List Variant → Nat
| [] => 0
| child :: children =>
    max (child.height + 1) (heightAll children)

end

theorem heightAll_lt_iff
    (children : List Variant)
    {levels : Nat} :
    heightAll children < levels + 1 ↔
      ∀ child ∈ children, child.height < levels := by
  induction children with
  | nil => simp [heightAll]
  | cons child children ih =>
      simp only [heightAll, List.forall_mem_cons, ← ih]
      omega

/- Children are no higher than they nest if each is not. -/
theorem heightAll_le_nestingAll
    {children : List Variant}
    (hChildren :
      ∀ child ∈ children, child.height ≤ child.nesting) :
    heightAll children ≤ nestingAll children := by
  apply Nat.le_of_lt_succ
  rw [heightAll_lt_iff]
  intro child hMem
  have hNested :=
    (nestingAll_lt_iff children).mp (Nat.lt_succ_self _)
      child hMem
  exact Nat.lt_of_le_of_lt (hChildren child hMem) hNested

/- The type strings of boxes only add to the nesting. -/
theorem height_le_nesting
    (v : Variant) :
    v.height ≤ v.nesting := by
  induction v with
  | scalar value => exact Nat.le_refl 0
  | boxed child ih =>
      simp only [height, nesting]
      omega
  | nothing element => exact Nat.le_refl 0
  | just child ih => exact Nat.succ_le_succ ih
  | bytes content => exact Nat.le_refl 0
  | arrayOf element children ih =>
      exact heightAll_le_nestingAll ih
  | tuple children ih => exact heightAll_le_nestingAll ih
  | entry key value ih => exact Nat.succ_le_succ ih

end Variant

end GVariant

------------------------------------------------------------
-- Unpacking With More Levels
------------------------------------------------------------

namespace GVariant

namespace Conversion

variable {conv conv' : Conversion}
variable {deep recursive : Bool}
variable {levels levels' : Nat}
variable {unpackChild unpackMore : Variant → Except Error Value}

/- Items are unpacked up to the first that is cut off. -/
theorem unpackItems_cutOff
    {limit : Nat}
    {children : List Variant}
    (hEach :
      ∀ child ∈ children,
        CutOff limit (unpackChild child) (unpackMore child)) :
    CutOff limit (unpackItems unpackChild children)
      (unpackItems unpackMore children) := by
  unfold unpackItems
  exact
    (CutOff.mapM hEach).elim (.inl rfl) (fun _ => .inr rfl)
      fun _ => .inr rfl

/- Entries are unpacked up to the first that is cut off. -/
theorem unpackEntries_cutOff
    (hLevels : levels ≤ levels')
    {entries : List Variant}
    (hEach :
      ∀ child,
        CutOff conv.maxDepth (unpackChild child)
          (unpackMore child)) :
    CutOff conv.maxDepth
      (conv.unpackEntries levels unpackChild entries)
      (conv'.unpackEntries levels' unpackMore entries) := by
  have hEntry :
      ∀ table, ∀ entry ∈ entries,
        CutOff conv.maxDepth
          (conv.unpackEntry levels unpackChild table entry)
          (conv'.unpackEntry levels' unpackMore table
            entry) := by
    intro table entry _
    cases entry with
    | entry key value =>
        by_cases hNone : levels = 0
        · left
          simp only [unpackEntry, hNone, if_true,
            nestingError]
        · have hSome : levels' ≠ 0 := by
            omega
          simp only [unpackEntry, hNone, hSome, if_false]
          exact
            (hEach value).elim (.inl rfl)
              (fun _ => .inr rfl) fun _ => .inr rfl
    | _ => exact .inr rfl
  unfold unpackEntries
  exact
    (CutOff.foldlM hEntry []).elim (.inl rfl)
      (fun _ => .inr rfl) fun _ => .inr rfl

/-
  With more levels, unpacking by the same codec does the
  same, unless it is cut off. The induction is on the levels
  of the smaller limit.
-/
theorem unpackLevels_cutOff
    (hCodec : conv'.codec = conv.codec)
    (hLevels : levels ≤ levels')
    (v : Variant) :
    CutOff conv.maxDepth
      (conv.unpackLevels deep recursive levels v)
      (conv'.unpackLevels deep recursive levels' v) := by
  induction levels generalizing levels' v with
  | zero => exact .inl rfl
  | succ levels ih =>
      cases levels' with
      | zero => cases hLevels
      | succ levels' =>
          have hLess := Nat.le_of_succ_le_succ hLevels
          have hChild :
              ∀ child,
                CutOff conv.maxDepth
                  (if deep then
                    conv.unpackLevels deep recursive levels
                      child
                  else
                    .ok (.variant child))
                  (if deep then
                    conv'.unpackLevels deep recursive levels'
                      child
                  else
                    .ok (.variant child)) := by
            intro child
            split
            · exact ih hLess child
            · exact .refl _ _
          cases v with
          | scalar value => exact .refl _ _
          | boxed child =>
              simp only [unpackLevels]
              split
              · exact ih hLess child
              · exact .refl _ _
          | nothing element => exact .refl _ _
          | just child => exact hChild child
          | bytes content =>
              right
              simp only [unpackLevels, hCodec]
          | arrayOf element children =>
              cases element with
              | dictEntry key type =>
                  exact unpackEntries_cutOff hLess hChild
              | _ =>
                  exact
                    unpackItems_cutOff fun child _ =>
                      hChild child
          | tuple children =>
              exact
                unpackItems_cutOff fun child _ => hChild child
          | entry key value =>
              exact
                unpackItems_cutOff fun child _ => hChild child

/- What is unpacked with fewer levels is within the limit. -/
theorem unpackVariant_of_unpackLevels
    (hLevels : levels ≤ conv.maxDepth + 1)
    {v : Variant}
    {value : Value}
    (hUnpack :
      conv.unpackLevels deep recursive levels v =
        .ok value) :
    conv.unpackVariant v deep recursive = .ok value :=
  (unpackLevels_cutOff rfl hLevels v).eq_of_ok hUnpack

end Conversion

end GVariant

------------------------------------------------------------
-- Enough Levels
------------------------------------------------------------

namespace GVariant

namespace Conversion

variable {conv : Conversion}
variable {deep recursive : Bool}
variable {unpackChild : Variant → Except Error Value}

/- Items are unpacked if each of them is. -/
theorem exists_unpackItems
    {children : List Variant}
    (hChildren :
      ∀ child ∈ children,
        ∃ value, unpackChild child = .ok value) :
    ∃ value, unpackItems unpackChild children = .ok value := by
  rcases exists_forall₂_of_forall hChildren with
    ⟨items, hItems⟩
  exact
    ⟨.array items,
      unpackItems_eq_ok_iff.mpr ⟨items, hItems, rfl⟩⟩

/-
  Entries are unpacked if their values are, and a level is
  left for their keys.
-/
theorem exists_unpackEntries
    {levels : Nat}
    {entries : List Variant}
    (hEntries :
      ∀ entry ∈ entries,
        ∃ key value,
          entry = .entry key value ∧
            levels ≠ 0 ∧
            ∃ unpacked, unpackChild value = .ok unpacked) :
    ∃ value,
      conv.unpackEntries levels unpackChild entries =
        .ok value := by
  have hEach :
      ∀ entry ∈ entries,
        ∃ pair, UnpacksEntry levels unpackChild entry pair := by
    intro entry hMem
    rcases hEntries entry hMem with
      ⟨key, value, rfl, hLevels, unpacked, hValue⟩
    exact
      ⟨(key.keyText, unpacked), key, value, rfl, hLevels, rfl,
        hValue⟩
  rcases exists_forall₂_of_forall hEach with ⟨pairs, hPairs⟩
  exact
    ⟨.map (Entries.ofList pairs),
      unpackEntries_eq_ok_iff.mpr ⟨pairs, hPairs, rfl⟩⟩

/-
  A well-formed variant is unpacked with more levels than it
  is high, in every mode. The induction is on the levels, so
  that it also covers the values of entries, which a
  dictionary unpacks directly.
-/
theorem exists_unpackLevels
    {v : Variant}
    (hWell : v.WellFormed)
    {levels : Nat}
    (hLevels : v.height < levels) :
    ∃ value,
      conv.unpackLevels deep recursive levels v =
        .ok value := by
  induction levels generalizing v with
  | zero => cases hLevels
  | succ levels ih =>
      have hChild :
          ∀ child : Variant,
            child.WellFormed →
              child.height < levels →
                ∃ value,
                  (if deep then
                    conv.unpackLevels deep recursive levels
                      child
                  else
                    .ok (.variant child)) =
                    (.ok value : Except Error Value) := by
        intro child hWell hNested
        split
        · exact ih hWell hNested
        · exact ⟨.variant child, rfl⟩
      cases v with
      | scalar value => exact ⟨value.toValue, rfl⟩
      | boxed child =>
          simp only [unpackLevels]
          split
          · exact ih hWell (Nat.lt_of_succ_lt_succ hLevels)
          · exact ⟨.variant child, rfl⟩
      | nothing element => exact ⟨.null, rfl⟩
      | just child =>
          exact
            hChild child hWell (Nat.lt_of_succ_lt_succ hLevels)
      | bytes content =>
          exact ⟨conv.codec.valueOfBytes content, rfl⟩
      | arrayOf element children =>
          rcases hWell with ⟨_, hTypes, hChildren⟩
          rw [Variant.wellFormedAll_iff] at hChildren
          have hNested :=
            (Variant.heightAll_lt_iff children).mp hLevels
          cases element with
          | dictEntry key type =>
              apply exists_unpackEntries
              intro entry hMem
              have hType := hTypes entry hMem
              have hEntry := hNested entry hMem
              cases entry with
              | entry name value =>
                  have hValue : value.height < levels :=
                    Nat.lt_of_succ_lt hEntry
                  exact
                    ⟨name, value, rfl,
                      Nat.ne_zero_of_lt hValue,
                      hChild value (hChildren _ hMem).2
                        hValue⟩
              | _ => cases hType
          | _ =>
              apply exists_unpackItems
              intro child hMem
              exact
                hChild child (hChildren child hMem)
                  (hNested child hMem)
      | tuple children =>
          have hChildren :=
            (Variant.wellFormedAll_iff children).mp hWell
          have hNested :=
            (Variant.heightAll_lt_iff children).mp hLevels
          apply exists_unpackItems
          intro child hMem
          exact
            hChild child (hChildren child hMem)
              (hNested child hMem)
      | entry key value =>
          have hNested : value.height < levels :=
            Nat.lt_of_succ_lt_succ hLevels
          apply exists_unpackItems
          simp only [List.forall_mem_cons, List.not_mem_nil,
            false_implies, implies_true, and_true]
          exact
            ⟨hChild (.scalar key) hWell.1
                (Nat.zero_lt_of_lt hNested),
              hChild value hWell.2 hNested⟩

end Conversion

end GVariant

------------------------------------------------------------
-- Accessors Answer
------------------------------------------------------------

namespace GVariant

namespace Scalar

/- The value of a key has a text, which is that of the key. -/
theorem toKeyText_toValue
    (s : Scalar) :
    s.toValue.toKeyText = .ok s.keyText := by
  cases s with
  | boolean value => rfl
  | int kind word =>
      have hRange := kind.inRange_value word
      by_cases hKind : kind = .uint64
      · subst hKind
        have hNat :
            IntKind.value .uint64 word = word.toNat := rfl
        simp only [toValue, Value.ofNat]
        split
        · rename_i hSmall
          have hSame := IntKind.toInt_ofInt hSmall
          rw [Int64.ofInt_eq_ofNat] at hSame
          simp only [Value.toKeyText, hSame, keyText, hNat]
        · have hFits : word.toNat < UInt64.size := word.isLt
          simp only [Value.toKeyText, keyText, hNat,
            UInt64.toNat_ofNat_of_lt' hFits]
          rfl
      · have hSigned :=
          IntKind.inRange_int64_of_ne hKind hRange
        rw [toValue_int hKind, Value.ofInt]
        simp only [Value.toKeyText, keyText,
          IntKind.toInt_ofInt hSigned]
  | double value => rfl
  | text kind value => rfl

end Scalar

namespace Conversion

/- A scalar answers the accessor of its basic type. -/
theorem unpackBasic_scalar
    (s : Scalar) :
    unpackBasic s.type (.scalar s) = .ok s.toValue := by
  cases s with
  | int kind word => cases kind <;> rfl
  | _ => rfl

end Conversion

end GVariant

------------------------------------------------------------
-- No Accessor Fails
------------------------------------------------------------

namespace GVariant

namespace Conversion

variable {conv : Conversion}
variable {recursive : Bool}
variable {levels : Nat}
variable {unpackChild unpackSame : Variant → Except Error Value}

/- Items are unpacked alike if each of them is. -/
theorem unpackItems_congr
    {children : List Variant}
    (hEach :
      ∀ child ∈ children, unpackChild child = unpackSame child) :
    unpackItems unpackChild children =
      unpackItems unpackSame children := by
  have hMap :
      children.mapM unpackChild = children.mapM unpackSame := by
    induction children with
    | nil => rfl
    | cons child children ih =>
        rcases List.forall_mem_cons.mp hEach with
          ⟨hFirst, hOthers⟩
        rw [List.mapM_cons, List.mapM_cons, hFirst, ih hOthers]
  rw [unpackItems, unpackItems, hMap]

/-
  An entry is added to a map alike if its value is unpacked
  alike. Its key takes a level and always has a text.
-/
theorem unpackPair_entry
    {key : Scalar}
    {value : Variant}
    (hValue : unpackChild value = unpackSame value)
    (table : List (String × Value)) :
    unpackPair (conv.unpackByClass recursive levels true)
        unpackChild table (.entry key value) =
      conv.unpackEntry levels unpackSame table
        (.entry key value) := by
  cases levels with
  | zero => rfl
  | succ levels =>
      have hKey :
          conv.unpackByClass recursive (levels + 1) true
              (.scalar key) =
            .ok key.toValue :=
        unpackBasic_scalar key
      rw [unpackPair, unpackEntry, if_neg (Nat.succ_ne_zero _)]
      simp only [Variant.held, Variant.entry?, bind,
        Except.bind, hKey, Scalar.toKeyText_toValue, hValue]
      cases unpackSame value <;> rfl

/- A dictionary is unpacked alike if its values are. -/
theorem foldlM_unpackPair
    {key : BasicType}
    {type : Ty}
    {entries : List Variant}
    (hTypes :
      ∀ entry ∈ entries, entry.type = .dictEntry key type)
    (hValues :
      ∀ name value,
        .entry name value ∈ entries →
          unpackChild value = unpackSame value)
    (recursive : Bool)
    (table : List (String × Value)) :
    entries.foldlM
        (unpackPair (conv.unpackByClass recursive levels true)
          unpackChild)
        table =
      entries.foldlM (conv.unpackEntry levels unpackSame)
        table := by
  induction entries generalizing table with
  | nil => rfl
  | cons entry entries ih =>
      rcases List.forall_mem_cons.mp hTypes with
        ⟨hType, hOthers⟩
      cases entry with
      | entry name value =>
          have hValue := hValues name value List.mem_cons_self
          have hRest :
              ∀ name value,
                .entry name value ∈ entries →
                  unpackChild value = unpackSame value :=
            fun name value hMem =>
              hValues name value (List.mem_cons_of_mem _ hMem)
          rw [List.foldlM_cons, List.foldlM_cons,
            unpackPair_entry hValue]
          exact
            congrArg _
              (funext fun table => ih hOthers hRest table)
      | _ => cases hType

/- The two ways to make a map of entries are the same. -/
theorem unpackEntries_eq_bind
    (entries : List Variant) :
    conv.unpackEntries levels unpackSame entries =
      (do
        let table ←
          entries.foldlM (conv.unpackEntry levels unpackSame)
            []
        return .map table) := by
  rw [unpackEntries]
  cases entries.foldlM (conv.unpackEntry levels unpackSame) []
    <;> rfl

/-
  A well-formed variant has what the accessors of its class
  look for, at every level. The induction is on the levels.
-/
theorem unpackByClass_eq_unpackLevels
    {v : Variant}
    (hWell : v.WellFormed)
    (levels : Nat)
    (deep : Bool) :
    conv.unpackByClass recursive levels deep v =
      conv.unpackLevels deep recursive levels v := by
  induction levels generalizing v deep with
  | zero => rfl
  | succ levels ih =>
      have hChild :
          ∀ child : Variant,
            child.WellFormed →
              (if deep then
                conv.unpackByClass recursive levels deep child
              else
                .ok (.variant child)) =
                if deep then
                  conv.unpackLevels deep recursive levels
                    child
                else
                  .ok (.variant child) := by
        intro child hWell
        rw [ih hWell]
      cases v with
      | scalar value =>
          exact unpackBasic_scalar value
      | boxed child =>
          have hInner := ih (v := child) hWell deep
          simp only [unpackByClass, unpackLevels, ← hInner]
          rfl
      | nothing element => rfl
      | just child => exact hChild child hWell
      | bytes content => rfl
      | arrayOf element children =>
          rcases hWell with ⟨hByte, hTypes, hChildren⟩
          rw [Variant.wellFormedAll_iff] at hChildren
          have hItems :=
            unpackItems_congr fun child hMem =>
              hChild child (hChildren child hMem)
          cases element with
          | dictEntry key type =>
              rw [unpackLevels, unpackEntries_eq_bind, ←
                foldlM_unpackPair hTypes
                  (fun _ value hMem =>
                    hChild value (hChildren _ hMem).2)
                  recursive]
              rfl
          | basic type =>
              cases type with
              | int kind =>
                  cases kind with
                  | byte => exact absurd rfl hByte
                  | _ => exact hItems
              | _ => exact hItems
          | _ => exact hItems
      | tuple children =>
          have hChildren :=
            (Variant.wellFormedAll_iff children).mp hWell
          exact
            unpackItems_congr fun child hMem =>
              hChild child (hChildren child hMem)
      | entry key value =>
          apply unpackItems_congr
          simp only [List.forall_mem_cons, List.not_mem_nil,
            false_implies, implies_true, and_true]
          exact
            ⟨hChild (.scalar key) hWell.1,
              hChild value hWell.2⟩

end Conversion

end GVariant

------------------------------------------------------------
-- Reachable Variants
------------------------------------------------------------

namespace GVariant

namespace Conversion

/-
  The limit of nesting is the only reason to fail: with
  levels to spare the same unpacking succeeds.
-/
theorem unpackLevels_ok_or_nestingError
    {conv : Conversion}
    {deep recursive : Bool}
    {v : Variant}
    (hWell : v.WellFormed)
    (levels : Nat) :
    (∃ value,
        conv.unpackLevels deep recursive levels v =
          .ok value) ∨
      conv.unpackLevels deep recursive levels v =
        .error conv.nestingError := by
  let enough := max levels (v.height + 1)
  have hEnough :
      ∃ value,
        conv.unpackLevels deep recursive enough v =
          .ok value :=
    exists_unpackLevels hWell (Nat.le_max_right levels _)
  have hMore :
      CutOff conv.maxDepth
        (conv.unpackLevels deep recursive levels v)
        (conv.unpackLevels deep recursive enough v) :=
    unpackLevels_cutOff rfl (Nat.le_max_left levels _) v
  rcases hEnough with ⟨value, hValue⟩
  rcases hMore with hCut | hSame
  · exact .inr hCut
  · exact .inl ⟨value, hSame.symm.trans hValue⟩

/-
  Unpacking a variant that can be obtained gives a value, or
  goes deeper than the limit. It gives a value within the
  limit, and no accessor that it relies on, nor the text of
  a key, is ever missing.
-/
theorem unpackVariant_ok_or_nestingError
    (conv : Conversion)
    (deep recursive : Bool)
    {v : Variant}
    (hReach : v.Reachable) :
    ((∃ value,
        conv.unpackVariant v deep recursive = .ok value) ∨
      conv.unpackVariant v deep recursive =
        .error (.maxNestingExceeded conv.maxDepth)) ∧
      (v.height ≤ conv.maxDepth →
        ∃ value,
          conv.unpackVariant v deep recursive = .ok value) ∧
        conv.unpackByClass recursive (conv.maxDepth + 1) deep
            v =
          conv.unpackVariant v deep recursive := by
  have hWell := hReach.wellFormed
  refine ⟨unpackLevels_ok_or_nestingError hWell _, ?_, ?_⟩
  · intro hHeight
    exact
      exists_unpackLevels hWell (Nat.lt_succ_of_le hHeight)
  · exact unpackByClass_eq_unpackLevels hWell _ deep

/- A dictionary with a number as its key and a full box. -/
def numberedBox : Variant :=
  .arrayOf (.dictEntry (.int .uint64) .variant)
    [.entry (.int .uint64 7)
      (.boxed (.just (Variant.byte 5)))]

/-
  It is four levels high. Unpacking takes three of them, as
  it goes on from the dictionary to the values.
-/
theorem unpackVariant_numberedBox :
    numberedBox.Reachable ∧
      (∃ value,
        ({ maxDepth := 4 } : Conversion).unpackVariant
            numberedBox true true =
          .ok value) ∧
        ({ maxDepth := 2 } : Conversion).unpackVariant
            numberedBox true true =
          .error (.maxNestingExceeded 2) := by
  have hDecode :
      Variant.decode numberedBox.type
          (numberedBox.encode .little) .little 64 =
        .ok numberedBox := by
    rfl
  have hReach : numberedBox.Reachable := .decode hDecode
  refine ⟨hReach, ?_, ?_⟩
  · exact
      (unpackVariant_ok_or_nestingError { maxDepth := 4 } true
        true hReach).2.1 (by decide)
  · rcases
        (unpackVariant_ok_or_nestingError { maxDepth := 2 }
          true true hReach).1 with
      ⟨value, hValue⟩ | hNesting
    · cases hValue
    · exact hNesting

end Conversion

end GVariant
