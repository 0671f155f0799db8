import GVariant.Variant.Access
import GVariant.Proofs.Signature.Reading
import Mathlib.Data.List.Forall2

/-
  What it means that a variant agrees with its type, and the
  variants that the constructors build.

  A variant is well-formed if every text in it is of its
  kind, every array has elements of its element type only,
  and bytes are kept in one buffer and nothing else is. All
  other agreement between a value and its type is part of
  the data: the type of a variant is computed from it.

  Key definitions include:
    * `TextKind.Accepts`
    * `Scalar.Valid`
    * `Variant.WellFormed`
    * `Variant.WellTyped`
    * `Variant.Constructs`
    * `Variant.Built`

  Main declarations:
    * `bind_eq_ok_iff`
    * `mapM_cons_eq_ok_iff`
    * `mapM_eq_ok_iff_forall₂`
    * `exists_map_eq`
    * `exists_of_forall₂_left`
    * `forall₂_comp_iff`
    * `Variant.induction`
    * `Variant.induction_values`
    * `Variant.text_eq_ok_iff`
    * `Variant.array_eq_ok_iff`
    * `Variant.wellFormed_of_constructs`
    * `Variant.wellFormed_iff_built`
-/

------------------------------------------------------------
-- Results And Lists Of Them
------------------------------------------------------------

namespace GVariant

/- Two steps have a result if both of them have. -/
theorem bind_eq_ok_iff
    {α β : Type}
    {result : Except Error α}
    {next : α → Except Error β}
    {b : β} :
    (result >>= next) = .ok b ↔
      ∃ a, result = .ok a ∧ next a = .ok b := by
  cases result with
  | error e => simp [bind, Except.bind]
  | ok a => simp [bind, Except.bind]

/- A list is mapped if its head and its tail are. -/
theorem mapM_cons_eq_ok_iff
    {α β : Type}
    {f : α → Except Error β}
    {head : α}
    {tail : List α}
    {results : List β} :
    (head :: tail).mapM f = .ok results ↔
      ∃ first rest,
        f head = .ok first ∧
          tail.mapM f = .ok rest ∧
          results = first :: rest := by
  simp only [List.mapM_cons, bind_eq_ok_iff, pure,
    Except.pure, Except.ok.injEq, exists_and_left,
    @eq_comm (List β) results]

/- A list is mapped to the results of its items, in order. -/
theorem mapM_eq_ok_iff_forall₂
    {α β : Type}
    {f : α → Except Error β}
    {items : List α}
    {results : List β} :
    items.mapM f = .ok results ↔
      List.Forall₂ (fun item result => f item = .ok result)
        items results := by
  induction items generalizing results with
  | nil =>
      rw [List.forall₂_nil_left_iff]
      constructor
      · intro hMap
        cases hMap
        rfl
      · rintro rfl
        rfl
  | cons item items ih =>
      rw [mapM_cons_eq_ok_iff, List.forall₂_cons_left_iff]
      simp only [ih, exists_and_left]

/- A list is mapped by the results of its items. -/
theorem mapM_eq_ok_map
    {α β : Type}
    {f : α → Except Error β}
    {g : α → β}
    {items : List α}
    (hItems : ∀ item ∈ items, f item = .ok (g item)) :
    items.mapM f = .ok (items.map g) := by
  induction items with
  | nil => rfl
  | cons item items ih =>
      rcases List.forall_mem_cons.mp hItems with
        ⟨hFirst, hOthers⟩
      exact
        mapM_cons_eq_ok_iff.mpr
          ⟨g item, items.map g, hFirst, ih hOthers, rfl⟩

/-
  A list is mapped into another form of the results if each
  of its items is.
-/
theorem mapM_map
    {α β γ : Type}
    {f : α → Except Error β}
    {g : α → Except Error γ}
    {form : β → γ}
    {items : List α}
    (hItems : ∀ item ∈ items, g item = (f item).map form) :
    items.mapM g = (items.mapM f).map (List.map form) := by
  induction items with
  | nil => rfl
  | cons item items ih =>
      rcases List.forall_mem_cons.mp hItems with
        ⟨hFirst, hOthers⟩
      rw [List.mapM_cons, List.mapM_cons, hFirst, ih hOthers]
      cases f item with
      | error e => rfl
      | ok first => cases items.mapM f <;> rfl

end GVariant

------------------------------------------------------------
-- Lists Of Related Items
------------------------------------------------------------

namespace GVariant

variable {α β γ : Type}
variable {relation : α → β → Prop}
variable {items : List α}
variable {results : List β}

/- Items have related results if each of them has one. -/
theorem exists_forall₂_of_forall
    (hItems :
      ∀ item ∈ items, ∃ result, relation item result) :
    ∃ results, List.Forall₂ relation items results := by
  induction items with
  | nil => exact ⟨[], .nil⟩
  | cons item items ih =>
      rcases List.forall_mem_cons.mp hItems with
        ⟨⟨first, hFirst⟩, hOthers⟩
      rcases ih hOthers with ⟨rest, hRest⟩
      exact ⟨first :: rest, .cons hFirst hRest⟩

/- What is the image of each is the image of a list. -/
theorem exists_map_eq
    {f : α → β}
    {good : α → Prop}
    (hResults :
      ∀ result ∈ results, ∃ item, good item ∧ f item = result) :
    ∃ items : List α,
      (∀ item ∈ items, good item) ∧ items.map f = results := by
  induction results with
  | nil => exact ⟨[], by simp, rfl⟩
  | cons result results ih =>
      rcases List.forall_mem_cons.mp hResults with
        ⟨⟨item, hGood, rfl⟩, hOthers⟩
      rcases ih hOthers with ⟨items, hItems, rfl⟩
      exact
        ⟨item :: items,
          List.forall_mem_cons.mpr ⟨hGood, hItems⟩, rfl⟩

/- An item is related to one of the results. -/
theorem exists_of_forall₂_left
    (hAll : List.Forall₂ relation items results)
    {item : α}
    (hMem : item ∈ items) :
    ∃ result ∈ results, relation item result := by
  induction hAll with
  | nil => cases hMem
  | cons hHead _ ih =>
      rcases List.mem_cons.mp hMem with rfl | hTail
      · exact ⟨_, List.mem_cons_self, hHead⟩
      · rcases ih hTail with ⟨result, hResult, hRelated⟩
        exact
          ⟨result, List.mem_cons_of_mem _ hResult, hRelated⟩

/- A result is what one of the items is related to. -/
theorem exists_of_forall₂_right
    (hAll : List.Forall₂ relation items results)
    {result : β}
    (hMem : result ∈ results) :
    ∃ item ∈ items, relation item result :=
  exists_of_forall₂_left hAll.flip hMem

/- Items are related in two steps if the lists are. -/
theorem forall₂_comp_iff
    {first : α → γ → Prop}
    {second : γ → β → Prop} :
    List.Forall₂
        (fun item result =>
          ∃ middle, first item middle ∧ second middle result)
        items results ↔
      ∃ middles,
        List.Forall₂ first items middles ∧
          List.Forall₂ second middles results := by
  constructor
  · intro hAll
    induction hAll with
    | nil => exact ⟨[], .nil, .nil⟩
    | cons hHead _ ih =>
        rcases hHead with ⟨middle, hFirst, hSecond⟩
        rcases ih with ⟨middles, hFirsts, hSeconds⟩
        exact
          ⟨middle :: middles, .cons hFirst hFirsts,
            .cons hSecond hSeconds⟩
  · rintro ⟨middles, hFirsts, hSeconds⟩
    induction hFirsts generalizing results with
    | nil =>
        cases hSeconds
        exact .nil
    | cons hFirst _ ih =>
        cases hSeconds with
        | cons hSecond hSeconds =>
            exact .cons ⟨_, hFirst, hSecond⟩ (ih hSeconds)

end GVariant

------------------------------------------------------------
-- Valid Scalars
------------------------------------------------------------

namespace GVariant

/- The texts that a kind admits. -/
def TextKind.Accepts : TextKind → String → Prop
| .string, text => '\x00' ∉ text.toList
| .objectPath, text => isObjectPath text = true
| .signature, text => isSignature text = true

instance (kind : TextKind) (text : String) :
    Decidable (kind.Accepts text) := by
  cases kind <;> unfold TextKind.Accepts <;> infer_instance

/- A scalar whose text, if it has one, is of its kind. -/
def Scalar.Valid : Scalar → Prop
| .text kind value => kind.Accepts value
| _ => True

instance : DecidablePred Scalar.Valid := by
  intro value
  cases value <;> unfold Scalar.Valid <;> infer_instance

namespace Variant

/- A text is made exactly if its kind admits it. -/
theorem text_eq_ok_iff
    {kind : TextKind}
    {value : String}
    {v : Variant} :
    text kind value = .ok v ↔
      kind.Accepts value ∧
        v = .scalar (.text kind value) := by
  cases kind with
  | string =>
      by_cases hNul : '\x00' ∈ value.toList
      · simp [text, string, TextKind.Accepts, hNul]
      · simp [text, string, TextKind.Accepts, hNul, eq_comm]
  | objectPath =>
      cases hPath : isObjectPath value
      · simp [text, objectPath, TextKind.Accepts, hPath]
      · simp [text, objectPath, TextKind.Accepts, hPath,
          eq_comm]
  | signature =>
      cases hSignature : isSignature value
      · simp [text, signature, TextKind.Accepts, hSignature]
      · simp [text, signature, TextKind.Accepts, hSignature,
          eq_comm]

end Variant

end GVariant

------------------------------------------------------------
-- Induction
------------------------------------------------------------

namespace GVariant

namespace Variant

/-
  Induction over the tree of a variant, with a hypothesis
  for every variant in a list of children.
-/
@[induction_eliminator]
theorem induction
    {motive : Variant → Prop}
    (scalar : ∀ value, motive (.scalar value))
    (boxed : ∀ child, motive child → motive (.boxed child))
    (nothing : ∀ element, motive (.nothing element))
    (just : ∀ child, motive child → motive (.just child))
    (bytes : ∀ content, motive (.bytes content))
    (arrayOf :
      ∀ element children,
        (∀ child ∈ children, motive child) →
          motive (.arrayOf element children))
    (tuple :
      ∀ children,
        (∀ child ∈ children, motive child) →
          motive (.tuple children))
    (entry :
      ∀ key value, motive value → motive (.entry key value))
    (v : Variant) :
    motive v := by
  refine
    @Variant.rec motive
      (fun children => ∀ child ∈ children, motive child)
      scalar boxed nothing just bytes arrayOf tuple entry
      ?_ ?_ v
  · simp
  · intro child children hChild hChildren
    exact List.forall_mem_cons.mpr ⟨hChild, hChildren⟩

/-
  Induction over the tree of a variant, with a hypothesis
  for the values of the entries in an array, too. This is
  how dictionaries are taken apart.
-/
theorem induction_values
    {motive : Variant → Prop}
    (scalar : ∀ value, motive (.scalar value))
    (boxed : ∀ child, motive child → motive (.boxed child))
    (nothing : ∀ element, motive (.nothing element))
    (just : ∀ child, motive child → motive (.just child))
    (bytes : ∀ content, motive (.bytes content))
    (arrayOf :
      ∀ element children,
        (∀ child ∈ children, motive child) →
          (∀ key value,
            .entry key value ∈ children → motive value) →
            motive (.arrayOf element children))
    (tuple :
      ∀ children,
        (∀ child ∈ children, motive child) →
          motive (.tuple children))
    (entry :
      ∀ key value, motive value → motive (.entry key value))
    (v : Variant) :
    motive v := by
  suffices hBoth :
      motive v ∧
        ∀ key value, v = .entry key value → motive value from
    hBoth.1
  induction v with
  | scalar value => exact ⟨scalar value, by simp⟩
  | boxed child ih => exact ⟨boxed child ih.1, by simp⟩
  | nothing element => exact ⟨nothing element, by simp⟩
  | just child ih => exact ⟨just child ih.1, by simp⟩
  | bytes content => exact ⟨bytes content, by simp⟩
  | arrayOf element children ih =>
      refine ⟨arrayOf element children ?_ ?_, by simp⟩
      · intro child hMem
        exact (ih child hMem).1
      · intro key value hMem
        exact (ih _ hMem).2 key value rfl
  | tuple children ih =>
      refine ⟨tuple children ?_, by simp⟩
      intro child hMem
      exact (ih child hMem).1
  | entry key value ih =>
      refine ⟨entry key value ih.1, ?_⟩
      intro name content hEntry
      cases hEntry
      exact ih.1

end Variant

end GVariant

------------------------------------------------------------
-- Well-Formed Variants
------------------------------------------------------------

namespace GVariant

namespace Variant

mutual

/- Every node of a variant agrees with its type. -/
def WellFormed : Variant → Prop
| .scalar value => value.Valid
| .boxed child => child.WellFormed
| .nothing _ => True
| .just child => child.WellFormed
| .bytes _ => True
| .arrayOf element children =>
    element ≠ .byte ∧
      (∀ child ∈ children, child.type = element) ∧
      WellFormedAll children
| .tuple children => WellFormedAll children
| .entry key value => key.Valid ∧ value.WellFormed

/- Every variant of a list is well-formed. -/
def WellFormedAll : List Variant → Prop
| [] => True
| child :: children =>
    child.WellFormed ∧ WellFormedAll children

end

theorem wellFormedAll_iff
    (children : List Variant) :
    WellFormedAll children ↔
      ∀ child ∈ children, child.WellFormed := by
  induction children with
  | nil => simp [WellFormedAll]
  | cons child children ih => simp [WellFormedAll, ih]

mutual

/-
  A variant that is well-formed outside of its boxes. What
  is in a box has a property that is given.
-/
def WellTyped (inside : Variant → Prop) : Variant → Prop
| .scalar value => value.Valid
| .boxed child => inside child
| .nothing _ => True
| .just child => child.WellTyped inside
| .bytes _ => True
| .arrayOf element children =>
    element ≠ .byte ∧
      (∀ child ∈ children, child.type = element) ∧
      WellTypedAll inside children
| .tuple children => WellTypedAll inside children
| .entry key value => key.Valid ∧ value.WellTyped inside

/- Every variant of a list is well-formed outside of boxes. -/
def WellTypedAll
    (inside : Variant → Prop) :
    List Variant → Prop
| [] => True
| child :: children =>
    child.WellTyped inside ∧ WellTypedAll inside children

end

theorem wellTypedAll_iff
    (inside : Variant → Prop)
    (children : List Variant) :
    WellTypedAll inside children ↔
      ∀ child ∈ children, child.WellTyped inside := by
  induction children with
  | nil => simp [WellTypedAll]
  | cons child children ih => simp [WellTypedAll, ih]

/- A well-formed variant has well-formed boxes. -/
theorem wellFormed_iff_wellTyped
    (v : Variant) :
    v.WellFormed ↔ v.WellTyped WellFormed := by
  induction v with
  | scalar value => rfl
  | boxed child _ => rfl
  | nothing element => rfl
  | just child ih => exact ih
  | bytes content => rfl
  | arrayOf element children ih =>
      simp only [WellFormed, WellTyped, wellFormedAll_iff,
        wellTypedAll_iff]
      have hAll := forall₂_congr ih
      rw [hAll]
  | tuple children ih =>
      simp only [WellFormed, WellTyped, wellFormedAll_iff,
        wellTypedAll_iff]
      exact forall₂_congr ih
  | entry key value ih =>
      simp only [WellFormed, WellTyped, ih]

/- Children of a well-formed variant are well-formed. -/
theorem WellFormed.of_mem_children
    {v child : Variant}
    (hWell : v.WellFormed)
    (hMem : child ∈ v.children) :
    child.WellFormed := by
  cases v with
  | scalar value => simp [children] at hMem
  | boxed inner =>
      have hChild : child = inner := by
        simpa [children] using hMem
      exact hChild ▸ hWell
  | nothing element => simp [children] at hMem
  | just inner =>
      have hChild : child = inner := by
        simpa [children] using hMem
      exact hChild ▸ hWell
  | bytes content =>
      rcases List.mem_map.mp hMem with ⟨byte, _, rfl⟩
      exact True.intro
  | arrayOf element inner =>
      exact (wellFormedAll_iff inner).mp hWell.2.2 child hMem
  | tuple inner =>
      exact (wellFormedAll_iff inner).mp hWell child hMem
  | entry key value =>
      simp only [children, List.mem_cons, List.not_mem_nil,
        or_false] at hMem
      rcases hMem with rfl | rfl
      · exact hWell.1
      · exact hWell.2

/- Arrays and maybes have an element type. -/
theorem exists_element
    {v : Variant}
    (hClass : v.cls = .array ∨ v.cls = .maybe) :
    ∃ element, v.type.element? = some element := by
  unfold cls at hClass
  cases hType : v.type with
  | array element => exact ⟨element, rfl⟩
  | maybe element => exact ⟨element, rfl⟩
  | _ => simp [hType, Ty.cls] at hClass

/- Members of a container have the element type. -/
theorem WellFormed.type_of_mem_children
    {v child : Variant}
    {element : Ty}
    (hWell : v.WellFormed)
    (hElement : v.type.element? = some element)
    (hMem : child ∈ v.children) :
    child.type = element := by
  cases v with
  | just inner =>
      cases hElement
      have hChild : child = inner := by
        simpa [children] using hMem
      rw [hChild]
  | nothing inner => simp [children] at hMem
  | bytes content =>
      cases hElement
      rcases List.mem_map.mp hMem with ⟨_, _, rfl⟩
      rfl
  | arrayOf inner children =>
      cases hElement
      exact hWell.2.1 child hMem
  | _ => cases hElement

/- Members of tuples and of entries have the item types. -/
theorem map_type_children
    {v : Variant}
    (hClass : v.cls = .tuple ∨ v.cls = .dictEntry) :
    v.children.map type = v.type.items := by
  cases v with
  | tuple inner => exact (typeAll_eq_map inner).symm
  | entry key value => rfl
  | _ => simp [cls, type, Ty.cls] at hClass

end Variant

end GVariant

------------------------------------------------------------
-- Checked Constructors
------------------------------------------------------------

namespace GVariant

namespace Variant

/- The buffer or the list that holds the children. -/
def packed (element : Ty) (children : List Variant) :
    Variant :=
  if element = .byte then
    .bytes (children.filterMap byte?)
  else
    .arrayOf element children

/- An array is made exactly of children of its type. -/
theorem array_eq_ok_iff
    {element : Ty}
    {children : List Variant}
    {v : Variant} :
    array element children = .ok v ↔
      (∀ child ∈ children, child.type = element) ∧
        v = packed element children := by
  unfold array
  cases hFind :
      children.find? fun child => child.type != element with
  | some child =>
      have hWrong := List.find?_some hFind
      have hMem := List.mem_of_find?_eq_some hFind
      simp only [bne_iff_ne, ne_eq] at hWrong
      constructor
      · intro hOk
        cases hOk
      · intro hAll
        exact absurd (hAll.1 child hMem) hWrong
  | none =>
      have hAll :
          ∀ child ∈ children, child.type = element := by
        intro child hMem
        have hNot := List.find?_eq_none.mp hFind child hMem
        simpa using hNot
      have hPacked :
          (if element = .byte then
            Except.ok (Variant.bytes (children.filterMap byte?))
          else
            Except.ok (Variant.arrayOf element children)) =
            (Except.ok (packed element children) :
              Except Error Variant) := by
        unfold packed
        split <;> rfl
      simp only [hPacked, Except.ok.injEq]
      constructor
      · intro hOk
        exact ⟨hAll, hOk.symm⟩
      · intro hBoth
        exact hBoth.2.symm

/- The members of a string array are strings. -/
theorem strings_eq_ok
    {values : List String}
    {v : Variant}
    (hStrings : strings values = .ok v) :
    (∀ value ∈ values, TextKind.string.Accepts value) ∧
      v =
        .arrayOf .string
          (values.map fun value =>
            .scalar (.text .string value)) := by
  have hEach :
      ∀ (values : List String) (children : List Variant),
        values.mapM string = .ok children →
          (∀ value ∈ values,
              TextKind.string.Accepts value) ∧
            children =
              values.map fun value =>
                .scalar (.text .string value) := by
    intro values
    induction values with
    | nil =>
        intro children hMap
        cases hMap
        exact ⟨by simp, rfl⟩
    | cons value values ih =>
        intro children hMap
        rcases mapM_cons_eq_ok_iff.mp hMap with
          ⟨child, rest, hHead, hTail, rfl⟩
        have hText : text .string value = .ok child := hHead
        rcases text_eq_ok_iff.mp hText with ⟨hValue, rfl⟩
        rcases ih rest hTail with ⟨hAll, rfl⟩
        exact ⟨List.forall_mem_cons.mpr ⟨hValue, hAll⟩, rfl⟩
  unfold strings at hStrings
  split at hStrings
  · cases hStrings
  · rename_i children hMap
    cases hStrings
    rcases hEach values children hMap with ⟨hAll, rfl⟩
    exact ⟨hAll, rfl⟩

variable {inside : Variant → Prop}

/- An array of well-formed children is well-formed. -/
theorem wellTyped_of_array
    {element : Ty}
    {children : List Variant}
    {v : Variant}
    (hArray : array element children = .ok v)
    (hChildren :
      ∀ child ∈ children, child.WellTyped inside) :
    v.WellTyped inside := by
  rcases array_eq_ok_iff.mp hArray with ⟨hTypes, rfl⟩
  unfold packed
  split
  · exact True.intro
  · rename_i hByte
    exact
      ⟨hByte, hTypes,
        (wellTypedAll_iff inside children).mpr hChildren⟩

/- An entry of well-formed parts is well-formed. -/
theorem wellTyped_of_dictEntry
    {key value v : Variant}
    (hEntry : dictEntry key value = .ok v)
    (hKey : key.WellTyped inside)
    (hValue : value.WellTyped inside) :
    v.WellTyped inside := by
  cases key with
  | scalar key =>
      cases hEntry
      exact ⟨hKey, hValue⟩
  | _ => cases hEntry

/- A string array is well-formed. -/
theorem wellTyped_of_strings
    {values : List String}
    {v : Variant}
    (hStrings : strings values = .ok v) :
    v.WellTyped inside := by
  rcases strings_eq_ok hStrings with ⟨hValues, rfl⟩
  refine ⟨by simp, ?_, (wellTypedAll_iff inside _).mpr ?_⟩
  · intro child hMem
    rcases List.mem_map.mp hMem with ⟨value, _, rfl⟩
    rfl
  · intro child hMem
    rcases List.mem_map.mp hMem with ⟨value, hValue, rfl⟩
    exact hValues value hValue

end Variant

end GVariant

------------------------------------------------------------
-- Built Variants
------------------------------------------------------------

namespace GVariant

namespace IntKind

/- A word is the word of the integer it stands for. -/
theorem word_value
    (kind : IntKind)
    (word : BitVec kind.width) :
    kind.word (kind.value word) = word := by
  unfold IntKind.word value
  split
  · exact BitVec.ofInt_toInt
  · rw [BitVec.ofInt_natCast]
    exact (BitVec.ofNat_toNat _ word).trans
      (BitVec.setWidth_eq word)

end IntKind

namespace Variant

/-
  A variant that one of the constructors makes, from a list
  of variants that are given to it.
-/
inductive Constructs : List Variant → Variant → Prop
| boolean
    (value : Bool) :
    Constructs [] (boolean value)
| int
    (kind : IntKind)
    (value : Int) :
    Constructs [] (int kind value)
| byte
    (value : UInt8) :
    Constructs [] (byte value)
| double
    (value : Double) :
    Constructs [] (double value)
| text
    {kind : TextKind}
    {value : String}
    {v : Variant}
    (hText : Variant.text kind value = .ok v) :
    Constructs [] v
| boxed
    (child : Variant) :
    Constructs [child] (.boxed child)
| maybe
    {element : Ty}
    {child : Option Variant}
    {v : Variant}
    (hMaybe : Variant.maybe element child = .ok v) :
    Constructs child.toList v
| just
    (child : Variant) :
    Constructs [child] (.just child)
| nothing
    (element : Ty) :
    Constructs [] (.nothing element)
| array
    {element : Ty}
    {children : List Variant}
    {v : Variant}
    (hArray : Variant.array element children = .ok v) :
    Constructs children v
| strings
    {values : List String}
    {v : Variant}
    (hStrings : Variant.strings values = .ok v) :
    Constructs [] v
| bytes
    (content : List UInt8) :
    Constructs [] (.bytes content)
| tuple
    (children : List Variant) :
    Constructs children (.tuple children)
| dictEntry
    {key value v : Variant}
    (hEntry : Variant.dictEntry key value = .ok v) :
    Constructs [key, value] v

/- A variant built up by constructors alone. -/
inductive Built : Variant → Prop
| construct
    {children : List Variant}
    {v : Variant}
    (hMade : Constructs children v)
    (hChildren : ∀ child ∈ children, child.Built) :
    Built v

/- Constructors keep variants well-formed. -/
theorem wellFormed_of_constructs
    {children : List Variant}
    {v : Variant}
    (hMade : Constructs children v)
    (hChildren : ∀ child ∈ children, child.WellFormed) :
    v.WellFormed := by
  cases hMade with
  | boolean value => exact True.intro
  | int kind value => exact True.intro
  | byte value => exact True.intro
  | double value => exact True.intro
  | text hText =>
      rcases text_eq_ok_iff.mp hText with ⟨hAccepts, rfl⟩
      exact hAccepts
  | boxed child => exact hChildren child (by simp)
  | @maybe element child _ hMaybe =>
      cases child with
      | none =>
          cases hMaybe
          exact True.intro
      | some child =>
          simp only [Variant.maybe] at hMaybe
          split at hMaybe
          · cases hMaybe
            exact hChildren child (by simp)
          · cases hMaybe
  | just child => exact hChildren child (by simp)
  | nothing element => exact True.intro
  | array hArray =>
      rw [wellFormed_iff_wellTyped]
      refine wellTyped_of_array hArray ?_
      intro child hMem
      exact (wellFormed_iff_wellTyped child).mp
        (hChildren child hMem)
  | strings hStrings =>
      rw [wellFormed_iff_wellTyped]
      exact wellTyped_of_strings hStrings
  | bytes content => exact True.intro
  | tuple children =>
      exact (wellFormedAll_iff children).mpr hChildren
  | dictEntry hEntry =>
      simp only [wellFormed_iff_wellTyped] at hChildren ⊢
      exact
        wellTyped_of_dictEntry hEntry
          (hChildren _ (by simp))
          (hChildren _ (by simp))

/- What is built by constructors is well-formed. -/
theorem Built.wellFormed
    {v : Variant}
    (hBuilt : v.Built) :
    v.WellFormed := by
  induction hBuilt with
  | construct hMade _ ih =>
      exact wellFormed_of_constructs hMade ih

/- A valid scalar is built by one constructor. -/
theorem built_scalar
    {value : Scalar}
    (hValid : value.Valid) :
    (Variant.scalar value).Built := by
  have hMade : Constructs [] (.scalar value) := by
    cases value with
    | boolean value => exact .boolean value
    | int kind word =>
        have hWord :
            Variant.int kind (kind.value word) =
              .scalar (.int kind word) := by
          unfold Variant.int
          rw [kind.word_value word]
        exact hWord ▸ .int kind (kind.value word)
    | double value => exact .double value
    | text kind value =>
        exact .text (text_eq_ok_iff.mpr ⟨hValid, rfl⟩)
  exact .construct hMade (by simp)

/- What is well-formed is built by constructors. -/
theorem built_of_wellFormed
    {v : Variant}
    (hWell : v.WellFormed) :
    v.Built := by
  induction v with
  | scalar value => exact built_scalar hWell
  | boxed child ih =>
      refine .construct (.boxed child) ?_
      simpa using ih hWell
  | nothing element =>
      exact .construct (.nothing element) (by simp)
  | just child ih =>
      refine .construct (.just child) ?_
      simpa using ih hWell
  | bytes content =>
      exact .construct (.bytes content) (by simp)
  | arrayOf element children ih =>
      have hArray :
          array element children =
            .ok (.arrayOf element children) := by
        refine array_eq_ok_iff.mpr ⟨hWell.2.1, ?_⟩
        simp [packed, hWell.1]
      have hChildren :=
        (wellFormedAll_iff children).mp hWell.2.2
      refine .construct (.array hArray) ?_
      intro child hMem
      exact ih child hMem (hChildren child hMem)
  | tuple children ih =>
      have hChildren := (wellFormedAll_iff children).mp hWell
      refine .construct (.tuple children) ?_
      intro child hMem
      exact ih child hMem (hChildren child hMem)
  | entry key value ih =>
      have hEntry :
          dictEntry (.scalar key) value =
            .ok (.entry key value) := rfl
      refine .construct (.dictEntry hEntry) ?_
      simp only [List.forall_mem_cons, List.not_mem_nil,
        false_implies, implies_true, and_true]
      exact ⟨built_scalar hWell.1, ih hWell.2⟩

/- The well-formed variants are those that are built. -/
theorem wellFormed_iff_built
    (v : Variant) :
    v.WellFormed ↔ v.Built :=
  ⟨built_of_wellFormed, Built.wellFormed⟩

end Variant

end GVariant
