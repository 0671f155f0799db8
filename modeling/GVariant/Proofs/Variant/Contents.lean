import GVariant.Proofs.Variant.Obtained

/-
  The variants that can be obtained are those that hold
  contents of their types.

  A pair of a type and a content is sound if the type string
  is one type and the content is what that type says. This
  is a property of one node: of the variants that are held
  it looks at the types alone. All nodes of a variant that
  is obtained by calls are sound. The converse holds as
  well: a pair all of whose nodes are sound is the flat form
  of a tree, so that calls can make it.

  Key definitions include:
    * `Content.HasClass`
    * `FlatVariant.Within`
    * `FlatVariant.Sound`

  Main declarations:
    * `FlatVariant.sound_flat`
    * `FlatVariant.hasTree_of_sound`
    * `FlatVariant.hasTree_iff_sound_within`
    * `FlatVariant.reachable_iff_sound_within`
-/

------------------------------------------------------------
-- Contents Of Their Types
------------------------------------------------------------

namespace GVariant

/-
  The contents that belong to a class. Arrays are a list of
  members or a buffer of bytes.
-/
def Content.HasClass
    {V : Type} : Content V → TypeClass → Prop
| .boolean _, .basic .boolean => True
| .int kind _, .basic (.int other) => kind = other
| .double _, .basic .double => True
| .text _, .basic (.text _) => True
| .boxed _, .variant => True
| .maybe _, .maybe => True
| .bytes _, .array => True
| .container _, .array => True
| .container _, .tuple => True
| .container _, .dictEntry => True
| _, _ => False

namespace FlatVariant

/- A variant, its children, their children and so on. -/
inductive Within (v : FlatVariant) : FlatVariant → Prop
| root : Within v v
| child
    {u w : FlatVariant}
    {index : Nat}
    (hWithin : Within v u)
    (hChild : u.child? index = some w) :
    Within v w

/-
  The content of a variant is of its type. The type string
  is exactly one type, whose first character is that of the
  class, and the content is one of the class. What else the
  type string says holds of the members.
-/
structure Sound (v : FlatVariant) : Prop where
  readable :
    ∃ type : Ty,
      type.flat = v.type ∧
        ∀ limit,
          type.nesting ≤ limit →
            (Reader.ofString v.type.signature limit).readWhole =
              .ok type
  leading : v.type.signature.toList.head? = some v.cls.char
  form : v.content.HasClass v.cls
  bytes :
    (∃ content, v.content = .bytes content) ↔
      v.type.signature = "ay"
  element :
    v.cls = .array ∨ v.cls = .maybe →
      ∀ index child,
        v.child? index = some child →
          v.type.element? = some child.type
  items :
    v.cls = .tuple ∨ v.cls = .dictEntry →
      ∃ children,
        v.content = .container children ∧
          children.map type = v.type.items
  key :
    v.cls = .dictEntry →
      ∃ key value,
        v.content = .container [key, value] ∧
          key.cls.isBasic = true
  text :
    ∀ kind,
      v.cls = .basic (.text kind) →
        ∃ value,
          v.content = .text value ∧ kind.Accepts value

/- A buffer of bytes is kept under one type string only. -/
theorem bytes_content_flat_iff
    {v : Variant}
    (hWell : v.WellFormed) :
    (∃ content, v.flat.content = .bytes content) ↔
      v.type = .byteString := by
  cases v with
  | scalar value =>
      cases value <;>
        simp [Variant.flat, Scalar.flat, Scalar.content,
          Variant.type]
  | arrayOf element children =>
      have hByte : element ≠ .byte := hWell.1
      simp [Variant.flat, Variant.type, hByte]
  | _ => simp [Variant.flat, Variant.type]

theorem hasClass_flat
    (v : Variant) :
    v.flat.content.HasClass v.flat.cls := by
  cases v with
  | scalar value => cases value <;> trivial
  | _ => trivial

/- Members of an array and of a maybe have its element type. -/
theorem element?_of_child?_flat
    {v : Variant}
    (hWell : v.WellFormed)
    (hClass : v.cls = .array ∨ v.cls = .maybe)
    {index : Nat}
    {child : FlatVariant}
    (hChild : v.flat.child? index = some child) :
    v.flat.type.element? = some child.type := by
  rw [child?_flat] at hChild
  rcases Option.map_eq_some_iff.mp hChild with
    ⟨tree, hTree, rfl⟩
  rw [Variant.child?_eq_getElem?] at hTree
  rcases Variant.exists_element hClass with
    ⟨element, hElement⟩
  have hType :=
    hWell.type_of_mem_children hElement
      (List.mem_of_getElem? hTree)
  rw [Variant.type_flat, FlatType.element?_flat, hElement,
    Variant.type_flat, hType]
  rfl

/- Members of a tuple and of an entry have its item types. -/
theorem container_items_flat
    {v : Variant}
    (hClass : v.cls = .tuple ∨ v.cls = .dictEntry) :
    ∃ children,
      v.flat.content = .container children ∧
        children.map type = v.flat.type.items := by
  rw [Variant.type_flat, FlatType.items_flat]
  cases v with
  | tuple children =>
      have hTypes := Variant.map_type_map_flat children
      rw [← Variant.flatAll_eq_map] at hTypes
      exact ⟨Variant.flatAll children, rfl, hTypes⟩
  | entry key value =>
      refine ⟨[key.flat, value.flat], rfl, ?_⟩
      rw [List.map_cons, List.map_cons, Variant.type_flat]
      rfl
  | _ => simp [Variant.cls, Variant.type, Ty.cls] at hClass

/- The flat form of a well-formed tree is sound. -/
theorem sound_flat
    {v : Variant}
    (hWell : v.WellFormed) :
    v.flat.Sound where
  readable := by
    refine ⟨v.type, v.type_flat.symm, ?_⟩
    intro limit hLimit
    have hChars :
        Reader.ofString v.flat.type.signature limit =
          Reader.ofChars v.type.chars limit := by
      simp [Reader.ofString, FlatType.signature, Ty.flat]
    rw [hChars]
    exact Reader.readWhole_chars v.type hLimit
  leading := by
    rcases v.type.chars_eq_cons with ⟨rest, hChars⟩
    simp [FlatType.signature, FlatVariant.cls, Ty.flat, hChars]
  form := hasClass_flat v
  bytes := by
    rw [bytes_content_flat_iff hWell, Variant.type_flat]
    constructor
    · intro hType
      rw [hType]
      rfl
    · intro hText
      exact Ty.signature_injective hText
  element := by
    intro hClass index child hChild
    rw [FlatVariant.cls, Variant.type_flat] at hClass
    exact element?_of_child?_flat hWell hClass hChild
  items := by
    intro hClass
    rw [FlatVariant.cls, Variant.type_flat] at hClass
    exact container_items_flat hClass
  key := by
    intro hClass
    rw [FlatVariant.cls, Variant.type_flat] at hClass
    cases v with
    | entry key value => exact ⟨key.flat, value.flat, rfl, rfl⟩
    | _ => simp [Variant.type, Ty.flat, Ty.cls] at hClass
  text := by
    intro kind hClass
    rw [FlatVariant.cls, Variant.type_flat] at hClass
    cases v with
    | scalar value =>
        cases value with
        | text kind value =>
            cases hClass
            exact ⟨value, rfl, hWell⟩
        | _ => cases hClass
    | _ => cases hClass

end FlatVariant

end GVariant

------------------------------------------------------------
-- What Is Held
------------------------------------------------------------

namespace GVariant

/- The variants that a content holds. -/
def Content.members {V : Type} : Content V → List V
| .boxed child => [child]
| .maybe child => child.toList
| .container children => children
| _ => []

namespace FlatVariant

/-
  Induction over a variant, with a hypothesis for each
  variant that it holds.
-/
@[induction_eliminator]
theorem induction
    {motive : FlatVariant → Prop}
    (ofParts :
      ∀ type content,
        (∀ child ∈ content.members, motive child) →
          motive (ofParts type content))
    (v : FlatVariant) :
    motive v := by
  refine
    @FlatVariant.rec motive
      (fun content => ∀ child ∈ content.members, motive child)
      (fun child => ∀ v ∈ child.toList, motive v)
      (fun children => ∀ child ∈ children, motive child)
      ofParts ?_ ?_ ?_ ?_ ?_ (fun _ hChild => hChild) ?_
      (fun _ hChildren => hChildren) ?_ ?_ ?_ ?_ v
  all_goals simp +contextual [Content.members]

/- What is held is a child. -/
theorem exists_child?_of_mem_members
    {v child : FlatVariant}
    (hMem : child ∈ v.content.members) :
    ∃ index, v.child? index = some child := by
  rcases List.getElem?_of_mem hMem with ⟨index, hIndex⟩
  refine ⟨index, ?_⟩
  rcases v with ⟨type, content⟩
  cases content with
  | boxed child => exact hIndex
  | maybe child => exact hIndex
  | container children => exact hIndex
  | _ => cases hMem

/- What is within a child is within the variant. -/
theorem Within.of_child?
    {v w u : FlatVariant}
    {index : Nat}
    (hChild : v.child? index = some w)
    (hWithin : w.Within u) :
    v.Within u := by
  induction hWithin with
  | root => exact .child .root hChild
  | child _ hInner ih => exact .child ih hInner

end FlatVariant

end GVariant

------------------------------------------------------------
-- Trees Of Sound Variants
------------------------------------------------------------

namespace GVariant

namespace FlatVariant

theorem hasTree_of_sound_basic
    {type : BasicType}
    {content : Content FlatVariant}
    (hSound : (ofParts (Ty.basic type).flat content).Sound) :
    (ofParts (Ty.basic type).flat content).HasTree := by
  have hForm : content.HasClass (.basic type) := hSound.form
  cases type with
  | boolean =>
      cases content with
      | boolean value =>
          exact ⟨.scalar (.boolean value), True.intro, rfl⟩
      | _ => cases hForm
  | int kind =>
      cases content with
      | int other word =>
          cases hForm
          exact ⟨.scalar (.int kind word), True.intro, rfl⟩
      | _ => cases hForm
  | double =>
      cases content with
      | double value =>
          exact ⟨.scalar (.double value), True.intro, rfl⟩
      | _ => cases hForm
  | text kind =>
      rcases hSound.text kind rfl with ⟨value, rfl, hAccepts⟩
      exact ⟨.scalar (.text kind value), hAccepts, rfl⟩

theorem hasTree_of_sound_just
    {element : Ty}
    {child : FlatVariant}
    (hSound :
      (ofParts (Ty.maybe element).flat
        (.maybe (some child))).Sound)
    (hChild : child.HasTree) :
    (ofParts (Ty.maybe element).flat
      (.maybe (some child))).HasTree := by
  rcases hChild with ⟨tree, hWell, rfl⟩
  have hElement := hSound.element (.inr rfl) 0 tree.flat rfl
  rw [FlatType.element?_flat] at hElement
  have hType : tree.type = element :=
    Variant.type_flat_eq_iff.mp (Option.some.inj hElement).symm
  subst hType
  exact ⟨.just tree, hWell, rfl⟩

/- Bytes would be in a buffer, so these are none. -/
theorem hasTree_of_sound_array
    {element : Ty}
    {children : List FlatVariant}
    (hSound :
      (ofParts (Ty.array element).flat
        (.container children)).Sound)
    (hChildren : ∀ child ∈ children, child.HasTree) :
    (ofParts (Ty.array element).flat
      (.container children)).HasTree := by
  have hByte : element ≠ .byte := by
    rintro rfl
    rcases hSound.bytes.mpr rfl with ⟨content, hContent⟩
    cases hContent
  rcases exists_map_eq hChildren with ⟨trees, hWell, rfl⟩
  have hTypes : ∀ tree ∈ trees, tree.type = element := by
    intro tree hMem
    rcases List.getElem?_of_mem hMem with ⟨index, hIndex⟩
    have hChild :
        (trees.map Variant.flat)[index]? = some tree.flat := by
      rw [List.getElem?_map, hIndex]
      rfl
    have hElement :=
      hSound.element (.inl rfl) index tree.flat hChild
    rw [FlatType.element?_flat] at hElement
    exact
      Variant.type_flat_eq_iff.mp
        (Option.some.inj hElement).symm
  have hAll := (Variant.wellFormedAll_iff trees).mpr hWell
  refine ⟨.arrayOf element trees, ⟨hByte, hTypes, hAll⟩, ?_⟩
  rw [Variant.flat, Variant.flatAll_eq_map]

/- The types of the trees are the items of the type. -/
theorem typeAll_of_sound
    {type : Ty}
    {trees : List Variant}
    (hSound :
      (ofParts type.flat
        (.container (trees.map Variant.flat))).Sound)
    (hClass : type.cls = .tuple ∨ type.cls = .dictEntry) :
    Variant.typeAll trees = type.items := by
  rcases hSound.items hClass with ⟨children, hContent, hTypes⟩
  cases hContent
  have hItems : type.flat.items = type.items.map Ty.flat :=
    FlatType.items_flat type
  rw [Variant.map_type_map_flat] at hTypes
  exact
    Ty.flat_injective.list_map (hTypes.trans hItems)

theorem hasTree_of_sound_tuple
    {items : List Ty}
    {children : List FlatVariant}
    (hSound :
      (ofParts (Ty.tuple items).flat
        (.container children)).Sound)
    (hChildren : ∀ child ∈ children, child.HasTree) :
    (ofParts (Ty.tuple items).flat
      (.container children)).HasTree := by
  rcases exists_map_eq hChildren with ⟨trees, hWell, rfl⟩
  have hTypes : Variant.typeAll trees = items :=
    typeAll_of_sound hSound (.inl rfl)
  subst hTypes
  refine
    ⟨.tuple trees, (Variant.wellFormedAll_iff trees).mpr hWell,
      ?_⟩
  rw [Variant.flat, Variant.flatAll_eq_map]

theorem hasTree_of_sound_dictEntry
    {key : BasicType}
    {value : Ty}
    {children : List FlatVariant}
    (hSound :
      (ofParts (Ty.dictEntry key value).flat
        (.container children)).Sound)
    (hChildren : ∀ child ∈ children, child.HasTree) :
    (ofParts (Ty.dictEntry key value).flat
      (.container children)).HasTree := by
  rcases exists_map_eq hChildren with ⟨trees, hWell, rfl⟩
  have hTypes := typeAll_of_sound hSound (.inr rfl)
  rcases Variant.exists_of_typeAll_eq_pair hTypes with
    ⟨s, v, rfl, rfl, rfl⟩
  have hKey := hWell (.scalar s) (by simp)
  have hValue := hWell v (by simp)
  exact ⟨.entry s v, ⟨hKey, hValue⟩, rfl⟩

/-
  A sound variant is a flat form if all that it holds are.
  The class of the type leaves one kind of content, but for
  arrays, which have two.
-/
theorem hasTree_of_sound
    {type : Ty}
    {content : Content FlatVariant}
    (hSound : (ofParts type.flat content).Sound)
    (hMembers : ∀ child ∈ content.members, child.HasTree) :
    (ofParts type.flat content).HasTree := by
  have hForm : content.HasClass type.cls := hSound.form
  cases type with
  | basic type => exact hasTree_of_sound_basic hSound
  | «variant» =>
      cases content with
      | boxed child =>
          rcases hMembers child List.mem_cons_self with
            ⟨tree, hWell, rfl⟩
          exact ⟨.boxed tree, hWell, rfl⟩
      | _ => cases hForm
  | maybe element =>
      cases content with
      | maybe child =>
          cases child with
          | none => exact ⟨.nothing element, True.intro, rfl⟩
          | some child =>
              exact
                hasTree_of_sound_just hSound
                  (hMembers child List.mem_cons_self)
      | _ => cases hForm
  | array element =>
      cases content with
      | bytes content =>
          have hText :
              (Ty.array element).signature =
                Ty.byteString.signature :=
            hSound.bytes.mp ⟨content, rfl⟩
          cases Ty.signature_injective hText
          exact ⟨.bytes content, True.intro, rfl⟩
      | container children =>
          exact hasTree_of_sound_array hSound hMembers
      | _ => cases hForm
  | tuple items =>
      cases content with
      | container children =>
          exact hasTree_of_sound_tuple hSound hMembers
      | _ => cases hForm
  | dictEntry key value =>
      cases content with
      | container children =>
          exact hasTree_of_sound_dictEntry hSound hMembers
      | _ => cases hForm

/- What is within a flat form is a flat form. -/
theorem HasTree.of_within
    {v u : FlatVariant}
    (hTree : v.HasTree)
    (hWithin : v.Within u) :
    u.HasTree := by
  induction hWithin with
  | root => exact hTree
  | child _ hChild ih => exact hasTree_of_child? ih hChild

/-
  The flat forms of well-formed trees are the variants all
  of whose nodes are sound. The induction is on the variant.
-/
theorem hasTree_iff_sound_within
    (v : FlatVariant) :
    v.HasTree ↔ ∀ u, v.Within u → u.Sound := by
  constructor
  · intro hTree u hWithin
    rcases hTree.of_within hWithin with ⟨tree, hWell, rfl⟩
    exact sound_flat hWell
  · intro hSound
    induction v with
    | ofParts type content ih =>
        have hRoot := hSound _ .root
        rcases hRoot.readable with ⟨tree, hType, _⟩
        cases hType
        refine hasTree_of_sound hRoot ?_
        intro child hMem
        let v := ofParts tree.flat content
        have hHeld : child ∈ v.content.members := hMem
        rcases exists_child?_of_mem_members hHeld with
          ⟨index, hChild⟩
        exact
          ih child hMem fun u hWithin =>
            hSound u (.of_child? hChild hWithin)

/-
  The variants that can be obtained are those that have, as
  all that are within them, contents of their types. What is
  decoded has the type that was asked for.
-/
theorem reachable_iff_sound_within :
    (∀ v : FlatVariant,
        v.Reachable ↔ ∀ u, v.Within u → u.Sound) ∧
      ∀ (type : FlatType) data order limit v,
        type.Built →
          decode type data order limit = .ok v →
            v.type = type := by
  constructor
  · intro v
    rw [reachable_iff_hasTree, hasTree_iff_sound_within]
  · intro type data order limit v hType hDecode
    rcases exists_of_decode hType hDecode with
      ⟨tree, _, hSame, rfl⟩
    rw [Variant.type_flat, hSame]

/- A map whose only value holds a box. -/
def boxMap : FlatValue :=
  .map [("7", .array [.string "a", .variant (bytes [1])])]

theorem sound_packed_boxMap_and_decoded_maybe :
    (∃ v,
        packAs .standard "a\x7by(sv)\x7d" boxMap = .ok v ∧
          ∀ u, v.Within u → u.Sound) ∧
      decode (Ty.maybe .byte).flat [9] .big 1 =
          .ok (just (byte 9)) ∧
        (just (byte 9)).type = (Ty.maybe .byte).flat := by
  have hMaybe :
      decode (Ty.maybe .byte).flat [9] .big 1 =
        .ok (just (byte 9)) := by
    rw [decode_flat]
    rfl
  have hInside : ∀ w ∈ boxMap.variants, w.Reachable := by
    simp only [boxMap, FlatValue.variants,
      FlatValue.variantsOfEntries, FlatValue.variantsAll,
      List.append_nil, List.nil_append, List.mem_singleton,
      forall_eq]
    exact .construct (.bytes [1]) (by simp)
  have hPacks :
      (packAs .standard "a\x7by(sv)\x7d" boxMap).isOk =
        true := by
    decide +kernel
  refine
    ⟨?_, hMaybe,
      reachable_iff_sound_within.2 _ _ _ _ _
        (FlatType.built_flat (.maybe .byte)) hMaybe⟩
  cases hPack :
      packAs .standard "a\x7by(sv)\x7d" boxMap with
  | error e =>
      rw [hPack] at hPacks
      cases hPacks
  | ok v =>
      exact
        ⟨v, rfl,
          (reachable_iff_sound_within.1 v).mp
            (.packAs hInside hPack)⟩

end FlatVariant

end GVariant
