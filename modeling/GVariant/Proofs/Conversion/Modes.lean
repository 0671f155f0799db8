import GVariant.Proofs.Conversion.Containers
import GVariant.Proofs.Conversion.Packed
import GVariant.Proofs.Conversion.Unpacking

/-
  How the modes of unpacking are related.

  The modes differ in which variants they leave in the host
  value: a shallow unpacking leaves the children, a deep one
  the boxes, a recursive one none at all. To open what one
  mode has left is what the next mode does. It takes no more
  levels, since what is left is opened from a root of its
  own, and overwritten entries of dictionaries are gone in
  both modes alike.

  Key definitions include:
    * `OpensTo`
    * `Value.IsShallow`

  Main declarations:
    * `Value.openWith_array_eq_ok_iff`
    * `Value.openWith_map_eq_ok_iff`
    * `Conversion.unpackLevels_opensTo`
    * `Conversion.openWith_deepUnpack_of_deepUnpack`
    * `Conversion.openWith_recursiveUnpack_of_recursiveUnpack`
-/

------------------------------------------------------------
-- Opening Host Values
------------------------------------------------------------

namespace GVariant

namespace Value

variable {unpackVariant : Variant → Except Error Value}

theorem openItemsWith_eq_ok_iff
    {items results : List Value} :
    openItemsWith unpackVariant items = .ok results ↔
      List.Forall₂
        (fun item result =>
          item.openWith unpackVariant = .ok result)
        items results := by
  rw [← mapM_eq_ok_iff_forall₂]
  induction items generalizing results with
  | nil => rfl
  | cons item items ih =>
      rw [openItemsWith, mapM_cons_eq_ok_iff]
      cases item.openWith unpackVariant with
      | error e => simp
      | ok first =>
          cases hRest : openItemsWith unpackVariant items with
          | error e => simp [← ih, hRest]
          | ok rest => simp [← ih, hRest, eq_comm]

theorem openEntriesWith_eq_ok_iff
    {entries results : List (String × Value)} :
    openEntriesWith unpackVariant entries = .ok results ↔
      List.Forall₂
        (Entries.Related fun value result =>
          value.openWith unpackVariant = .ok result)
        entries results := by
  induction entries generalizing results with
  | nil =>
      rw [List.forall₂_nil_left_iff, openEntriesWith]
      simp [eq_comm]
  | cons entry entries ih =>
      rw [openEntriesWith, List.forall₂_cons_left_iff]
      simp only [← ih, Entries.Related]
      cases entry.2.openWith unpackVariant with
      | error e => simp
      | ok first =>
          cases openEntriesWith unpackVariant entries with
          | error e => simp
          | ok rest => simp [eq_comm]

/- An array is opened exactly if its items are. -/
theorem openWith_array_eq_ok_iff
    {items : List Value}
    {value : Value} :
    (array items).openWith unpackVariant = .ok value ↔
      ∃ results,
        List.Forall₂
            (fun item result =>
              item.openWith unpackVariant = .ok result)
            items results ∧
          value = .array results := by
  simp only [← openItemsWith_eq_ok_iff, openWith]
  cases openItemsWith unpackVariant items with
  | error e => simp
  | ok results => simp [eq_comm]

/- A map is opened exactly if the values of its entries are. -/
theorem openWith_map_eq_ok_iff
    {entries : List (String × Value)}
    {value : Value} :
    (map entries).openWith unpackVariant = .ok value ↔
      ∃ results,
        List.Forall₂
            (Entries.Related fun value result =>
              value.openWith unpackVariant = .ok result)
            entries results ∧
          value = .map results := by
  simp only [← openEntriesWith_eq_ok_iff, openWith]
  cases openEntriesWith unpackVariant entries with
  | error e => simp
  | ok results => simp [eq_comm]

/- Every variant of a value that is opened was unpacked. -/
theorem exists_unpacked_of_openWith
    {value result : Value}
    (hOpen : value.openWith unpackVariant = .ok result) :
    ∀ w ∈ value.variants,
      ∃ opened, unpackVariant w = .ok opened := by
  induction value generalizing result with
  | array items ih =>
      rcases openWith_array_eq_ok_iff.mp hOpen with
        ⟨results, hItems, _⟩
      rw [variants, forall_variantsAll_iff]
      intro item hMem
      rcases exists_of_forall₂_left hItems hMem with
        ⟨opened, _, hItem⟩
      exact ih item hMem hItem
  | map entries ih =>
      rcases openWith_map_eq_ok_iff.mp hOpen with
        ⟨results, hEntries, _⟩
      rw [variants, forall_variantsOfEntries_iff]
      intro entry hMem
      rcases exists_of_forall₂_left hEntries hMem with
        ⟨opened, _, _, hValue⟩
      exact ih entry hMem hValue
  | «variant» w =>
      intro w' hMem
      rw [List.mem_singleton.mp hMem]
      exact ⟨result, hOpen⟩
  | _ => simp [variants]

/- A scalar has nothing to open. -/
theorem openWith_toValue
    (s : Scalar) :
    s.toValue.openWith unpackVariant = .ok s.toValue := by
  refine Scalar.toValue_elim ?_ ?_ ?_ ?_ ?_ s <;>
    exact fun _ => rfl

end Value

end GVariant

------------------------------------------------------------
-- One Level In Two Modes
------------------------------------------------------------

namespace GVariant

/-
  Whenever a mode that opens more has a result, a mode that
  opens less has one, too, and the result of the first is
  that of the second with its variants opened.
-/
def OpensTo
    (unpackVariant : Variant → Except Error Value)
    (result more : Except Error Value) : Prop :=
  ∀ opened,
    more = .ok opened →
      ∃ value,
        result = .ok value ∧
          value.openWith unpackVariant = .ok opened

namespace Conversion

variable {conv : Conversion}
variable {unpackVariant : Variant → Except Error Value}
variable {unpackChild unpackMore : Variant → Except Error Value}

/- A value that both modes have, and that has no variants. -/
theorem opensTo_same
    {value : Value}
    (hOpen : value.openWith unpackVariant = .ok value) :
    OpensTo unpackVariant (.ok value) (.ok value) := by
  intro opened hMore
  cases hMore
  exact ⟨value, rfl, hOpen⟩

/- Items are opened one by one. -/
theorem unpackItems_opensTo
    (hEach :
      ∀ child,
        OpensTo unpackVariant (unpackChild child)
          (unpackMore child))
    (children : List Variant) :
    OpensTo unpackVariant (unpackItems unpackChild children)
      (unpackItems unpackMore children) := by
  intro opened hMore
  rcases unpackItems_eq_ok_iff.mp hMore with
    ⟨results, hResults, rfl⟩
  rcases forall₂_comp_iff.mp (hResults.imp hEach) with
    ⟨items, hItems, hOpened⟩
  refine ⟨.array items, ?_, ?_⟩
  · exact unpackItems_eq_ok_iff.mpr ⟨items, hItems, rfl⟩
  · exact
      Value.openWith_array_eq_ok_iff.mpr
        ⟨results, hOpened, rfl⟩

/-
  The values of entries are opened one by one, before or
  after the map is made of them.
-/
theorem unpackEntries_opensTo
    (hEach :
      ∀ child,
        OpensTo unpackVariant (unpackChild child)
          (unpackMore child))
    (levels : Nat)
    (entries : List Variant) :
    OpensTo unpackVariant
      (conv.unpackEntries levels unpackChild entries)
      (conv.unpackEntries levels unpackMore entries) := by
  intro opened hMore
  rcases unpackEntries_eq_ok_iff.mp hMore with
    ⟨results, hResults, rfl⟩
  have hEntry :
      ∀ entry result,
        UnpacksEntry levels unpackMore entry result →
          ∃ pair,
            UnpacksEntry levels unpackChild entry pair ∧
              Entries.Related
                (fun value result =>
                  value.openWith unpackVariant = .ok result)
                pair result := by
    rintro entry ⟨name, opened⟩
      ⟨key, child, rfl, hLevels, rfl, hChild⟩
    rcases hEach child opened hChild with
      ⟨value, hValue, hOpen⟩
    exact
      ⟨(key.keyText, value),
        ⟨key, child, rfl, hLevels, rfl, hValue⟩, rfl, hOpen⟩
  rcases forall₂_comp_iff.mp (hResults.imp hEntry) with
    ⟨pairs, hPairs, hOpened⟩
  refine ⟨.map (Entries.ofList pairs), ?_, ?_⟩
  · exact unpackEntries_eq_ok_iff.mpr ⟨pairs, hPairs, rfl⟩
  · exact
      Value.openWith_map_eq_ok_iff.mpr
        ⟨_, Entries.forall₂_ofList hOpened, rfl⟩

/-
  What one mode makes of a variant is opened to what another
  makes of it if this is so for the children. A box, which
  is left as it is by some modes, is not covered.
-/
theorem unpackLevels_opensTo
    (hCodec : conv.codec.valueOfBytes = .bytes)
    {deep recursive deep' recursive' : Bool}
    {levels : Nat}
    (hEach :
      ∀ child,
        OpensTo unpackVariant
          (if deep then
            conv.unpackLevels deep recursive levels child
          else
            .ok (.variant child))
          (if deep' then
            conv.unpackLevels deep' recursive' levels child
          else
            .ok (.variant child)))
    {v : Variant}
    (hBox : v.cls ≠ .variant) :
    OpensTo unpackVariant
      (conv.unpackLevels deep recursive (levels + 1) v)
      (conv.unpackLevels deep' recursive' (levels + 1) v) := by
  cases v with
  | scalar s => exact opensTo_same (Value.openWith_toValue s)
  | boxed child => exact absurd rfl hBox
  | nothing element => exact opensTo_same rfl
  | just child => exact hEach child
  | bytes content =>
      apply opensTo_same
      rw [hCodec]
      rfl
  | arrayOf element children =>
      cases element with
      | dictEntry key type =>
          exact unpackEntries_opensTo hEach levels children
      | _ => exact unpackItems_opensTo hEach children
  | tuple children =>
      exact unpackItems_opensTo hEach children
  | entry key value =>
      exact unpackItems_opensTo hEach [.scalar key, value]

end Conversion

end GVariant

------------------------------------------------------------
-- Shallow And Deep
------------------------------------------------------------

namespace GVariant

/- Whatever an array or a map has in it is a variant. -/
def Value.IsShallow : Value → Prop
| .array items => ∀ item ∈ items, ∃ w, item = .variant w
| .map entries =>
    ∀ entry ∈ entries, ∃ w, entry.2 = .variant w
| _ => True

namespace Conversion

variable {conv : Conversion}

theorem isShallow_of_unpackItems
    (children : List Variant)
    {value : Value}
    (hUnpack :
      unpackItems (fun child => .ok (.variant child))
          children =
        .ok value) :
    value.IsShallow := by
  rcases unpackItems_eq_ok_iff.mp hUnpack with
    ⟨items, hItems, rfl⟩
  intro item hMem
  rcases exists_of_forall₂_right hItems hMem with
    ⟨child, _, hChild⟩
  cases hChild
  exact ⟨child, rfl⟩

theorem isShallow_of_unpackEntries
    {levels : Nat}
    {entries : List Variant}
    {value : Value}
    (hUnpack :
      conv.unpackEntries levels
          (fun child => .ok (.variant child)) entries =
        .ok value) :
    value.IsShallow := by
  rcases unpackEntries_eq_ok_iff.mp hUnpack with
    ⟨pairs, hPairs, rfl⟩
  intro pair hMem
  rcases
      exists_of_forall₂_right hPairs
        (Entries.mem_of_mem_ofList hMem) with
    ⟨entry, _, key, child, _, _, _, hChild⟩
  exact ⟨child, (Except.ok.inj hChild).symm⟩

/- Taking off one level leaves all children as variants. -/
theorem isShallow_of_unpack
    (hCodec : conv.codec.valueOfBytes = .bytes)
    {v : Variant}
    {value : Value}
    (hUnpack : conv.unpack v = .ok value) :
    value.IsShallow := by
  cases v with
  | scalar s =>
      cases hUnpack
      refine Scalar.toValue_elim ?_ ?_ ?_ ?_ ?_ s <;>
        exact fun _ => True.intro
  | bytes content =>
      cases hUnpack
      rw [hCodec]
      exact True.intro
  | arrayOf element children =>
      cases element with
      | dictEntry key type =>
          exact isShallow_of_unpackEntries hUnpack
      | _ => exact isShallow_of_unpackItems children hUnpack
  | tuple children =>
      exact isShallow_of_unpackItems children hUnpack
  | entry key value =>
      exact
        isShallow_of_unpackItems [.scalar key, value] hUnpack
  | _ =>
      cases hUnpack
      exact True.intro

/-
  A shallow unpacking leaves the children of a container as
  variants, and unpacking each of these deeply, from a root
  of its own, gives what the deep unpacking gave at once.
-/
theorem openWith_deepUnpack_of_deepUnpack
    (hCodec : conv.codec.valueOfBytes = .bytes)
    {v : Variant}
    (hBox : v.cls ≠ .variant)
    {value : Value}
    (hDeep : conv.deepUnpack v = .ok value) :
    ∃ shallow,
      conv.unpack v = .ok shallow ∧
        shallow.IsShallow ∧
        (∀ w ∈ shallow.variants,
          ∃ opened, conv.deepUnpack w = .ok opened) ∧
        shallow.openWith conv.deepUnpack = .ok value := by
  have hEach :
      ∀ child,
        OpensTo conv.deepUnpack (.ok (.variant child))
          (conv.unpackLevels true false conv.maxDepth
            child) := by
    intro child opened hChild
    have hFresh : conv.deepUnpack child = .ok opened :=
      unpackVariant_of_unpackLevels (Nat.le_succ _) hChild
    exact ⟨.variant child, rfl, hFresh⟩
  have hOpens :
      OpensTo conv.deepUnpack (conv.unpack v)
        (conv.deepUnpack v) :=
    unpackLevels_opensTo hCodec hEach hBox
  rcases hOpens value hDeep with ⟨shallow, hUnpack, hOpen⟩
  exact
    ⟨shallow, hUnpack, isShallow_of_unpack hCodec hUnpack,
      Value.exists_unpacked_of_openWith hOpen, hOpen⟩

/- Lists of boxes by number, with one number repeated. -/
def repeatedLists : Variant :=
  .arrayOf (.dictEntry (.int .byte) (.array .variant))
    [.entry (.int .byte 9) (.arrayOf .variant []),
      .entry (.int .byte 1)
        (.arrayOf .variant [.boxed (Variant.byte 2)]),
      .entry (.int .byte 9)
        (.arrayOf .variant [.boxed (Variant.byte 3)])]

/- The boxes stay closed, and the overwritten list is gone. -/
theorem openWith_deepUnpack_repeatedLists :
    repeatedLists.cls ≠ .variant ∧
      standard.deepUnpack repeatedLists =
        .ok (.map
          [("1", .array [.variant (Variant.byte 2)]),
            ("9", .array [.variant (Variant.byte 3)])]) ∧
        ∃ shallow,
          standard.unpack repeatedLists = .ok shallow ∧
            shallow.openWith standard.deepUnpack =
              .ok (.map
                [("1", .array [.variant (Variant.byte 2)]),
                  ("9",
                    .array [.variant (Variant.byte 3)])]) := by
  have hBox : repeatedLists.cls ≠ .variant := by
    decide
  have hDeep :
      standard.deepUnpack repeatedLists =
        .ok (.map
          [("1", .array [.variant (Variant.byte 2)]),
            ("9", .array [.variant (Variant.byte 3)])]) := by
    rfl
  rcases openWith_deepUnpack_of_deepUnpack rfl hBox hDeep with
    ⟨shallow, hUnpack, _, _, hOpen⟩
  exact ⟨hBox, hDeep, shallow, hUnpack, hOpen⟩

end Conversion

end GVariant

------------------------------------------------------------
-- Deep And Recursive
------------------------------------------------------------

namespace GVariant

namespace Value

theorem variantsAll_eq_nil_iff
    (items : List Value) :
    variantsAll items = [] ↔
      ∀ item ∈ items, item.variants = [] := by
  simp only [List.eq_nil_iff_forall_not_mem]
  exact forall_variantsAll_iff items

theorem variantsOfEntries_eq_nil_iff
    (entries : List (String × Value)) :
    variantsOfEntries entries = [] ↔
      ∀ entry ∈ entries, entry.2.variants = [] := by
  simp only [List.eq_nil_iff_forall_not_mem]
  exact forall_variantsOfEntries_iff entries

theorem variants_toValue
    (s : Scalar) :
    s.toValue.variants = [] := by
  refine Scalar.toValue_elim ?_ ?_ ?_ ?_ ?_ s <;>
    exact fun _ => rfl

end Value

namespace Conversion

variable {conv : Conversion}

/-
  A property of all that a recursive unpacking returns: the
  values of scalars, absent values and bytes have it, and so
  have arrays and maps of values that have it. The induction
  is on the levels, which a box takes as well.
-/
theorem holds_of_unpackLevels
    (holds : Value → Prop)
    (hCodec : conv.codec.valueOfBytes = .bytes)
    (hScalar : ∀ s : Scalar, holds s.toValue)
    (hNull : holds .null)
    (hBytes : ∀ content, holds (.bytes content))
    (hArray :
      ∀ items,
        (∀ item ∈ items, holds item) → holds (.array items))
    (hMap :
      ∀ pairs : List (String × Value),
        (∀ pair ∈ pairs, holds pair.2) →
          holds (.map (Entries.ofList pairs)))
    {levels : Nat}
    {v : Variant}
    {value : Value}
    (hUnpack :
      conv.unpackLevels true true levels v = .ok value) :
    holds value := by
  induction levels generalizing v value with
  | zero => cases hUnpack
  | succ levels ih =>
      have hItems :
          ∀ {children value},
            unpackItems (conv.unpackLevels true true levels)
                children =
              .ok value →
              holds value := by
        intro children value hUnpack
        rcases unpackItems_eq_ok_iff.mp hUnpack with
          ⟨items, hItems, rfl⟩
        apply hArray
        intro item hMem
        rcases exists_of_forall₂_right hItems hMem with
          ⟨child, _, hChild⟩
        exact ih hChild
      cases v with
      | scalar s =>
          cases hUnpack
          exact hScalar s
      | boxed child => exact ih (v := child) hUnpack
      | nothing element =>
          cases hUnpack
          exact hNull
      | just child => exact ih (v := child) hUnpack
      | bytes content =>
          cases hUnpack
          rw [hCodec]
          exact hBytes content
      | arrayOf element children =>
          cases element with
          | dictEntry key type =>
              rcases unpackEntries_eq_ok_iff.mp hUnpack with
                ⟨pairs, hPairs, rfl⟩
              apply hMap
              intro pair hMem
              rcases exists_of_forall₂_right hPairs hMem with
                ⟨entry, _, key, child, _, _, _, hChild⟩
              exact ih hChild
          | _ => exact hItems hUnpack
      | tuple children => exact hItems hUnpack
      | entry key value => exact hItems hUnpack

/- No variant is left at any depth. -/
theorem variants_of_unpackLevels
    (hCodec : conv.codec.valueOfBytes = .bytes)
    {levels : Nat}
    {v : Variant}
    {value : Value}
    (hUnpack :
      conv.unpackLevels true true levels v = .ok value) :
    value.variants = [] := by
  refine
    holds_of_unpackLevels (fun value => value.variants = [])
      hCodec Value.variants_toValue rfl (fun _ => rfl)
      (fun items => (Value.variantsAll_eq_nil_iff items).mpr)
      ?_ hUnpack
  intro pairs hPairs
  apply (Value.variantsOfEntries_eq_nil_iff _).mpr
  intro pair hMem
  exact hPairs pair (Entries.mem_of_mem_ofList hMem)

/-
  A deep unpacking is opened to a recursive one by unpacking
  the boxes that it has left recursively, each from a root of
  its own. The induction is on the levels, which are no more
  than an unpacking from a root has.
-/
theorem deep_opensTo_recursive
    (hCodec : conv.codec.valueOfBytes = .bytes)
    {levels : Nat}
    (hLevels : levels ≤ conv.maxDepth + 1)
    (v : Variant) :
    OpensTo conv.recursiveUnpack
      (conv.unpackLevels true false levels v)
      (conv.unpackLevels true true levels v) := by
  induction levels generalizing v with
  | zero =>
      intro opened hMore
      cases hMore
  | succ levels ih =>
      have hFewer : levels ≤ conv.maxDepth + 1 :=
        Nat.le_of_succ_le hLevels
      by_cases hBox : v.cls = .variant
      · cases v with
        | boxed child =>
            intro opened hMore
            have hFresh :
                conv.recursiveUnpack child = .ok opened :=
              unpackVariant_of_unpackLevels hFewer hMore
            exact ⟨.variant child, rfl, hFresh⟩
        | _ => cases hBox
      · exact unpackLevels_opensTo hCodec (ih hFewer) hBox

/- Whether boxes are opened makes no difference up to them. -/
theorem unpackLevels_shallow
    (recursive : Bool)
    (levels : Nat)
    (v : Variant) :
    conv.unpackLevels false recursive levels v =
      conv.unpackLevels false false levels v := by
  cases levels with
  | zero => rfl
  | succ levels =>
      cases v with
      | arrayOf element children => cases element <;> rfl
      | _ => rfl

/-
  A recursive unpacking leaves no variant, and it is a deep
  unpacking with every variant that this leaves unpacked
  recursively. To open boxes has no effect on a shallow one.
-/
theorem openWith_recursiveUnpack_of_recursiveUnpack
    (conv : Conversion)
    (v : Variant) :
    (conv.codec.valueOfBytes = .bytes →
      ∀ value,
        conv.recursiveUnpack v = .ok value →
          value.variants = [] ∧
            ∃ deep,
              conv.deepUnpack v = .ok deep ∧
                (∀ w ∈ deep.variants,
                  ∃ opened,
                    conv.recursiveUnpack w = .ok opened) ∧
                deep.openWith conv.recursiveUnpack =
                  .ok value) ∧
      conv.unpackVariant v false true = conv.unpack v := by
  refine ⟨?_, unpackLevels_shallow true _ v⟩
  intro hCodec value hRecursive
  have hOpens :
      OpensTo conv.recursiveUnpack (conv.deepUnpack v)
        (conv.recursiveUnpack v) :=
    deep_opensTo_recursive hCodec (Nat.le_refl _) v
  rcases hOpens value hRecursive with ⟨deep, hDeep, hOpen⟩
  exact
    ⟨variants_of_unpackLevels hCodec hRecursive, deep, hDeep,
      Value.exists_unpacked_of_openWith hOpen, hOpen⟩

/- A box of a box in a maybe, and a dictionary with a box. -/
def boxesInside : Variant :=
  .tuple
    [.just (.boxed (.boxed (Variant.byte 1))),
      .arrayOf (.dictEntry (.text .string) .variant)
        [.entry (.text .string "k") (.boxed (.bytes [1]))]]

theorem openWith_recursiveUnpack_boxesInside :
    standard.recursiveUnpack boxesInside =
        .ok (.array [.int 1, .map [("k", .bytes [1])]]) ∧
      standard.deepUnpack boxesInside =
        .ok (.array
          [.variant (.boxed (Variant.byte 1)),
            .map [("k", .variant (.bytes [1]))]]) ∧
        (Value.array
            [.variant (.boxed (Variant.byte 1)),
              .map [("k", .variant (.bytes [1]))]]).openWith
            standard.recursiveUnpack =
          .ok (.array [.int 1, .map [("k", .bytes [1])]]) := by
  have hRecursive :
      standard.recursiveUnpack boxesInside =
        .ok (.array
          [.int 1, .map [("k", .bytes [1])]]) := by
    rfl
  rcases
      (openWith_recursiveUnpack_of_recursiveUnpack standard
        boxesInside).1 rfl _ hRecursive with
    ⟨_, deep, hDeep, _, hOpen⟩
  cases hDeep
  exact ⟨hRecursive, rfl, hOpen⟩

end Conversion

end GVariant
