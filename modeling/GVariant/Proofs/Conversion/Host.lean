import GVariant.Proofs.Conversion.Containers

/-
  The host value of a variant, without a limit.

  A deep unpacking that stops at boxes has a result that
  depends on the limit only in whether it is reached. With
  more levels than the type of the variant nests, the result
  is the host value that is defined here by recursion on the
  variant.

  Key definitions include:
    * `Codec.host`
    * `Codec.hostPairs`
    * `Conversion.Unpacks`

  Main declarations:
    * `Conversion.unpackEntries_eq_host`
    * `Conversion.unpacks_of_wellTyped`
    * `Conversion.deepUnpack_eq_host`
-/

------------------------------------------------------------
-- Host Values Of Variants
------------------------------------------------------------

namespace GVariant

namespace Codec

mutual

/- The host value of a variant. Boxes are left closed. -/
def host (codec : Codec) : Variant → Value
| .scalar value => value.toValue
| .boxed child => .variant child
| .nothing _ => .null
| .just child => host codec child
| .bytes content => codec.valueOfBytes content
| .arrayOf (.dictEntry _ _) entries =>
    .map (Entries.ofList (hostPairs codec entries))
| .arrayOf _ children => .array (hostAll codec children)
| .tuple children => .array (hostAll codec children)
| .entry key value => .array [key.toValue, host codec value]

/- The host values of several variants. -/
def hostAll (codec : Codec) : List Variant → List Value
| [] => []
| child :: children =>
    host codec child :: hostAll codec children

/- The keys and the host values of entries, in order. -/
def hostPairs
    (codec : Codec) :
    List Variant → List (String × Value)
| [] => []
| .entry key value :: entries =>
    (key.keyText, host codec value) ::
      hostPairs codec entries
| _ :: entries => hostPairs codec entries

end

theorem hostAll_eq_map
    (codec : Codec)
    (children : List Variant) :
    hostAll codec children = children.map codec.host := by
  induction children with
  | nil => rfl
  | cons child children ih => simp [hostAll, ih]

/- An array other than a dictionary becomes an array. -/
theorem host_arrayOf
    (codec : Codec)
    {element : Ty}
    (hElement : element.cls ≠ .dictEntry)
    (children : List Variant) :
    codec.host (.arrayOf element children) =
      .array (children.map codec.host) := by
  rw [← hostAll_eq_map]
  cases element with
  | dictEntry key value => exact absurd rfl hElement
  | _ => rfl

end Codec

end GVariant

------------------------------------------------------------
-- Unpacking
------------------------------------------------------------

namespace GVariant

/- The type of a member nests less than that of its tuple. -/
theorem Variant.nesting_type_lt_of_mem_tuple
    {child : Variant}
    {children : List Variant}
    (hMem : child ∈ children) :
    child.type.nesting < (tuple children).type.nesting := by
  have hItem : child.type ∈ typeAll children := by
    rw [typeAll_eq_map]
    exact List.mem_map_of_mem hMem
  exact
    (Ty.nestingAll_lt_iff (typeAll children)).mp
      (Nat.lt_succ_self _) child.type hItem

namespace Conversion

variable {inside : Variant → Prop}
variable {conv : Conversion}

/-
  Any number of levels beyond those of its type suffices to
  unpack a variant to its host value.
-/
def Unpacks (conv : Conversion) (v : Variant) : Prop :=
  ∀ levels,
    v.type.nesting < levels →
      conv.unpackLevels true false levels v =
        .ok (conv.codec.host v)

/- A list of members is unpacked to an array. -/
theorem unpackItems_eq_host
    {levels : Nat}
    {children : List Variant}
    (hNested : ∀ child ∈ children, child.type.nesting < levels)
    (hChildren : ∀ child ∈ children, conv.Unpacks child) :
    unpackItems (conv.unpackLevels true false levels)
        children =
      .ok (.array (children.map conv.codec.host)) := by
  have hEach :
      ∀ child ∈ children,
        conv.unpackLevels true false levels child =
          .ok (conv.codec.host child) := by
    intro child hMem
    exact hChildren child hMem levels (hNested child hMem)
  rw [unpackItems, mapM_eq_ok_map hEach]

/-
  The entries of a dictionary are put into the map one after
  another. Their values have as many levels as they have.
-/
theorem unpackEntries_eq_host
    {levels : Nat}
    {key : BasicType}
    {type : Ty}
    (hNested : type.nesting < levels)
    {entries : List Variant}
    (hTypes :
      ∀ entry ∈ entries, entry.type = .dictEntry key type)
    (hValues :
      ∀ name value,
        .entry name value ∈ entries → conv.Unpacks value) :
    conv.unpackEntries levels
        (conv.unpackLevels true false levels) entries =
      .ok (conv.codec.host
        (.arrayOf (.dictEntry key type) entries)) := by
  have hLevels : levels ≠ 0 := Nat.ne_zero_of_lt hNested
  apply unpackEntries_eq_ok_iff.mpr
  refine ⟨conv.codec.hostPairs entries, ?_, rfl⟩
  induction entries with
  | nil => exact .nil
  | cons entry entries ih =>
      rcases List.forall_mem_cons.mp hTypes with
        ⟨hType, hTypes'⟩
      cases entry with
      | entry name value =>
          cases hType
          have hValue :=
            hValues name value (by simp) levels hNested
          have hOthers :=
            ih hTypes'
              (fun name value hMem =>
                hValues name value
                  (List.mem_cons_of_mem _ hMem))
          exact
            .cons ⟨name, value, rfl, hLevels, rfl, hValue⟩
              hOthers
      | _ => cases hType

/-
  An array is unpacked if its elements are. A dictionary
  skips the level of its entries and unpacks their values.
-/
theorem unpacks_arrayOf
    {element : Ty}
    {children : List Variant}
    (hTypes : ∀ child ∈ children, child.type = element)
    (hChildren : ∀ child ∈ children, conv.Unpacks child)
    (hValues :
      ∀ name value,
        .entry name value ∈ children → conv.Unpacks value) :
    conv.Unpacks (.arrayOf element children) := by
  intro levels hLevels
  cases levels with
  | zero => cases hLevels
  | succ levels =>
      have hNested : element.nesting < levels :=
        Nat.lt_of_succ_lt_succ hLevels
      have hEach :
          ∀ child ∈ children, child.type.nesting < levels := by
        intro child hMem
        rw [hTypes child hMem]
        exact hNested
      cases element with
      | dictEntry key type =>
          have hValue : type.nesting < levels :=
            Nat.lt_of_succ_lt hNested
          exact unpackEntries_eq_host hValue hTypes hValues
      | _ =>
          rw [Codec.host_arrayOf _ (by simp [Ty.cls])]
          exact unpackItems_eq_host hEach hChildren

/- A tuple is unpacked if its members are. -/
theorem unpacks_tuple
    {children : List Variant}
    (hChildren : ∀ child ∈ children, conv.Unpacks child) :
    conv.Unpacks (.tuple children) := by
  intro levels hLevels
  cases levels with
  | zero => cases hLevels
  | succ levels =>
      have hNested :
          ∀ child ∈ children, child.type.nesting < levels := by
        intro child hMem
        exact
          Nat.lt_of_lt_of_le
            (Variant.nesting_type_lt_of_mem_tuple hMem)
            (Nat.le_of_lt_succ hLevels)
      rw [Codec.host, Codec.hostAll_eq_map]
      exact unpackItems_eq_host hNested hChildren

/- An entry is unpacked if its value is. -/
theorem unpacks_entry
    {key : Scalar}
    {value : Variant}
    (hValue : conv.Unpacks value) :
    conv.Unpacks (.entry key value) := by
  intro levels hLevels
  cases levels with
  | zero => cases hLevels
  | succ levels =>
      have hNested : value.type.nesting < levels :=
        Nat.lt_of_succ_lt_succ hLevels
      have hKey : conv.Unpacks (.scalar key) := by
        intro levels hLevels
        cases levels with
        | zero => cases hLevels
        | succ levels => rfl
      have hEach :
          ∀ child ∈ [.scalar key, value],
            child.type.nesting < levels := by
        simp only [List.forall_mem_cons, List.not_mem_nil,
          false_implies, implies_true, and_true]
        exact ⟨Nat.zero_lt_of_lt hNested, hNested⟩
      have hChildren :
          ∀ child ∈ [.scalar key, value],
            conv.Unpacks child := by
        simp only [List.forall_mem_cons, List.not_mem_nil,
          false_implies, implies_true, and_true]
        exact ⟨hKey, hValue⟩
      exact unpackItems_eq_host hEach hChildren

/-
  Every variant is unpacked to its host value. The induction
  carries the values of entries along, since a dictionary
  unpacks them in place of its entries.
-/
theorem unpacks_of_wellTyped
    {v : Variant}
    (hTyped : v.WellTyped inside) :
    conv.Unpacks v := by
  induction v using Variant.induction_values with
  | just child ih =>
      intro levels hLevels
      cases levels with
      | zero => cases hLevels
      | succ levels =>
          exact
            ih hTyped levels (Nat.lt_of_succ_lt_succ hLevels)
  | arrayOf element children ih ihValues =>
      have hChildren :=
        (Variant.wellTypedAll_iff inside children).mp
          hTyped.2.2
      refine unpacks_arrayOf hTyped.2.1 ?_ ?_
      · intro child hMem
        exact ih child hMem (hChildren child hMem)
      · intro name value hMem
        exact ihValues name value hMem (hChildren _ hMem).2
  | tuple children ih =>
      have hChildren :=
        (Variant.wellTypedAll_iff inside children).mp hTyped
      refine unpacks_tuple ?_
      intro child hMem
      exact ih child hMem (hChildren child hMem)
  | entry key value ih => exact unpacks_entry (ih hTyped.2)
  | _ =>
      intro levels hLevels
      cases levels with
      | zero => cases hLevels
      | succ levels => rfl

/-
  A variant whose type keeps the limit is deeply unpacked to
  its host value.
-/
theorem deepUnpack_eq_host
    {v : Variant}
    (hTyped : v.WellTyped inside)
    (hLimit : v.type.nesting ≤ conv.maxDepth) :
    conv.deepUnpack v = .ok (conv.codec.host v) :=
  unpacks_of_wellTyped hTyped (conv.maxDepth + 1)
    (Nat.lt_succ_of_le hLimit)

end Conversion

end GVariant
