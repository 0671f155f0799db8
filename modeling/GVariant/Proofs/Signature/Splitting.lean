import GVariant.Proofs.Signature.Grammar

/-
  Splitting a signature into its types.

  The type strings of any types in a row are split into
  these types, if none nests deeper than the default limit.
  Conversely, a signature that can be split is the type
  strings of what it was split into. The signatures are thus
  the rows of type strings, and no row can be cut in two
  ways.

  Main declarations:
    * `join_signature`
    * `Signature.readAll_charsAll`
    * `Signature.split_eq_ok_iff`
    * `Signature.split_join_and_join_split`
-/

------------------------------------------------------------
-- Rows Of Type Strings
------------------------------------------------------------

namespace GVariant

/- The type strings of some types in a row. -/
theorem join_signature
    (types : List Ty) :
    String.join (types.map Ty.signature) =
      String.ofList (Ty.charsAll types) := by
  induction types with
  | nil => rfl
  | cons type types ih =>
      rw [List.map_cons, String.join_cons, ih, Ty.signature,
        ← String.ofList_append, Ty.charsAll]

end GVariant

------------------------------------------------------------
-- Reading Rows
------------------------------------------------------------

namespace GVariant

namespace Signature

variable {types : List Ty}

/- A row of type strings is read to its end. -/
theorem readAll_charsAll
    {rounds : Nat}
    {r : Reader}
    (hNested : ∀ type ∈ types, type.nesting ≤ r.maxDepth)
    (hRounds : types.length ≤ rounds)
    (hRest : r.rest = Ty.charsAll types) :
    readAll rounds r = .ok types := by
  induction types generalizing rounds r with
  | nil =>
      have hEmpty : r.isEmpty = true := by
        rw [Reader.isEmpty, hRest]
        rfl
      cases rounds with
      | zero => rfl
      | succ rounds => rw [readAll, if_pos hEmpty]
  | cons type types ih =>
      rcases List.forall_mem_cons.mp hNested with
        ⟨hFirst, hOthers⟩
      cases rounds with
      | zero => cases hRounds
      | succ rounds =>
          have hOpen : ¬ r.isEmpty = true := by
            rcases type.chars_eq_cons with ⟨tail, hChars⟩
            simp [Reader.isEmpty, hRest, Ty.charsAll, hChars]
          have hRead :
              r.readType false =
                (.ok type,
                  r.after type.chars (Ty.charsAll types)) :=
            Reader.readType_eq_ok_iff.mpr
              ⟨⟨hRest, rfl⟩, hFirst, by simp⟩
          have hTail :
              readAll rounds
                  (r.after type.chars (Ty.charsAll types)) =
                .ok types :=
            ih hOthers (Nat.le_of_succ_le_succ hRounds) rfl
          rw [readAll, if_neg hOpen, hRead]
          dsimp only
          rw [hTail]

/- Each of the types that were read keeps the limit. -/
theorem nesting_le_of_readAll
    {rounds : Nat}
    {r : Reader}
    (hRead : readAll rounds r = .ok types) :
    ∀ type ∈ types, type.nesting ≤ r.maxDepth := by
  induction rounds generalizing r types with
  | zero =>
      cases hRead
      simp
  | succ rounds ih =>
      unfold readAll at hRead
      split at hRead
      · cases hRead
        simp
      · split at hRead
        · cases hRead
        · rename_i first r' hFirst
          split at hRead
          · cases hRead
          · rename_i others hOthers
            cases hRead
            rcases Reader.readType_eq_ok_iff.mp hFirst with
              ⟨hTook, hNested, _⟩
            have hAfter := ih hOthers
            rw [hTook.maxDepth_eq] at hAfter
            exact List.forall_mem_cons.mpr ⟨hNested, hAfter⟩

end Signature

end GVariant

------------------------------------------------------------
-- Splitting
------------------------------------------------------------

namespace GVariant

namespace Signature

/-
  A signature is split into the types whose type strings it
  is, and into no others.
-/
theorem split_eq_ok_iff
    {signature : String}
    {types : List Ty} :
    split signature = .ok types ↔
      signature = String.join (types.map Ty.signature) ∧
        ∀ type ∈ types, type.nesting ≤ defaultMaxDepth := by
  rw [join_signature]
  constructor
  · intro hSplit
    refine ⟨?_, nesting_le_of_readAll hSplit⟩
    rw [← eq_charsAll_of_split hSplit, String.ofList_toList]
  · rintro ⟨rfl, hNested⟩
    have hRest :
        (Reader.ofString
            (String.ofList (Ty.charsAll types))).rest =
          Ty.charsAll types :=
      String.toList_ofList
    refine readAll_charsAll hNested ?_ hRest
    rw [hRest]
    exact Ty.length_le_length_charsAll types

/- A text is a signature exactly if it can be split. -/
theorem isSignature_iff_exists_split
    {text : String} :
    isSignature text = true ↔
      ∃ types, split text = .ok types := by
  unfold isSignature
  cases split text <;> simp

/-
  The type strings of types within the default limit, put
  in a row, are split into these types and counted. Putting
  the parts of any signature in a row gives it back, and the
  signatures are exactly such rows.
-/
theorem split_join_and_join_split :
    (∀ types : List Ty,
        (∀ type ∈ types, type.nesting ≤ 64) →
          split (String.join (types.map Ty.signature)) =
              .ok types ∧
            length (String.join (types.map Ty.signature)) =
              .ok types.length) ∧
      (∀ signature types,
        split signature = .ok types →
          String.join (types.map Ty.signature) = signature) ∧
        ∀ text,
          isSignature text = true ↔
            ∃ types : List Ty,
              (∀ type ∈ types, type.nesting ≤ 64) ∧
                text = String.join (types.map Ty.signature) := by
  refine ⟨?_, ?_, ?_⟩
  · intro types hNested
    have hSplit :
        split (String.join (types.map Ty.signature)) =
          .ok types :=
      split_eq_ok_iff.mpr ⟨rfl, hNested⟩
    refine ⟨hSplit, ?_⟩
    rw [length, hSplit]
    rfl
  · intro signature types hSplit
    exact (split_eq_ok_iff.mp hSplit).1.symm
  · intro text
    rw [isSignature_iff_exists_split]
    refine exists_congr fun types => ?_
    rw [split_eq_ok_iff, and_comm]
    rfl

/-
  The empty tuple, arrays as deep as the limit, and a
  dictionary.
-/
def unitArraysVardict : List Ty :=
  [.unit, Nat.repeat Ty.array 64 .byte, .vardict]

theorem split_join_unitArraysVardict :
    (∀ type ∈ unitArraysVardict, type.nesting ≤ 64) ∧
      split
          (String.join
            (unitArraysVardict.map Ty.signature)) =
        .ok unitArraysVardict ∧
        length
            (String.join
              (unitArraysVardict.map Ty.signature)) =
          .ok 3 := by
  have hNested :
      ∀ type ∈ unitArraysVardict, type.nesting ≤ 64 := by
    decide
  rcases split_join_and_join_split.1 unitArraysVardict
      hNested with
    ⟨hSplit, hLength⟩
  exact ⟨hNested, hSplit, hLength⟩

end Signature

end GVariant
