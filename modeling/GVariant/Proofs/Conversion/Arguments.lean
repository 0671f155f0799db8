import GVariant.Proofs.Conversion.ByType
import GVariant.Proofs.Signature.Splitting

/-
  Packing a list of arguments.

  The arguments of a call are packed one at a time from one
  reader over the types of all of them. Every argument
  follows its own type and takes no more than that type from
  the reader, so this is the same as packing each argument
  by its own signature, up to the first failure.

  Key definitions include:
    * `Conversion.packInTurn`
    * `Conversion.packApart`

  Main declarations:
    * `Conversion.packInTurn_cons`
    * `Conversion.map_fst_packInTurn`
    * `Conversion.eq_after_of_packInTurn`
    * `Conversion.packInTurn_eq_packApart`
-/

------------------------------------------------------------
-- Arguments
------------------------------------------------------------

namespace GVariant

namespace Conversion

/-
  Pack values one at a time from one reader. Every call is
  listed with the reader that it left; none is made after
  the first failure.
-/
def packInTurn (conv : Conversion) :
    List Value → Reader → List (Step Variant)
| [], _ => []
| value :: values, r =>
    match conv.packNext value r with
    | (.error e, r') => [(.error e, r')]
    | (.ok v, r') => (.ok v, r') :: packInTurn conv values r'

/-
  Pack values by the signatures of their types, each on its
  own, up to the first failure.
-/
def packApart (conv : Conversion) :
    List (Ty × Value) → List (Except Error Variant)
| [] => []
| (type, value) :: args =>
    match conv.packAs type.signature value with
    | .error e => [.error e]
    | .ok v => .ok v :: packApart conv args

end Conversion

end GVariant

------------------------------------------------------------
-- One Argument
------------------------------------------------------------

namespace GVariant

namespace Conversion

variable {conv : Conversion}
variable {type : Ty}
variable {r : Reader}
variable {rest : List Char}

/-
  One argument at its type gives what it gives by its own
  signature. On success the reader is behind the type.
-/
theorem packNext_at_type
    (value : Value)
    (hRest : r.rest = type.chars ++ rest)
    (hMax : r.maxDepth = conv.maxDepth)
    (hNested : type.nesting ≤ conv.maxDepth) :
    (conv.packNext value r).1 =
        conv.packAs type.signature value ∧
      ∀ v r',
        conv.packNext value r = (.ok v, r') →
          r' = r.after type.chars rest := by
  constructor
  · rw [packAs_signature_eq value hNested]
    exact fst_packNext value hRest (hMax.symm ▸ hNested) hNested
  · intro v r' hPack
    exact (eq_after_of_pack hPack hRest).2

/- The first of the calls, and what it leaves to the others. -/
theorem packInTurn_cons
    (value : Value)
    (values : List Value)
    (hRest : r.rest = type.chars ++ rest)
    (hMax : r.maxDepth = conv.maxDepth)
    (hNested : type.nesting ≤ conv.maxDepth) :
    (∃ e r',
        conv.packAs type.signature value = .error e ∧
          conv.packInTurn (value :: values) r =
            [(.error e, r')]) ∨
      ∃ v,
        conv.packAs type.signature value = .ok v ∧
          conv.packInTurn (value :: values) r =
            (.ok v, r.after type.chars rest) ::
              conv.packInTurn values
                (r.after type.chars rest) := by
  rcases packNext_at_type value hRest hMax hNested with
    ⟨hResult, hAfter⟩
  rcases hPack : conv.packNext value r with ⟨result, r'⟩
  rw [hPack] at hResult
  cases result with
  | error e =>
      left
      exact ⟨e, r', hResult.symm, by rw [packInTurn, hPack]⟩
  | ok v =>
      right
      have hBehind := hAfter v r' hPack
      subst hBehind
      exact ⟨v, hResult.symm, by rw [packInTurn, hPack]⟩

end Conversion

end GVariant

------------------------------------------------------------
-- All Arguments
------------------------------------------------------------

namespace GVariant

namespace Conversion

variable {conv : Conversion}
variable {args : List (Ty × Value)}
variable {r : Reader}

/- The results are those of packing every argument apart. -/
theorem map_fst_packInTurn
    (hNested : ∀ arg ∈ args, arg.1.nesting ≤ conv.maxDepth)
    (hRest : r.rest = Ty.charsAll (args.map Prod.fst))
    (hMax : r.maxDepth = conv.maxDepth) :
    (conv.packInTurn (args.map Prod.snd) r).map Prod.fst =
      conv.packApart args := by
  induction args generalizing r with
  | nil => rfl
  | cons arg args ih =>
      rcases List.forall_mem_cons.mp hNested with
        ⟨hFirst, hOthers⟩
      rw [List.map_cons, packApart]
      rcases
          packInTurn_cons arg.2 (args.map Prod.snd) hRest hMax
            hFirst with
        ⟨e, r', hApart, hTurn⟩ | ⟨v, hApart, hTurn⟩
      · rw [hApart, hTurn]
        rfl
      · have hRest' :=
          ih hOthers (r := r.after arg.1.chars _) rfl hMax
        rw [hApart, hTurn, List.map_cons, hRest']

/- After every success the reader is behind its argument. -/
theorem eq_after_of_packInTurn
    (hNested : ∀ arg ∈ args, arg.1.nesting ≤ conv.maxDepth)
    (hRest : r.rest = Ty.charsAll (args.map Prod.fst))
    (hMax : r.maxDepth = conv.maxDepth)
    {index : Nat}
    {v : Variant}
    {r' : Reader}
    (hCall :
      (conv.packInTurn (args.map Prod.snd) r)[index]? =
        some (.ok v, r')) :
    r' =
      r.after
        (Ty.charsAll ((args.map Prod.fst).take (index + 1)))
        (Ty.charsAll
          ((args.map Prod.fst).drop (index + 1))) := by
  induction args generalizing r index with
  | nil => cases hCall
  | cons arg args ih =>
      rcases List.forall_mem_cons.mp hNested with
        ⟨hFirst, hOthers⟩
      rw [List.map_cons] at hCall
      rcases
          packInTurn_cons arg.2 (args.map Prod.snd) hRest hMax
            hFirst with
        ⟨e, s, _, hTurn⟩ | ⟨w, _, hTurn⟩
      · rw [hTurn] at hCall
        cases index <;> cases hCall
      · rw [hTurn] at hCall
        cases index with
        | zero =>
            cases hCall
            simp [Ty.charsAll]
        | succ index =>
            have hBehind :=
              ih hOthers (r := r.after arg.1.chars _) rfl hMax
                hCall
            rw [Reader.after_after] at hBehind
            simpa [Ty.charsAll] using hBehind

/- Type strings take one byte for each character. -/
theorem utf8ByteSize_join_signature
    (types : List Ty) :
    (String.join (types.map Ty.signature)).utf8ByteSize =
      (Ty.charsAll types).length := by
  rw [join_signature]
  exact
    utf8ByteSize_ofList fun c hMem =>
      (Ty.charsAll_ascii types c hMem).2

/-
  Arguments that are packed in turn, from one reader over
  the type strings of all of them, give what they give apart,
  up to and with the first failure. After every success the
  reader is at the start of the next type, and it is empty
  after the last one.
-/
theorem packInTurn_eq_packApart
    (conv : Conversion)
    {args : List (Ty × Value)}
    (hNested : ∀ arg ∈ args, arg.1.nesting ≤ conv.maxDepth) :
    let types := args.map Prod.fst
    let calls :=
      conv.packInTurn (args.map Prod.snd)
        (.ofString (String.join (types.map Ty.signature))
          conv.maxDepth)
    calls.map Prod.fst = conv.packApart args ∧
      ∀ index v r',
        calls[index]? = some (.ok v, r') →
          r'.remaining =
              String.join
                ((types.drop (index + 1)).map Ty.signature) ∧
            r'.position =
                (String.join
                  ((types.take (index + 1)).map
                    Ty.signature)).utf8ByteSize ∧
              r'.maxDepth = conv.maxDepth ∧
                (index + 1 = args.length →
                  r'.isEmpty = true) := by
  intro types calls
  have hRest :
      (Reader.ofString (String.join (types.map Ty.signature))
          conv.maxDepth).rest =
        Ty.charsAll types := by
    rw [join_signature]
    exact String.toList_ofList
  refine ⟨map_fst_packInTurn hNested hRest rfl, ?_⟩
  intro index v r' hCall
  have hAfter :=
    eq_after_of_packInTurn hNested hRest rfl hCall
  subst hAfter
  refine ⟨?_, ?_, rfl, ?_⟩
  · rw [Reader.remaining, Reader.rest_after, join_signature]
  · rw [utf8ByteSize_join_signature]
    exact Nat.zero_add _
  · intro hLast
    have hNone :
        (args.map Prod.fst).drop (index + 1) = [] := by
      rw [hLast, ← List.length_map, List.drop_length]
    rw [Reader.isEmpty, Reader.rest_after, hNone]
    rfl

/-
  Surplus items are no part of the pair, and the pair of a
  missing item is not completed from the type behind it.
-/
def pairsAndNumber : List (Ty × Value) :=
  [(.maybe (.int .int32), .null),
    (.tuple [.string, .boolean],
      .array [.string "a", .bool true, .int 7]),
    (.tuple [.string, .boolean], .array [.string "b"]),
    (.int .uint32, .int 7)]

theorem packInTurn_pairsAndNumber :
    let conv : Conversion := { maxDepth := 1 }
    let calls :=
      conv.packInTurn (pairsAndNumber.map Prod.snd)
        (.ofString "mi(sb)(sb)u" 1)
    calls.map Prod.fst = conv.packApart pairsAndNumber ∧
      conv.packApart pairsAndNumber =
          [.ok (.nothing (.int .int32)),
            .ok
              (.tuple
                [.scalar (.text .string "a"),
                  .boolean true]),
            .error
              (.typeMismatch "a tuple member of type 'b'"
                "end of array")] ∧
        ∃ v r',
          calls[1]? = some (.ok v, r') ∧
            r'.remaining = "(sb)u" ∧ r'.position = 6 := by
  intro conv calls
  have hNested :
      ∀ arg ∈ pairsAndNumber,
        arg.1.nesting ≤ conv.maxDepth := by
    decide
  have hText :
      String.join
          ((pairsAndNumber.map Prod.fst).map Ty.signature) =
        "mi(sb)(sb)u" := by
    rfl
  have hReader :
      Reader.ofString "mi(sb)(sb)u" 1 =
        .ofChars
          ['m', 'i', '(', 's', 'b', ')', '(', 's', 'b', ')',
            'u']
          1 := by
    rfl
  rcases packInTurn_eq_packApart conv hNested with
    ⟨hResults, hAfter⟩
  rw [hText] at hResults hAfter
  have hPair :
      calls[1]? =
        some
          (.ok
            (.tuple
              [.scalar (.text .string "a"), .boolean true]),
            ⟨['(', 's', 'b', ')', 'u'], 6, 1⟩) := by
    simp only [calls, hReader]
    rfl
  rcases hAfter 1 _ _ hPair with ⟨hRemaining, hPosition, _⟩
  refine ⟨hResults, ?_, _, _, hPair, ?_, hPosition⟩
  · rw [← hResults, hReader]
    rfl
  · rw [hRemaining]
    rfl

end Conversion

end GVariant
