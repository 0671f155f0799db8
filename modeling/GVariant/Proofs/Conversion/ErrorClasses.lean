import GVariant.Proofs.Conversion.ByType

/-
  Errors of signatures and errors of values do not mix.

  A reader fails only because of the signature. By a
  signature of one single complete type within the limit,
  packing fails only because of the value. It then follows
  the type, and what is packed by a type has no signature to
  be at fault.

  Key definitions include:
    * `Error.IsValueError`
    * `Step.Fails`
    * `Codec.Blames`

  Main declarations:
    * `Reader.isSignatureError_of_readWhole`
    * `Value.isValueError_of_packBasic`
    * `Codec.blames`
    * `Conversion.packAs_error_iff_not_isSingleType`
-/

------------------------------------------------------------
-- Causes
------------------------------------------------------------

namespace GVariant

namespace Error

/- Whether a value that is not of its type is the cause. -/
def IsValueError : Error → Prop
| .typeMismatch _ _ => True
| .outOfRange _ _ => True
| .invalidObjectPath _ => True
| .invalidSignatureString _ => True
| .invalidString _ => True
| _ => False

/- An error of a value is no error of a signature. -/
theorem IsValueError.isSignatureError_eq
    {e : Error}
    (hValue : e.IsValueError) :
    e.isSignatureError = false := by
  cases e <;> first | rfl | cases hValue

end Error

/- A step fails, if it does, for a cause. -/
def Step.Fails
    {α : Type}
    (step : Step α)
    (cause : Error → Prop) : Prop :=
  ∀ e r, step = (.error e, r) → cause e

/- A list of results fails at one of its items. -/
theorem exists_error_of_mapM
    {α β : Type}
    {f : α → Except Error β}
    {items : List α}
    {e : Error}
    (hMap : items.mapM f = .error e) :
    ∃ item ∈ items, f item = .error e := by
  induction items with
  | nil => cases hMap
  | cons item items ih =>
      rw [List.mapM_cons] at hMap
      cases hFirst : f item with
      | error e' =>
          rw [hFirst] at hMap
          cases hMap
          exact ⟨item, by simp, hFirst⟩
      | ok first =>
          rw [hFirst] at hMap
          cases hRest : items.mapM f with
          | error e' =>
              simp only [hRest] at hMap
              cases hMap
              rcases ih hRest with ⟨other, hMem, hOther⟩
              exact ⟨other, by simp [hMem], hOther⟩
          | ok rest =>
              simp only [hRest] at hMap
              cases hMap

end GVariant

------------------------------------------------------------
-- Readers Fail Because Of The Signature
------------------------------------------------------------

namespace GVariant

namespace Reader

theorem readBasic_fails
    (levels : Nat)
    (r : Reader) :
    (readBasic levels r).Fails (·.isSignatureError) := by
  intro e r' hRead
  unfold readBasic at hRead
  split at hRead
  · cases hRead
    rfl
  · split at hRead
    · cases hRead
      rfl
    · split at hRead
      · cases hRead
      · cases hRead
        rfl

theorem closeEntry_fails
    (r : Reader) :
    r.closeEntry.Fails (·.isSignatureError) := by
  intro e r' hClose
  unfold closeEntry at hClose
  split at hClose
  · cases hClose
  · cases hClose
    rfl

theorem readMembers_fails
    {readMember : Reader → Step Ty}
    (hMember :
      ∀ r, (readMember r).Fails (·.isSignatureError))
    (rounds : Nat)
    (r : Reader) :
    (readMembers readMember rounds r).Fails
      (·.isSignatureError) := by
  induction rounds generalizing r with
  | zero =>
      intro e r' hRead
      cases hRead
      rfl
  | succ rounds ih =>
      intro e r' hRead
      unfold readMembers at hRead
      split at hRead
      · cases hRead
        rfl
      · cases hRead
      · split at hRead
        · rename_i hFirst
          cases hRead
          exact hMember r _ _ hFirst
        · split at hRead
          · rename_i hRest
            cases hRead
            exact ih _ _ _ hRest
          · cases hRead

/- Reading a type fails because of the signature. -/
theorem read_fails
    (levels : Nat)
    (r : Reader) :
    (read levels r).Fails (·.isSignatureError) := by
  induction levels generalizing r with
  | zero =>
      intro e r' hRead
      cases hRead
      rfl
  | succ levels ih =>
      intro e r' hRead
      unfold read at hRead
      split at hRead
      · cases hRead
        rfl
      · split at hRead
        · cases hRead
          rfl
        · cases hRead
        · cases hRead
        · split at hRead
          · rename_i hElement
            cases hRead
            exact ih _ _ _ hElement
          · cases hRead
        · split at hRead
          · rename_i hElement
            cases hRead
            exact ih _ _ _ hElement
          · cases hRead
        · split at hRead
          · rename_i hItems
            cases hRead
            exact readMembers_fails ih _ _ _ _ hItems
          · cases hRead
        · split at hRead
          · rename_i hKey
            cases hRead
            exact readBasic_fails _ _ _ _ hKey
          · split at hRead
            · rename_i hValue
              cases hRead
              exact ih _ _ _ hValue
            · split at hRead
              · rename_i hClose
                cases hRead
                exact closeEntry_fails _ _ _ hClose
              · cases hRead

/- A text that is not read as a whole is at fault itself. -/
theorem isSignatureError_of_readWhole
    {r : Reader}
    {e : Error}
    (hRead : r.readWhole = .error e) :
    e.isSignatureError := by
  unfold readWhole at hRead
  split at hRead
  · rename_i hType
    cases hRead
    exact read_fails _ _ _ _ hType
  · split at hRead
    · rename_i hEnd
      cases hRead
      unfold expectEnd at hEnd
      split at hEnd
      · cases hEnd
      · cases hEnd
        rfl
    · cases hRead

end Reader

end GVariant

------------------------------------------------------------
-- Scalars And Arrays Without Items
------------------------------------------------------------

namespace GVariant

namespace Value

/- A value that is no string is of another kind. -/
theorem isValueError_of_toString
    {value : Value}
    {e : Error}
    (hString : value.toString = .error e) :
    e.IsValueError := by
  unfold toString at hString
  split at hString
  · cases hString
  · cases hString
    exact True.intro

/- A value that is no integer of a kind. -/
theorem isValueError_of_toInteger
    {value : Value}
    {kind : IntKind}
    {e : Error}
    (hInteger : value.toInteger kind = .error e) :
    e.IsValueError := by
  have hTaken :
      ∀ {n : Int},
        value.takeInteger kind n = .error e →
          e.IsValueError := by
    intro n hTaken
    rcases takeInteger_eq_error_iff.mp hTaken with ⟨_, rfl⟩
    exact True.intro
  unfold toInteger at hInteger
  split at hInteger
  · exact hTaken hInteger
  · exact hTaken hInteger
  · split at hInteger
    · split at hInteger
      · exact hTaken hInteger
      · split at hInteger
        · exact hTaken hInteger
        · cases hInteger
          exact True.intro
    · cases hInteger
      exact True.intro
  · cases hInteger
    exact True.intro

end Value

/- A text that its kind does not admit. -/
theorem Variant.isValueError_of_text
    {kind : TextKind}
    {text : String}
    {e : Error}
    (hText : Variant.text kind text = .error e) :
    e.IsValueError := by
  cases kind with
  | string =>
      simp only [Variant.text, Variant.string] at hText
      split at hText
      · cases hText
        exact True.intro
      · cases hText
  | objectPath =>
      simp only [Variant.text, Variant.objectPath] at hText
      split at hText
      · cases hText
      · cases hText
        exact True.intro
  | signature =>
      simp only [Variant.text, Variant.signature] at hText
      split at hText
      · cases hText
      · cases hText
        exact True.intro

/- A child that is not of the element type. -/
theorem Variant.isValueError_of_array
    {element : Ty}
    {children : List Variant}
    {e : Error}
    (hArray : Variant.array element children = .error e) :
    e.IsValueError := by
  unfold Variant.array at hArray
  split at hArray
  · cases hArray
    exact True.intro
  · split at hArray <;> cases hArray

namespace Value

/- A value that is no scalar of a type. -/
theorem isValueError_of_packBasic
    {value : Value}
    {type : BasicType}
    {e : Error}
    (hPack : value.packBasic type = .error e) :
    e.IsValueError := by
  cases type with
  | boolean =>
      cases value <;> cases hPack <;> exact True.intro
  | int kind =>
      simp only [packBasic] at hPack
      cases hInteger : value.toInteger kind with
      | error e' =>
          rw [hInteger] at hPack
          cases hPack
          exact isValueError_of_toInteger hInteger
      | ok n =>
          rw [hInteger] at hPack
          cases hPack
  | double =>
      simp only [packBasic, toDouble] at hPack
      split at hPack
      · cases hPack
      · cases hPack
        exact True.intro
  | text kind =>
      simp only [packBasic] at hPack
      split at hPack
      · rename_i hString
        cases hPack
        exact isValueError_of_toString hString
      · exact Variant.isValueError_of_text hPack

/- A key that is no text of its type. -/
theorem isValueError_of_parseKey
    {key : String}
    {type : BasicType}
    {e : Error}
    (hParse : parseKey key type = .error e) :
    e.IsValueError := by
  unfold parseKey at hParse
  simp only at hParse
  split at hParse
  · cases hParse
  · cases hParse
    exact True.intro

end Value

namespace Conversion

/- A value that is no array of bytes, strings or entries. -/
theorem isValueError_of_packPlainArray
    {conv : Conversion}
    {element : Ty}
    {value : Value}
    {e : Error}
    (hPack : conv.packPlainArray element value = .error e) :
    e.IsValueError := by
  unfold packPlainArray at hPack
  split at hPack
  · unfold packBytes at hPack
    split at hPack
    · cases hPack
    · cases hPack
    · split at hPack
      · rename_i hMap
        cases hPack
        rcases exists_error_of_mapM hMap with ⟨_, _, hItem⟩
        exact Value.isValueError_of_toInteger hItem
      · cases hPack
    · cases hPack
      exact True.intro
  · split at hPack
    · unfold packStrings at hPack
      split at hPack
      · rename_i hItems
        cases hPack
        unfold Value.toItems at hItems
        split at hItems
        · cases hItems
        · cases hItems
          exact True.intro
      · split at hPack
        · rename_i hMap
          cases hPack
          rcases exists_error_of_mapM hMap with ⟨_, _, hItem⟩
          exact Value.isValueError_of_toString hItem
        · unfold Variant.strings at hPack
          split at hPack
          · rename_i hMap
            cases hPack
            rcases exists_error_of_mapM hMap with
              ⟨text, _, hItem⟩
            have hText :
                Variant.text .string text = .error e := hItem
            exact Variant.isValueError_of_text hText
          · cases hPack
    · split at hPack
      · cases hPack
        exact True.intro
      · cases hPack
        exact True.intro

end Conversion

end GVariant

------------------------------------------------------------
-- Packing By A Type
------------------------------------------------------------

namespace GVariant

namespace Ty

/- Through maybes a function fails at what is in them. -/
theorem exists_error_of_throughMaybes
    {inner : Ty → Except Error Variant}
    {type : Ty}
    {e : Error}
    (hThrough : type.throughMaybes inner = .error e) :
    ∃ content, inner content = .error e := by
  induction type with
  | maybe element ih =>
      apply ih
      rw [throughMaybes] at hThrough
      cases hInner : element.throughMaybes inner with
      | error e' =>
          rw [hInner] at hThrough
          exact hThrough
      | ok v =>
          rw [hInner] at hThrough
          cases hThrough
  | _ => exact ⟨_, hThrough⟩

end Ty

namespace Codec

/-
  By every type, packing the value fails only because of a
  value.
-/
def Blames (codec : Codec) (value : Value) : Prop :=
  ∀ type e,
    codec.variantOf value type = .error e → e.IsValueError

variable {codec : Codec}

/- A value without items is to blame. -/
theorem isValueError_of_leafOf
    {value : Value}
    {type : Ty}
    {e : Error}
    (hPack : codec.leafOf value type = .error e) :
    e.IsValueError := by
  cases type with
  | basic type => exact Value.isValueError_of_packBasic hPack
  | «variant» =>
      simp only [leafOf] at hPack
      split at hPack <;> cases hPack
      exact True.intro
  | maybe element => cases hPack
  | array element =>
      exact Conversion.isValueError_of_packPlainArray hPack
  | tuple types =>
      cases hPack
      exact True.intro
  | dictEntry key value =>
      cases hPack
      exact True.intro

/- Members are to blame if every item is. -/
theorem isValueError_of_membersOf
    {items : List Value}
    (hItems : ∀ item ∈ items, codec.Blames item)
    {types : List Ty}
    {e : Error}
    (hPack : codec.membersOf items types = .error e) :
    e.IsValueError := by
  induction types generalizing items with
  | nil => cases items <;> cases hPack
  | cons type types ih =>
      cases items with
      | nil =>
          cases hPack
          exact True.intro
      | cons item items =>
          rcases List.forall_mem_cons.mp hItems with
            ⟨hItem, hItems'⟩
          rw [membersOf] at hPack
          cases hFirst : codec.variantOf item type with
          | error e' =>
              rw [hFirst] at hPack
              cases hPack
              exact hItem type e hFirst
          | ok child =>
              rw [hFirst] at hPack
              cases hOthers : codec.membersOf items types with
              | error e' =>
                  rw [hOthers] at hPack
                  cases hPack
                  exact ih hItems' hOthers
              | ok children =>
                  rw [hOthers] at hPack
                  cases hPack

/- Elements are to blame if every item is. -/
theorem isValueError_of_elementsOf
    {items : List Value}
    (hItems : ∀ item ∈ items, codec.Blames item)
    {element : Ty}
    {e : Error}
    (hPack : codec.elementsOf items element = .error e) :
    e.IsValueError := by
  rw [elementsOf_eq_mapM] at hPack
  rcases exists_error_of_mapM hPack with
    ⟨item, hMem, hItem⟩
  exact hItems item hMem element e hItem

/- An entry is to blame for its key or its value. -/
theorem isValueError_of_entryOf
    {key : Value}
    {type : BasicType}
    {packed : Except Error Variant}
    (hPacked : ∀ e, packed = .error e → e.IsValueError)
    {e : Error}
    (hPack : entryOf key type packed = .error e) :
    e.IsValueError := by
  unfold entryOf at hPack
  cases hBasic : key.packBasic type with
  | error e' =>
      rw [hBasic] at hPack
      cases hPack
      exact Value.isValueError_of_packBasic hBasic
  | ok packedKey =>
      rcases Value.exists_of_packBasic hBasic with
        ⟨s, rfl, _, _⟩
      rw [hBasic] at hPack
      cases packed with
      | error e' =>
          cases hPack
          exact hPacked e rfl
      | ok value => cases hPack

/- Two items are packed as an entry, others are to blame. -/
theorem isValueError_of_pairOf
    {items : List Value}
    (hItems : ∀ item ∈ items, codec.Blames item)
    {keyType : BasicType}
    {type : Ty}
    {e : Error}
    (hPack : codec.pairOf items keyType type = .error e) :
    e.IsValueError := by
  match items with
  | [] =>
      cases hPack
      exact True.intro
  | [_] =>
      cases hPack
      exact True.intro
  | [key, value] =>
      have hValue := hItems value (by simp)
      exact isValueError_of_entryOf (hValue type) hPack
  | _ :: _ :: _ :: _ =>
      cases hPack
      exact True.intro

/- Entries of a map are to blame for a key or a value. -/
theorem isValueError_of_entriesOf
    {entries : List (String × Value)}
    (hEntries : ∀ entry ∈ entries, codec.Blames entry.2)
    {key : BasicType}
    {type : Ty}
    {e : Error}
    (hPack : codec.entriesOf entries key type = .error e) :
    e.IsValueError := by
  rw [entriesOf_eq_mapM] at hPack
  rcases exists_error_of_mapM hPack with
    ⟨entry, hMem, hEntry⟩
  cases hParse : Value.parseKey entry.1 key with
  | error e' =>
      rw [hParse] at hEntry
      cases hEntry
      exact Value.isValueError_of_parseKey hParse
  | ok name =>
      rw [hParse] at hEntry
      have hPair :
          entryOf name key (codec.variantOf entry.2 type) =
            .error e :=
        hEntry
      have hValue := hEntries entry hMem type
      exact isValueError_of_entryOf hValue hPair

/- Children are put into an array or are to blame. -/
theorem isValueError_of_bind_array
    {packed : Except Error (List Variant)}
    (hPacked : ∀ e, packed = .error e → e.IsValueError)
    {element : Ty}
    {e : Error}
    (hPack : packed >>= Variant.array element = .error e) :
    e.IsValueError := by
  cases packed with
  | error e' =>
      cases hPack
      exact hPacked e rfl
  | ok children => exact Variant.isValueError_of_array hPack

/- An array is to blame if all its items are. -/
theorem blames_array
    {items : List Value}
    (hItems : ∀ item ∈ items, codec.Blames item) :
    codec.Blames (.array items) := by
  intro type e hPack
  rcases Ty.exists_error_of_throughMaybes hPack with
    ⟨content, hContent⟩
  cases content with
  | tuple types =>
      cases hMembers : codec.membersOf items types with
      | error e' =>
          simp only [hMembers] at hContent
          cases hContent
          exact isValueError_of_membersOf hItems hMembers
      | ok children =>
          simp only [hMembers] at hContent
          cases hContent
  | dictEntry key value =>
      exact isValueError_of_pairOf hItems hContent
  | array element =>
      dsimp only at hContent
      split at hContent
      · exact isValueError_of_leafOf hContent
      · apply isValueError_of_bind_array ?_ hContent
        intro e' hElements
        exact isValueError_of_elementsOf hItems hElements
  | _ => exact isValueError_of_leafOf hContent

/- A map is to blame if the values of its entries are. -/
theorem blames_map
    {entries : List (String × Value)}
    (hEntries : ∀ entry ∈ entries, codec.Blames entry.2) :
    codec.Blames (.map entries) := by
  intro type e hPack
  rcases Ty.exists_error_of_throughMaybes hPack with
    ⟨content, hContent⟩
  cases content with
  | array element =>
      cases element with
      | dictEntry key value =>
          apply isValueError_of_bind_array ?_ hContent
          intro e' hPacked
          exact isValueError_of_entriesOf hEntries hPacked
      | _ => exact isValueError_of_leafOf hContent
  | _ => exact isValueError_of_leafOf hContent

/-
  Whatever the value, packing it by a type fails because of
  a value only.
-/
theorem blames
    (codec : Codec)
    (value : Value) :
    codec.Blames value := by
  induction value with
  | null =>
      intro type e hPack
      exact isValueError_of_leafOf hPack
  | array items ih => exact blames_array ih
  | map entries ih => exact blames_map ih
  | _ =>
      intro type e hPack
      rcases Ty.exists_error_of_throughMaybes hPack with
        ⟨content, hContent⟩
      exact isValueError_of_leafOf hContent

end Codec

namespace Conversion

variable {conv : Conversion}

/-
  By a signature that is one type within the limit, packing
  fails because of the value only.
-/
theorem isValueError_of_packAs
    {signature : String}
    {type : Ty}
    {value : Value}
    {e : Error}
    (hRead :
      (Reader.ofString signature conv.maxDepth).readWhole =
        .ok type)
    (hPack : conv.packAs signature value = .error e) :
    e.IsValueError := by
  rw [packAs_eq_variantOf value hRead] at hPack
  exact conv.codec.blames value type e hPack

end Conversion

end GVariant

------------------------------------------------------------
-- Two Classes Of Errors
------------------------------------------------------------

namespace GVariant

namespace Conversion

/-
  Packing by a signature fails with an error of the
  signature exactly if the signature is not one single
  complete type within the limit, and then with the same
  error for every value. By any other signature it fails
  with an error of the value, if it fails.
-/
theorem packAs_error_iff_not_isSingleType
    (conv : Conversion)
    (signature : String) :
    (∀ value,
        (∃ e,
            conv.packAs signature value = .error e ∧
              e.isSignatureError) ↔
          ¬ Grammar.IsSingleType conv.maxDepth
            signature.toList) ∧
      (¬ Grammar.IsSingleType conv.maxDepth
            signature.toList →
          ∃ e,
            e.isSignatureError ∧
              ∀ value,
                conv.packAs signature value = .error e) ∧
        (Grammar.IsSingleType conv.maxDepth
            signature.toList →
          ∀ value e,
            conv.packAs signature value = .error e →
              e.IsValueError) := by
  have hSingle :
      Grammar.IsSingleType conv.maxDepth signature.toList ↔
        ∃ type,
          (Reader.ofString signature
              conv.maxDepth).readWhole =
            .ok type := by
    rw [Grammar.isSingleType_iff]
    exact
      exists_congr fun _ =>
        Reader.readWhole_ofString_eq_ok_iff.symm
  rw [hSingle]
  cases hRead :
      (Reader.ofString signature conv.maxDepth).readWhole with
  | error e =>
      have hSignature :=
        Reader.isSignatureError_of_readWhole hRead
      have hPack :
          ∀ value,
            conv.packAs signature value = .error e := by
        intro value
        rw [packAs_eq_readWhole, hRead]
      refine ⟨?_, ?_, ?_⟩
      · intro value
        simp [hPack, hSignature]
      · intro _
        exact ⟨e, hSignature, hPack⟩
      · rintro ⟨type, hType⟩
        cases hType
  | ok type =>
      have hValue :
          ∀ value e,
            conv.packAs signature value = .error e →
              e.IsValueError :=
        fun value e => isValueError_of_packAs hRead
      refine ⟨?_, ?_, fun _ => hValue⟩
      · intro value
        refine ⟨?_, fun hNone => absurd ⟨type, rfl⟩ hNone⟩
        rintro ⟨e, hPack, hSignature⟩
        have hOther := (hValue value e hPack).isSignatureError_eq
        rw [hOther] at hSignature
        cases hSignature
      · intro hNone
        exact absurd ⟨type, rfl⟩ hNone

/-
  With a limit of three levels, a signature of four is at
  fault for every value. By a signature of three levels, a
  number out of range or a value that nests deeper is.
-/
def shallow : Conversion where
  maxDepth := 3

theorem packAs_error_shallow :
    (∃ e,
        e.isSignatureError ∧
          ∀ value,
            shallow.packAs "a(a(i))" value = .error e) ∧
      shallow.packAs "(a(yg))"
            (.array [.array [.array [.int 300]]]) =
          .error (.outOfRange "300" 'y') ∧
        (Error.outOfRange "300" 'y').IsValueError ∧
          shallow.packAs "(a(yg))"
                (.array [.array [.array [.array []]]]) =
              .error
                (.typeMismatch "an integer" "an array") ∧
            (Error.typeMismatch "an integer"
              "an array").IsValueError := by
  have hDeep :
      ¬ Grammar.IsSingleType shallow.maxDepth
        "a(a(i))".toList := by
    rw [Grammar.isSingleType_iff]
    rintro ⟨type, hChars, hNested⟩
    have hRead :=
      Reader.readWhole_ofString_eq_ok_iff.mpr
        ⟨hChars, hNested⟩
    cases hRead
  have hWithin :
      Grammar.IsSingleType shallow.maxDepth
        "(a(yg))".toList := by
    rw [Grammar.isSingleType_iff]
    exact
      ⟨.tuple [.array (.tuple [.byte, .text .signature])],
        rfl, by decide⟩
  have hReader :
      Reader.ofString "(a(yg))" shallow.maxDepth =
        .ofChars ['(', 'a', '(', 'y', 'g', ')', ')'] 3 := by
    rfl
  have hRange :
      shallow.packAs "(a(yg))"
          (.array [.array [.array [.int 300]]]) =
        .error (.outOfRange "300" 'y') := by
    rw [packAs, hReader]
    rfl
  have hKind :
      shallow.packAs "(a(yg))"
          (.array [.array [.array [.array []]]]) =
        .error (.typeMismatch "an integer" "an array") := by
    rw [packAs, hReader]
    rfl
  exact
    ⟨(packAs_error_iff_not_isSingleType shallow _).2.1 hDeep,
      hRange,
      (packAs_error_iff_not_isSingleType shallow _).2.2
        hWithin _ _ hRange,
      hKind,
      (packAs_error_iff_not_isSingleType shallow _).2.2
        hWithin _ _ hKind⟩

end Conversion

end GVariant
