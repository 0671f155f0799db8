import GVariant.Proofs.Conversion.ErrorClasses
import GVariant.Proofs.Signature.Cutoff
import GVariant.Proofs.Signature.Places

/-
  Where the failures of the packer point to.

  The packer reads the type and the value side by side, so
  it fails at places of the text that was given, and packs
  elements from readers over their type, whose places are
  not those of the text. But a type that was read is no
  place to fail at: there, only the value or the limit can
  be at fault, and such a failure names no character.

  At one place the packer names a character that is not
  there. An entry whose brace is the end of the text lacks a
  key, and the failure names a closing brace.

  Key definitions include:
    * `Error.LacksKey`
    * `Error.PointsInto`
    * `Reader.IsBehindBrace`
    * `Conversion.NamesNothing`
    * `Conversion.StaysIn`

  Main declarations:
    * `Reader.readAt_chars_or_error`
    * `Conversion.namesNothing`
    * `Conversion.packEntryKey_stays`
    * `Conversion.pack_stays`
    * `Conversion.hasCharAt_iff_not_lacksKey`
-/

------------------------------------------------------------
-- Failures At A Type
------------------------------------------------------------

namespace GVariant

/- An error of a value names no character. -/
theorem Error.IsValueError.place?_eq_none
    {e : Error}
    (hValue : e.IsValueError) :
    e.place? = none := by
  cases e <;> first | rfl | cases hValue

namespace Reader

/-
  At a type, a reader takes the type or goes too deep. The
  second is what more levels than the reader has would
  change.
-/
theorem readAt_chars_or_error
    {r : Reader}
    {type : Ty}
    {rest : List Char}
    (hRest : r.rest = type.chars ++ rest)
    (depth : Nat) :
    r.readAt depth = (.ok type, r.after type.chars rest) ∨
      ∃ r', r.readAt depth = (.error r.nestingError, r') := by
  let more := max (r.levelsAt depth) (type.nesting + 1)
  have hMore :
      read more (r.withLimit r.maxDepth) =
        (.ok type, r.after type.chars rest) :=
    read_chars type (Nat.le_max_right _ _) hRest
  have hCut :
      (r.readAt depth).CutOff r.maxDepth r.maxDepth
        (read more (r.withLimit r.maxDepth)) :=
    read_cutOff (Nat.le_max_left _ _) rfl
  rcases hRead : r.readAt depth with ⟨result, r'⟩
  rw [hRead] at hCut
  rcases hCut with hStopped | hSame
  · right
    cases hStopped
    exact ⟨r', rfl⟩
  · left
    rw [hMore] at hSame
    have hResult : result = .ok type :=
      (congrArg Prod.fst hSame).symm
    rw [hResult] at hRead ⊢
    have hTook := (took_of_read hRead).1
    rw [(hTook.eq_after_of_chars hRest).2]

/- No head is read beyond the limit. -/
theorem readHead_of_lt
    {r : Reader}
    {depth : Nat}
    (hDepth : r.maxDepth < depth)
    (maybes : Bool) :
    r.readHead maybes depth = (.error r.nestingError, r) := by
  unfold readHead
  rcases r with ⟨rest, position, limit⟩
  cases rest with
  | nil => rw [readHeadFrom, if_pos hDepth]; rfl
  | cons c rest => rw [readHeadFrom, if_pos hDepth]; rfl

end Reader

namespace Conversion

variable {conv : Conversion}

/- Nothing is packed beyond the limit of the reader. -/
theorem pack_of_lt
    (conv : Conversion)
    (value : Value)
    {r : Reader}
    {depth : Nat}
    (hDepth : r.maxDepth < depth) :
    pack conv value depth r = (.error r.nestingError, r) := by
  by_cases hPresent : value = .null
  · subst hPresent
    rw [pack, Reader.readHead_of_lt hDepth]
  · rw [pack_eq_packBehind conv hPresent,
      Reader.readHead_of_lt hDepth]

/- A failure to pack the value at a type names no character. -/
def NamesNothing (conv : Conversion) (value : Value) : Prop :=
  ∀ (type : Ty) (depth : Nat) (r : Reader)
    (rest : List Char),
    r.rest = type.chars ++ rest →
      ∀ e,
        (pack conv value depth r).1 = .error e →
          e.place? = none

/-
  It is enough to look behind the first character of every
  type that is no maybe. The induction takes off the maybes.
-/
theorem namesNothing_of_packBehind
    {value : Value}
    (hPresent : value ≠ .null)
    (hBehind :
      ∀ (type : Ty) (depth : Nat) (r : Reader)
        (rest : List Char),
        r.rest = type.chars.tail ++ rest →
          ∀ e,
            (conv.packBehind value type.cls depth r).1 =
                .error e →
              e.place? = none) :
    conv.NamesNothing value := by
  have hDeep :
      ∀ (depth : Nat) (r : Reader) (e : Error),
        r.maxDepth < depth →
          (pack conv value depth r).1 = .error e →
            e.place? = none := by
    intro depth r e hDepth hPack
    rw [pack_of_lt conv value hDepth] at hPack
    cases hPack
    rfl
  have hSingle :
      ∀ (type : Ty) (depth : Nat) (r : Reader)
        (rest : List Char),
        type.cls ≠ .maybe →
          r.rest = type.chars ++ rest →
            ∀ e,
              (pack conv value depth r).1 = .error e →
                e.place? = none := by
    intro type depth r rest hClass hRest e hPack
    by_cases hDepth : depth ≤ r.maxDepth
    · rcases type.chars_eq_cons with ⟨tail, hChars⟩
      have hHead :
          r.rest = type.cls.char :: (tail ++ rest) := by
        rw [hRest, hChars, List.cons_append]
      rw [pack_class conv type.cls hPresent hClass hHead
        hDepth] at hPack
      refine hBehind type depth _ rest ?_ e hPack
      rw [hChars]
      rfl
    · exact hDeep depth r e (Nat.lt_of_not_le hDepth) hPack
  intro type depth r rest hRest e hPack
  induction type generalizing depth r rest with
  | maybe element ih =>
      have hHead : r.rest = 'm' :: (element.chars ++ rest) :=
        hRest
      by_cases hDepth : depth ≤ r.maxDepth
      · rw [pack_maybe conv hPresent hHead hDepth,
          fst_wrapMaybes_one] at hPack
        cases hElement :
            (pack conv value (depth + 1)
              (r.after ['m'] (element.chars ++ rest))).1 with
        | error e' =>
            rw [hElement] at hPack
            cases hPack
            exact ih (depth + 1) _ rest rfl hElement
        | ok v =>
            rw [hElement] at hPack
            cases hPack
      · exact hDeep depth r e (Nat.lt_of_not_le hDepth) hPack
  | _ =>
      refine hSingle _ depth r rest ?_ hRest e hPack
      simp [Ty.cls]

/- Values are not packed item by item behind most heads. -/
theorem place?_of_packFlat
    {value : Value}
    {type : Ty}
    {depth : Nat}
    {r : Reader}
    {rest : List Char}
    (hRest : r.rest = type.chars.tail ++ rest)
    {e : Error}
    (hPack : (packFlat value type.cls depth r).1 = .error e) :
    e.place? = none := by
  cases type with
  | basic type =>
      exact (Value.isValueError_of_packBasic hPack).place?_eq_none
  | «variant» =>
      cases value <;> cases hPack <;> rfl
  | maybe element =>
      simp only [packFlat, Ty.cls] at hPack
      rcases Reader.readAt_chars_or_error hRest (depth + 1) with
        hRead | ⟨r', hRead⟩
      · rw [hRead] at hPack
        cases hPack
      · rw [hRead] at hPack
        cases hPack
        rfl
  | _ =>
      cases hPack
      rfl

theorem place?_of_packLeaf
    {value : Value}
    {type : Ty}
    {depth : Nat}
    {r : Reader}
    {rest : List Char}
    (hRest : r.rest = type.chars.tail ++ rest)
    {e : Error}
    (hPack :
      (conv.packLeaf value type.cls depth r).1 = .error e) :
    e.place? = none := by
  cases type with
  | array element =>
      simp only [packLeaf, Ty.cls] at hPack
      rcases Reader.readAt_chars_or_error hRest (depth + 1) with
        hRead | ⟨r', hRead⟩
      · rw [hRead] at hPack
        exact
          (isValueError_of_packPlainArray hPack).place?_eq_none
      · rw [hRead] at hPack
        cases hPack
        rfl
  | _ =>
      exact @place?_of_packFlat value _ depth r rest hRest e hPack

/- An absent value, whose type may be a maybe. -/
theorem namesNothing_null
    (conv : Conversion) :
    conv.NamesNothing .null := by
  intro type depth r rest hRest e hPack
  by_cases hDepth : depth ≤ r.maxDepth
  · rcases type.chars_eq_cons with ⟨tail, hChars⟩
    have hHead :
        r.readHead false depth =
          (.ok (0, type.cls),
            r.after [type.cls.char] (tail ++ rest)) := by
      apply Reader.readHead_class
      · rw [hRest, hChars, List.cons_append]
      · exact hDepth
      · exact fun _ => rfl
    have hBody :
        (r.after [type.cls.char] (tail ++ rest)).rest =
          type.chars.tail ++ rest := by
      rw [hChars]
      rfl
    rw [pack, hHead] at hPack
    exact place?_of_packLeaf hBody hPack
  · rw [pack_of_lt conv .null (Nat.lt_of_not_le hDepth)] at hPack
    cases hPack
    rfl

end Conversion

end GVariant

------------------------------------------------------------
-- Failures In Containers Of A Type
------------------------------------------------------------

namespace GVariant

namespace Conversion

variable {conv : Conversion}
variable {depth : Nat}
variable {r : Reader}
variable {rest : List Char}
variable {e : Error}

/- Members name no character if no item does. -/
theorem place?_of_packMembers
    {items : List Value}
    (hItems : ∀ item ∈ items, conv.NamesNothing item)
    {types : List Ty}
    (hRest : r.rest = Ty.charsAll types ++ ')' :: rest)
    (hPack : (packMembers conv items depth r).1 = .error e) :
    e.place? = none := by
  induction types generalizing items r with
  | nil =>
      have hPeek : r.peek? = some ')' := by
        rw [Reader.peek?, hRest]
        rfl
      cases items <;> rw [packMembers, hPeek] at hPack <;>
        cases hPack
  | cons type types ih =>
      rw [Ty.charsAll, List.append_assoc] at hRest
      rcases type.chars_eq_cons with ⟨tail, hChars⟩
      have hPeek : r.peek? = some type.cls.char := by
        rw [Reader.peek?, hRest, hChars]
        rfl
      have hOpen := type.cls.char_ne_close
      cases items with
      | nil =>
          rw [packMembers, hPeek] at hPack
          split at hPack
          · rename_i hNone
            cases hNone
          · rename_i hClose
            exact absurd (Option.some.inj hClose) hOpen
          · cases hPack
            unfold missingMember
            rcases Reader.readAt_chars_or_error hRest depth with
              hRead | ⟨r', hRead⟩
            · rw [hRead]
              rfl
            · rw [hRead]
              rfl
      | cons item items =>
          rcases List.forall_mem_cons.mp hItems with
            ⟨hItem, hItems'⟩
          rw [packMembers, hPeek] at hPack
          split at hPack
          · rename_i hNone
            cases hNone
          · rename_i hClose
            exact absurd (Option.some.inj hClose) hOpen
          · rcases hFirst : pack conv item depth r with
              ⟨result, r'⟩
            rw [hFirst] at hPack
            cases result with
            | error e' =>
                cases hPack
                exact
                  hItem type depth r _ hRest e (by rw [hFirst])
            | ok child =>
                have hBehind := (eq_after_of_pack hFirst hRest).2
                subst hBehind
                rcases hOthers :
                    packMembers conv items depth
                      (r.after type.chars
                        (Ty.charsAll types ++ ')' :: rest)) with
                  ⟨children, r''⟩
                simp only [hOthers] at hPack
                cases children with
                | error e' =>
                    cases hPack
                    exact ih hItems' rfl (by rw [hOthers])
                | ok children => cases hPack

/- An entry names no character if its value does not. -/
theorem place?_of_packEntryWith
    {value : Value}
    (hValue : conv.NamesNothing value)
    {key : Value}
    {keyType : BasicType}
    {type : Ty}
    (hRest :
      r.rest = keyType.char :: (type.chars ++ '}' :: rest))
    (hPack :
      (packEntryWith (pack conv value (depth + 1)) key
          depth r).1 =
        .error e) :
    e.place? = none := by
  by_cases hDepth : depth + 1 ≤ r.maxDepth
  · rw [packEntryWith, packEntryKey_char key hRest hDepth]
      at hPack
    cases hBasic : key.packBasic keyType with
    | error e' =>
        rw [hBasic] at hPack
        cases hPack
        exact
          (Value.isValueError_of_packBasic hBasic).place?_eq_none
    | ok packedKey =>
        rcases Value.exists_of_packBasic hBasic with
          ⟨s, rfl, _, _⟩
        rcases hPacked :
            pack conv value (depth + 1)
              (r.after [keyType.char]
                (type.chars ++ '}' :: rest)) with
          ⟨result, r'⟩
        rw [hBasic] at hPack
        simp only [hPacked] at hPack
        cases result with
        | error e' =>
            cases hPack
            exact
              hValue type (depth + 1) _ _ rfl e (by rw [hPacked])
        | ok packedValue =>
            have hBehind := (eq_after_of_pack hPacked rfl).2
            subst hBehind
            dsimp only at hPack
            rw [Reader.closeEntry_brace rfl] at hPack
            cases hPack
  · have hExpected : r.expectKey = .ok () := by
      have hClass :
          TypeClass.ofChar? keyType.char =
            some (.basic keyType) :=
        TypeClass.ofChar?_char (.basic keyType)
      simp [Reader.expectKey, Reader.peek?, hRest, hClass]
    have hDeep := Nat.lt_of_not_le hDepth
    rw [packEntryWith, packEntryKey, hExpected] at hPack
    simp only [Reader.readHead_of_lt hDeep] at hPack
    cases hPack
    rfl

/- Elements name no character if no item does. -/
theorem place?_of_packElements
    {items : List Value}
    (hItems : ∀ item ∈ items, conv.NamesNothing item)
    {element : Ty}
    (hPack :
      packElements conv items element depth = .error e) :
    e.place? = none := by
  induction items with
  | nil => cases hPack
  | cons item items ih =>
      rcases List.forall_mem_cons.mp hItems with
        ⟨hItem, hItems'⟩
      have hRest :
          (Reader.ofChars element.chars conv.maxDepth).rest =
            element.chars ++ [] := by
        rw [List.append_nil]
        rfl
      rw [packElements] at hPack
      split at hPack
      · rename_i hFirst
        cases hPack
        exact hItem element depth _ [] hRest _ hFirst
      · split at hPack
        · rename_i hOthers
          cases hPack
          exact ih hItems' hOthers
        · cases hPack

/- Entries of a map name no character if no value does. -/
theorem place?_of_packEntries
    {entries : List (String × Value)}
    (hEntries :
      ∀ entry ∈ entries, conv.NamesNothing entry.2)
    {key : BasicType}
    {type : Ty}
    (hPack :
      packEntries conv entries key (.dictEntry key type)
          depth =
        .error e) :
    e.place? = none := by
  induction entries with
  | nil => cases hPack
  | cons entry entries ih =>
      rcases List.forall_mem_cons.mp hEntries with
        ⟨hEntry, hEntries'⟩
      rw [packEntries] at hPack
      split at hPack
      · rename_i hKey
        cases hPack
        exact (Value.isValueError_of_parseKey hKey).place?_eq_none
      · split at hPack
        · rename_i hOpen
          cases hPack
          unfold Ty.openEntry at hOpen
          split at hOpen <;> cases hOpen
          rfl
        · rename_i r hOpen
          have hRest :
              r.rest = key.char :: (type.chars ++ '}' :: []) := by
            unfold Ty.openEntry at hOpen
            split at hOpen
            · cases hOpen
            · cases hOpen
              rfl
          split at hPack
          · rename_i hFirst
            cases hPack
            exact place?_of_packEntryWith hEntry hRest hFirst
          · split at hPack
            · rename_i hOthers
              cases hPack
              exact ih hEntries' hOthers
            · cases hPack

end Conversion

end GVariant

------------------------------------------------------------
-- Values At A Type
------------------------------------------------------------

namespace GVariant

namespace Conversion

variable {conv : Conversion}

/- Only two items make an entry. -/
theorem packPair_of_length_ne
    {items : List Value}
    (hLength : items.length ≠ 2)
    (depth : Nat)
    (r : Reader) :
    packPair conv items depth r =
      (.error
        ((Value.array items).mismatch "a [key, value] pair"),
        r) := by
  rw [packPair]
  intro key value hItems
  exact hLength (congrArg List.length hItems)

/- An array names no character if its items do not. -/
theorem namesNothing_array
    {items : List Value}
    (hItems : ∀ item ∈ items, conv.NamesNothing item) :
    conv.NamesNothing (.array items) := by
  apply namesNothing_of_packBehind (by simp)
  intro type depth r rest hRest e hPack
  cases type with
  | tuple types =>
      have hMembers :
          r.rest = Ty.charsAll types ++ ')' :: rest := by
        simpa [Ty.chars] using hRest
      simp only [packBehind, Ty.cls] at hPack
      rcases hPacked : packMembers conv items (depth + 1) r with
        ⟨result, r'⟩
      rw [hPacked] at hPack
      cases result with
      | error e' =>
          cases hPack
          exact
            place?_of_packMembers hItems hMembers
              (by rw [hPacked])
      | ok children => cases hPack
  | dictEntry key type =>
      have hEntry :
          r.rest = key.char :: (type.chars ++ '}' :: rest) := by
        simpa [Ty.chars] using hRest
      simp only [packBehind, Ty.cls] at hPack
      by_cases hLength : items.length = 2
      · rcases List.length_eq_two.mp hLength with
          ⟨first, second, rfl⟩
        have hValue := hItems second (by simp)
        exact place?_of_packEntryWith hValue hEntry hPack
      · rw [packPair_of_length_ne hLength] at hPack
        cases hPack
        rfl
  | array element =>
      simp only [packBehind, Ty.cls, packArray] at hPack
      rcases Reader.readAt_chars_or_error hRest (depth + 1) with
        hRead | ⟨r', hRead⟩
      · rw [hRead] at hPack
        dsimp only at hPack
        split at hPack
        · exact
            (isValueError_of_packPlainArray
              hPack).place?_eq_none
        · split at hPack
          · rename_i hElements
            cases hPack
            exact place?_of_packElements hItems hElements
          · exact
              (Variant.isValueError_of_array
                hPack).place?_eq_none
      · rw [hRead] at hPack
        cases hPack
        rfl
  | _ =>
      exact
        @place?_of_packFlat (.array items) _ depth r rest hRest
          e hPack

/- A map names no character if its values do not. -/
theorem namesNothing_map
    {entries : List (String × Value)}
    (hEntries :
      ∀ entry ∈ entries, conv.NamesNothing entry.2) :
    conv.NamesNothing (.map entries) := by
  apply namesNothing_of_packBehind (by simp)
  intro type depth r rest hRest e hPack
  cases type with
  | array element =>
      simp only [packBehind, Ty.cls, packDictionary] at hPack
      rcases Reader.readAt_chars_or_error hRest (depth + 1) with
        hRead | ⟨r', hRead⟩
      · rw [hRead] at hPack
        cases element with
        | dictEntry key type =>
            dsimp only at hPack
            split at hPack
            · rename_i hPacked
              cases hPack
              exact place?_of_packEntries hEntries hPacked
            · exact
                (Variant.isValueError_of_array
                  hPack).place?_eq_none
        | _ =>
            dsimp only at hPack
            exact
              (isValueError_of_packPlainArray
                hPack).place?_eq_none
      · rw [hRead] at hPack
        cases hPack
        rfl
  | _ =>
      exact
        @place?_of_packFlat (.map entries) _ depth r rest hRest
          e hPack

/-
  Whatever the value, packing it at a type names no
  character. The induction is on the value.
-/
theorem namesNothing
    (conv : Conversion)
    (value : Value) :
    conv.NamesNothing value := by
  induction value with
  | null => exact namesNothing_null conv
  | array items ih => exact namesNothing_array ih
  | map entries ih => exact namesNothing_map ih
  | _ =>
      apply namesNothing_of_packBehind (by simp)
      intro type depth r rest hRest e hPack
      exact place?_of_packLeaf hRest hPack

end Conversion

end GVariant

------------------------------------------------------------
-- Heads And Keys In A Text
------------------------------------------------------------

namespace GVariant

namespace Error

/-
  The failure at an entry whose opening brace ends the text.
  It names a closing brace, behind the last character.
-/
def LacksKey (text : List Char) (e : Error) : Prop :=
  e = .simpleTypeExpected '}' (Utf8.size text) ∧
    ∃ before, text = before ++ ['{']

/-
  A failure names no character but one that is there, or it
  lacks the key of an entry.
-/
def PointsInto (text : List Char) (e : Error) : Prop :=
  e.NamesIn text ∨ e.LacksKey text

theorem pointsInto_of_place?_eq_none
    {e : Error}
    (hNone : e.place? = none)
    (text : List Char) :
    e.PointsInto text :=
  .inl (namesIn_of_place?_eq_none hNone text)

theorem IsValueError.pointsInto
    {e : Error}
    (hValue : e.IsValueError)
    (text : List Char) :
    e.PointsInto text :=
  pointsInto_of_place?_eq_none hValue.place?_eq_none text

end Error

namespace Step.Stays

variable {α : Type}
variable {text : List Char}
variable {r : Reader}

/- A step that only reads. -/
theorem pointsInto
    {step : Step α}
    (hStays : step.Stays text (·.NamesIn text)) :
    step.Stays text (·.PointsInto text) :=
  hStays.mono fun _ => .inl

/- A step that fails without a character. -/
theorem nowhere
    {e : Error}
    (hStands : r.StandsIn text)
    (hNone : e.place? = none) :
    Stays text (·.PointsInto text)
      ((.error e, r) : Step α) :=
  (unnamed hStands hNone).pointsInto

/- A step that only the value makes fail. -/
theorem ofValue
    {result : Except Error α}
    (hStands : r.StandsIn text)
    (hValue : ∀ {e}, result = .error e → e.IsValueError) :
    Stays text (·.PointsInto text) (result, r) :=
  ⟨hStands, fun _ hError => (hValue hError).pointsInto text⟩

end Step.Stays

namespace Reader

variable {text : List Char}

/- A reader at the character behind a brace. -/
def IsBehindBrace (text : List Char) (r : Reader) : Prop :=
  ∃ before, text = before ++ '{' :: r.rest

theorem readHeadFrom_stays
    {limit : Nat}
    (maybes : Bool)
    {rest : List Char}
    {position : Nat}
    (hStands :
      (⟨rest, position, limit⟩ : Reader).StandsIn text)
    (depth count : Nat) :
    (readHeadFrom limit maybes rest position depth
        count).Stays text (·.NamesIn text) := by
  induction rest generalizing position depth count with
  | nil =>
      rw [readHeadFrom]
      split
      · exact .unnamed hStands rfl
      · exact .unnamed hStands rfl
  | cons c rest ih =>
      have hBehind := hStands.behind rfl limit
      rw [readHeadFrom]
      split
      · exact .unnamed hStands rfl
      · dsimp only
        split
        · exact
            .error hBehind
              (Error.namesIn_unexpectedCharacter
                (hStands.hasCharAt rfl))
        · split
          · exact ih hBehind _ _
          · exact .ok _ hBehind

/- A head is read in the text. -/
theorem readHead_stays
    {r : Reader}
    (hStands : r.StandsIn text)
    (maybes : Bool)
    (depth : Nat) :
    (r.readHead maybes depth).Stays text (·.NamesIn text) :=
  readHeadFrom_stays maybes hStands depth 0

/- Behind the head of an entry is the place behind a brace. -/
theorem isBehindBrace_of_readHead
    {r r' : Reader}
    (hStands : r.StandsIn text)
    {maybes : Bool}
    {depth count : Nat}
    (hRead :
      r.readHead maybes depth =
        (.ok (count, .dictEntry), r')) :
    r'.IsBehindBrace text := by
  rcases tookClass_of_readHead hRead with ⟨s, hMaybes, hBrace⟩
  rcases hStands with ⟨before, hText, _⟩
  refine ⟨before ++ List.replicate count 'm', ?_⟩
  rw [hText, hMaybes.1, hBrace.took.1, List.append_assoc]
  rfl

/-
  A key that is expected where no basic type is: the next
  character is named, or there is none.
-/
theorem pointsInto_of_expectKey
    {r : Reader}
    (hStands : r.StandsIn text)
    (hBrace : r.IsBehindBrace text)
    {e : Error}
    (hExpect : r.expectKey = .error e) :
    e.PointsInto text := by
  unfold expectKey at hExpect
  dsimp only at hExpect
  split at hExpect
  · cases hExpect
  · cases hExpect
    cases hRest : r.rest with
    | nil =>
        rcases hStands with ⟨before, hText, hPosition⟩
        rcases hBrace with ⟨opened, hOpened⟩
        rw [hRest, List.append_nil] at hText
        rw [hRest] at hOpened
        refine .inr ⟨?_, opened, hOpened⟩
        rw [hPosition, hText, peek?, hRest]
        rfl
    | cons c rest =>
        left
        have hPeek : r.peek?.getD '}' = c := by
          rw [peek?, hRest]
          rfl
        rw [hPeek]
        exact
          Error.namesIn_simpleTypeExpected
            (hStands.hasCharAt hRest)

end Reader

namespace Conversion

variable {text : List Char}

/-
  A key is packed in the text. Where a basic type is
  expected and found, the head is that type, so the last
  case of the packer does not arise.
-/
theorem packEntryKey_stays
    (key : Value)
    (depth : Nat)
    {r : Reader}
    (hStands : r.StandsIn text)
    (hBrace : r.IsBehindBrace text) :
    (packEntryKey key depth r).Stays text
      (·.PointsInto text) := by
  rw [packEntryKey]
  cases hExpect : r.expectKey with
  | error e =>
      exact
        .error hStands
          (Reader.pointsInto_of_expectKey hStands hBrace
            hExpect)
  | ok _ =>
      dsimp only
      refine
        (Reader.readHead_stays hStands false
          (depth + 1)).pointsInto.elim
          (fun _ _ => .error)
          ?_
      rintro ⟨count, cls⟩ r' hHead hBehind
      rcases Reader.tookClass_of_readHead_false hHead with
        ⟨_, hTook⟩
      have hPeek : r.peek?.getD '}' = cls.char := by
        rw [Reader.peek?, hTook.took.1]
        rfl
      have hBasic : ∃ type, cls = .basic type := by
        unfold Reader.expectKey at hExpect
        rw [hPeek] at hExpect
        dsimp only at hExpect
        rw [TypeClass.ofChar?_char] at hExpect
        cases cls with
        | basic type => exact ⟨type, rfl⟩
        | _ => cases hExpect
      rcases hBasic with ⟨type, rfl⟩
      dsimp only
      exact .ofValue hBehind Value.isValueError_of_packBasic

end Conversion

end GVariant

------------------------------------------------------------
-- Packing In A Text
------------------------------------------------------------

namespace GVariant

namespace Conversion

variable {text : List Char}
variable {conv : Conversion}
variable {depth : Nat}
variable {r : Reader}

/-
  Wherever a value is packed in a text, the failures point
  into the text.
-/
def StaysIn
    (text : List Char)
    (conv : Conversion)
    (value : Value) : Prop :=
  ∀ (depth : Nat) (r : Reader),
    r.StandsIn text →
      (pack conv value depth r).Stays text (·.PointsInto text)

theorem wrapMaybes_stays
    {cause : Error → Prop}
    (count : Nat)
    {result : Step Variant}
    (hStays : result.Stays text cause) :
    (wrapMaybes count result).Stays text cause :=
  hStays.elim
    (fun _ _ => .error)
    fun _ _ _ => .ok _

theorem packFlat_stays
    (value : Value)
    (cls : TypeClass)
    (depth : Nat)
    (hStands : r.StandsIn text) :
    (packFlat value cls depth r).Stays text
      (·.PointsInto text) := by
  cases cls with
  | basic type =>
      exact .ofValue hStands Value.isValueError_of_packBasic
  | «variant» =>
      cases value with
      | «variant» child => exact .ok _ hStands
      | _ => exact .nowhere hStands rfl
  | maybe =>
      simp only [packFlat]
      exact
        (Reader.readAt_stays hStands (depth + 1)).pointsInto.elim
          (fun _ _ => .error)
          fun _ _ _ => .ok _
  | tuple => exact .nowhere hStands rfl
  | dictEntry => exact .nowhere hStands rfl
  | array => exact .nowhere hStands rfl

theorem packLeaf_stays
    (conv : Conversion)
    (value : Value)
    (cls : TypeClass)
    (depth : Nat)
    (hStands : r.StandsIn text) :
    (conv.packLeaf value cls depth r).Stays text
      (·.PointsInto text) := by
  cases cls with
  | array =>
      simp only [packLeaf]
      refine
        (Reader.readAt_stays hStands (depth + 1)).pointsInto.elim
          (fun _ _ => .error)
          ?_
      intro element r' _ hBehind
      exact .ofValue hBehind isValueError_of_packPlainArray
  | _ => exact packFlat_stays value _ depth hStands

/-
  An array of items that are packed one by one. These come
  from readers over the element type, which is no place of
  the text, but their failures name no character.
-/
theorem packArray_stays
    (items : List Value)
    (depth : Nat)
    (hStands : r.StandsIn text) :
    (packArray conv (.array items)
        (fun element =>
          packElements conv items element (depth + 1))
        depth r).Stays text (·.PointsInto text) := by
  unfold packArray
  refine
    (Reader.readAt_stays hStands (depth + 1)).pointsInto.elim
      (fun _ _ => .error)
      ?_
  intro element r' _ hBehind
  dsimp only
  split
  · exact .ofValue hBehind isValueError_of_packPlainArray
  · split
    · rename_i hElements
      have hNone :=
        place?_of_packElements
          (fun item _ => namesNothing conv item) hElements
      exact .nowhere hBehind hNone
    · exact .ofValue hBehind Variant.isValueError_of_array

/- A dictionary, whose entries are packed in the same way. -/
theorem packDictionary_stays
    (entries : List (String × Value))
    (depth : Nat)
    (hStands : r.StandsIn text) :
    (packDictionary conv (.map entries)
        (fun key element =>
          packEntries conv entries key element (depth + 1))
        depth r).Stays text (·.PointsInto text) := by
  unfold packDictionary
  refine
    (Reader.readAt_stays hStands (depth + 1)).pointsInto.elim
      (fun _ _ => .error)
      ?_
  intro element r' _ hBehind
  cases element with
  | dictEntry key type =>
      dsimp only
      split
      · rename_i hEntries
        have hNone :=
          place?_of_packEntries
            (fun entry _ => namesNothing conv entry.2)
            hEntries
        exact .nowhere hBehind hNone
      · exact .ofValue hBehind Variant.isValueError_of_array
  | _ =>
      dsimp only
      exact .ofValue hBehind isValueError_of_packPlainArray

/- A member without item is read, and may not be there. -/
theorem pointsInto_missingMember
    (hStands : r.StandsIn text)
    (depth : Nat) :
    (missingMember depth r).PointsInto text := by
  unfold missingMember
  split
  · rename_i e hRead
    exact .inl ((Reader.readAt_stays hStands depth).2 e hRead)
  · exact Error.pointsInto_of_place?_eq_none rfl text

/- Members are packed in the text if each item is. -/
theorem packMembers_stays
    {items : List Value}
    (hItems : ∀ item ∈ items, conv.StaysIn text item)
    (depth : Nat)
    (hStands : r.StandsIn text) :
    (packMembers conv items depth r).Stays text
      (·.PointsInto text) := by
  induction items generalizing r with
  | nil =>
      rw [packMembers]
      split
      · exact .nowhere hStands rfl
      · exact .ok _ hStands.snd_pop
      · exact
          .error hStands (pointsInto_missingMember hStands depth)
  | cons item items ih =>
      rcases List.forall_mem_cons.mp hItems with
        ⟨hItem, hItems'⟩
      rw [packMembers]
      split
      · exact .nowhere hStands rfl
      · exact .ok _ hStands.snd_pop
      · refine
          (hItem depth r hStands).elim (fun _ _ => .error) ?_
        intro child r' _ hBehind
        dsimp only
        exact
          (ih hItems' hBehind).elim
            (fun _ _ => .error)
            fun _ _ _ => .ok _

/-
  An entry is packed in the text if its value is. Its key is
  a scalar, so the entry can be built.
-/
theorem packEntryWith_stays
    {value : Value}
    (hValue : conv.StaysIn text value)
    (key : Value)
    (depth : Nat)
    (hStands : r.StandsIn text)
    (hBrace : r.IsBehindBrace text) :
    (packEntryWith (pack conv value (depth + 1)) key depth
        r).Stays text (·.PointsInto text) := by
  unfold packEntryWith
  refine
    (packEntryKey_stays key depth hStands hBrace).elim
      (fun _ _ => .error)
      ?_
  intro packedKey r' hKey hBehindKey
  rcases packEntryKey_ends key depth r _ _ hKey with
    ⟨scalar, rfl, _⟩
  dsimp only
  refine
    (hValue (depth + 1) r' hBehindKey).elim
      (fun _ _ => .error)
      ?_
  intro packedValue r'' _ hBehindValue
  dsimp only
  exact
    (Reader.closeEntry_stays hBehindValue).pointsInto.elim
      (fun _ _ => .error)
      fun _ _ _ => .ok _

/- What is behind the head of a value that is present. -/
theorem packBehind_array_stays
    {items : List Value}
    (hItems : ∀ item ∈ items, conv.StaysIn text item)
    (cls : TypeClass)
    (depth : Nat)
    (hStands : r.StandsIn text)
    (hBrace : cls = .dictEntry → r.IsBehindBrace text) :
    (conv.packBehind (.array items) cls depth r).Stays text
      (·.PointsInto text) := by
  cases cls with
  | tuple =>
      simp only [packBehind]
      exact
        (packMembers_stays hItems (depth + 1) hStands).elim
          (fun _ _ => .error)
          fun _ _ _ => .ok _
  | dictEntry =>
      simp only [packBehind]
      by_cases hLength : items.length = 2
      · rcases List.length_eq_two.mp hLength with
          ⟨first, second, rfl⟩
        have hValue := hItems second (by simp)
        rw [packPair]
        exact
          packEntryWith_stays hValue first depth hStands
            (hBrace rfl)
      · rw [packPair_of_length_ne hLength]
        exact .nowhere hStands rfl
  | array => exact packArray_stays items depth hStands
  | _ => exact packFlat_stays (.array items) _ depth hStands

theorem packBehind_map_stays
    (conv : Conversion)
    (entries : List (String × Value))
    (cls : TypeClass)
    (depth : Nat)
    (hStands : r.StandsIn text) :
    (conv.packBehind (.map entries) cls depth r).Stays text
      (·.PointsInto text) := by
  cases cls with
  | array => exact packDictionary_stays entries depth hStands
  | _ => exact packFlat_stays (.map entries) _ depth hStands

/-
  It is enough to look behind the head of the type. The head
  of an entry is a brace.
-/
theorem staysIn_of_packBehind
    {value : Value}
    (hPresent : value ≠ .null)
    (hBehind :
      ∀ (cls : TypeClass) (depth : Nat) (r : Reader),
        r.StandsIn text →
          (cls = .dictEntry → r.IsBehindBrace text) →
            (conv.packBehind value cls depth r).Stays text
              (·.PointsInto text)) :
    conv.StaysIn text value := by
  intro depth r hStands
  rw [pack_eq_packBehind conv hPresent]
  refine
    (Reader.readHead_stays hStands true depth).pointsInto.elim
      (fun _ _ => .error)
      ?_
  rintro ⟨count, cls⟩ r' hHead hStands'
  apply wrapMaybes_stays
  apply hBehind cls _ r' hStands'
  rintro rfl
  exact Reader.isBehindBrace_of_readHead hStands hHead

/-
  Packing stays in the text and its failures point into it.
  The induction is on the value.
-/
theorem pack_stays
    (text : List Char)
    (conv : Conversion)
    (value : Value) :
    conv.StaysIn text value := by
  induction value with
  | null =>
      intro depth r hStands
      rw [pack]
      refine
        (Reader.readHead_stays hStands false depth).pointsInto.elim
          (fun _ _ => .error)
          ?_
      rintro ⟨count, cls⟩ r' _ hBehind
      exact packLeaf_stays conv .null cls depth hBehind
  | array items ih =>
      apply staysIn_of_packBehind (by simp)
      exact fun cls depth r => packBehind_array_stays ih cls depth
  | map entries ih =>
      apply staysIn_of_packBehind (by simp)
      intro cls depth r hStands _
      exact packBehind_map_stays conv entries cls depth hStands
  | _ =>
      apply staysIn_of_packBehind (by simp)
      intro cls depth r hStands _
      exact packLeaf_stays conv _ cls depth hStands

end Conversion

end GVariant

------------------------------------------------------------
-- Characters At Places
------------------------------------------------------------

namespace GVariant

namespace Error

/- An entry that lacks its key names no character. -/
theorem LacksKey.not_hasCharAt
    {text : List Char}
    {e : Error}
    (hLacks : e.LacksKey text)
    {c : Char}
    {position : Nat}
    (hPlace : e.place? = some (c, position)) :
    ¬ HasCharAt text c position := by
  intro hChar
  rw [hLacks.1] at hPlace
  cases hPlace
  exact Nat.lt_irrefl _ (lt_size_of_hasCharAt hChar)

end Error

namespace Conversion

/-
  A reader anywhere in a signature that fails to read a type
  names a character that is there, if any. So does packing,
  unless the brace of an entry ends the signature.
-/
theorem hasCharAt_iff_not_lacksKey
    {signature : String}
    {r : Reader}
    (hStands : r.StandsIn signature.toList)
    {e : Error}
    {c : Char}
    {position : Nat}
    (hPlace : e.place? = some (c, position)) :
    (∀ forceSimple,
      (r.readType forceSimple).1 = .error e →
        HasCharAt signature.toList c position) ∧
    ∀ (conv : Conversion) (value : Value),
      (conv.packNext value r).1 = .error e →
        (HasCharAt signature.toList c position ↔
          ¬ e.LacksKey signature.toList) := by
  constructor
  · intro forceSimple hRead
    have hStays := Reader.readType_stays forceSimple hStands
    exact hStays.2 e hRead c position hPlace
  · intro conv value hPack
    have hStays := pack_stays signature.toList conv value 0 r
    rcases (hStays hStands).2 e hPack with hNames | hLacks
    · have hChar := hNames c position hPlace
      exact
        ⟨fun _ hLacks => hLacks.not_hasCharAt hPlace hChar,
          fun _ => hChar⟩
    · exact
        ⟨fun hChar _ => hLacks.not_hasCharAt hPlace hChar,
          fun hNot => absurd hLacks hNot⟩

/-
  Behind a character of two bytes, both name the character
  where the key of an entry is.
-/
theorem hasCharAt_keyBehindUmlaut :
    let text := "ü{vs}"
    let r : Reader := ⟨['{', 'v', 's', '}'], 2, defaultMaxDepth⟩
    let items := Value.array [.null, .null]
    let e := Error.simpleTypeExpected 'v' 3
    r.StandsIn text.toList ∧
      e.place? = some ('v', 3) ∧
        (r.readType false).1 = .error e ∧
          (Conversion.standard.packNext items r).1 =
              .error e ∧
            HasCharAt text.toList 'v' 3 ∧
              ¬ e.LacksKey text.toList := by
  intro text r items e
  have hText : "ü{vs}".toList = ['ü'] ++ r.rest := rfl
  have hStands : r.StandsIn text.toList :=
    ⟨['ü'], hText, rfl⟩
  have hPlace : e.place? = some ('v', 3) := rfl
  have hRead : (r.readType false).1 = .error e := rfl
  have hPack :
      (Conversion.standard.packNext items r).1 = .error e :=
    rfl
  rcases hasCharAt_iff_not_lacksKey hStands hPlace with
    ⟨hReads, hPacks⟩
  have hChar := hReads false hRead
  exact
    ⟨hStands, hPlace, hRead, hPack, hChar,
      (hPacks .standard items hPack).mp hChar⟩

/- A brace alone lacks a key, and has no closing brace. -/
theorem not_hasCharAt_loneBrace :
    let r := Reader.ofString "\x7b" defaultMaxDepth
    let items := Value.array [.null, .null]
    r.StandsIn "\x7b".toList ∧
      (Conversion.standard.packNext items r).1 =
          .error (.simpleTypeExpected '}' 1) ∧
        ¬ HasCharAt "\x7b".toList '}' 1 := by
  intro r items
  have hReader : r = .ofChars ['{'] defaultMaxDepth := rfl
  refine ⟨Reader.standsIn_ofString "\x7b" _, ?_, ?_⟩
  · rw [hReader]
    rfl
  · intro hChar
    exact absurd (lt_size_of_hasCharAt hChar) (by decide)

end Conversion

end GVariant
