import GVariant.Proofs.Signature.Reading

/-
  The grammar of type strings, and that readers accept
  exactly what it derives.

  A single complete type is derived by

    T ::= B | v | m T | a T | ( T* ) | { B T }

  where `B` is the character of a basic type. A derivation
  counts the levels of the text: one for every step from a
  container to a member, so that the empty tuple has none
  and the array of bytes has one. No derivable text is a
  proper prefix of another one, so there is at most one type
  at any place of any text.

  Key definitions include:
    * `Grammar.Derives`
    * `Grammar.DerivesRow`
    * `Grammar.IsSingleType`
    * `Reader.CanTake`

  Main declarations:
    * `Ty.chars_append_inj`
    * `Grammar.derives_iff`
    * `Grammar.eq_of_derives`
    * `Reader.readType_eq_ok_iff`
    * `Reader.readType_isOk_iff_canTake`
-/

------------------------------------------------------------
-- Derivations
------------------------------------------------------------

namespace GVariant

namespace Grammar

mutual

/- The texts of single complete types, with their levels. -/
inductive Derives : (nesting : Nat) → List Char → Prop
  | basic (type : BasicType) :
      Derives 0 [type.char]
  | «variant» :
      Derives 0 ['v']
  | maybe {nesting : Nat} {element : List Char} :
      Derives nesting element →
        Derives (nesting + 1) ('m' :: element)
  | array {nesting : Nat} {element : List Char} :
      Derives nesting element →
        Derives (nesting + 1) ('a' :: element)
  | tuple {nesting : Nat} {members : List Char} :
      DerivesRow nesting members →
        Derives nesting ('(' :: (members ++ [')']))
  | dictEntry
      (key : BasicType)
      {nesting : Nat}
      {value : List Char} :
      Derives nesting value →
        Derives (nesting + 1)
          ('{' :: key.char :: (value ++ ['}']))

/-
  The texts between the parentheses of tuples, with the
  levels that they give to the tuple.
-/
inductive DerivesRow : (nesting : Nat) → List Char → Prop
  | nil :
      DerivesRow 0 []
  | cons
      {nesting nesting' : Nat}
      {member members : List Char} :
      Derives nesting member →
        DerivesRow nesting' members →
          DerivesRow (max (nesting + 1) nesting')
            (member ++ members)

end

/-
  A text is one single complete type that nests no deeper
  than a limit.
-/
def IsSingleType (limit : Nat) (text : List Char) : Prop :=
  ∃ nesting ≤ limit, Derives nesting text

end Grammar

end GVariant

------------------------------------------------------------
-- Derivable Texts Are Type Strings
------------------------------------------------------------

namespace GVariant

namespace Grammar

mutual

/- The type string of a type is derivable. -/
theorem derives_chars :
    (type : Ty) → Derives type.nesting type.chars
| .basic type => .basic type
| .variant => .variant
| .maybe element => .maybe (derives_chars element)
| .array element => .array (derives_chars element)
| .tuple items => .tuple (derivesRow_charsAll items)
| .dictEntry key value => .dictEntry key (derives_chars value)

theorem derivesRow_charsAll :
    (items : List Ty) →
      DerivesRow (Ty.nestingAll items) (Ty.charsAll items)
| [] => .nil
| item :: items =>
    .cons (derives_chars item) (derivesRow_charsAll items)

end

mutual

/- A derivation is a type. -/
theorem exists_type_of_derives
    {nesting : Nat}
    {text : List Char} :
    Derives nesting text →
      ∃ type : Ty, type.chars = text ∧ type.nesting = nesting
| .basic type => ⟨.basic type, rfl, rfl⟩
| .variant => ⟨.variant, rfl, rfl⟩
| .maybe hElement => by
    rcases exists_type_of_derives hElement with
      ⟨element, rfl, rfl⟩
    exact ⟨.maybe element, rfl, rfl⟩
| .array hElement => by
    rcases exists_type_of_derives hElement with
      ⟨element, rfl, rfl⟩
    exact ⟨.array element, rfl, rfl⟩
| .tuple hMembers => by
    rcases exists_types_of_derivesRow hMembers with
      ⟨items, rfl, rfl⟩
    exact ⟨.tuple items, rfl, rfl⟩
| .dictEntry key hValue => by
    rcases exists_type_of_derives hValue with
      ⟨value, rfl, rfl⟩
    exact ⟨.dictEntry key value, rfl, rfl⟩

theorem exists_types_of_derivesRow
    {nesting : Nat}
    {text : List Char} :
    DerivesRow nesting text →
      ∃ items : List Ty,
        Ty.charsAll items = text ∧
          Ty.nestingAll items = nesting
| .nil => ⟨[], rfl, rfl⟩
| .cons hMember hMembers => by
    rcases exists_type_of_derives hMember with
      ⟨item, rfl, rfl⟩
    rcases exists_types_of_derivesRow hMembers with
      ⟨items, rfl, rfl⟩
    exact ⟨item :: items, rfl, rfl⟩

end

/- The derivable texts are the type strings. -/
theorem derives_iff
    {nesting : Nat}
    {text : List Char} :
    Derives nesting text ↔
      ∃ type : Ty,
        type.chars = text ∧ type.nesting = nesting := by
  constructor
  · exact exists_type_of_derives
  · rintro ⟨type, rfl, rfl⟩
    exact derives_chars type

theorem isSingleType_iff
    {limit : Nat}
    {text : List Char} :
    IsSingleType limit text ↔
      ∃ type : Ty,
        type.chars = text ∧ type.nesting ≤ limit := by
  constructor
  · rintro ⟨nesting, hLimit, hDerives⟩
    rcases derives_iff.mp hDerives with ⟨type, hChars, rfl⟩
    exact ⟨type, hChars, hLimit⟩
  · rintro ⟨type, rfl, hLimit⟩
    exact ⟨type.nesting, hLimit, derives_chars type⟩

end Grammar

end GVariant

------------------------------------------------------------
-- Type Strings Are Free Of Prefixes
------------------------------------------------------------

namespace GVariant

/-
  Two types that start the same text are the same: a reader
  with levels for both takes either, and it gives only one.
-/
theorem Ty.chars_append_inj
    {type other : Ty}
    {rest rest' : List Char}
    (hText : type.chars ++ rest = other.chars ++ rest') :
    type = other ∧ rest = rest' := by
  let r := Reader.ofChars (type.chars ++ rest) 0
  have hType :
      Reader.read (max type.nesting other.nesting + 1) r =
        (.ok type, r.after type.chars rest) :=
    Reader.read_chars type (by omega) rfl
  have hOther :
      Reader.read (max type.nesting other.nesting + 1) r =
        (.ok other, r.after other.chars rest') :=
    Reader.read_chars other (by omega) hText
  rw [hType] at hOther
  have hSame : type = other :=
    Except.ok.inj (Prod.mk.inj hOther).1
  subst hSame
  exact ⟨rfl, List.append_cancel_left hText⟩

/- Types with the same type string are the same. -/
theorem Ty.chars_injective
    {type other : Ty}
    (hChars : type.chars = other.chars) :
    type = other := by
  have hText : type.chars ++ [] = other.chars ++ [] := by
    rw [hChars]
  exact (chars_append_inj hText).1

/- At most one derivable text starts a text. -/
theorem Grammar.eq_of_derives
    {nesting nesting' : Nat}
    {taken other text : List Char}
    (hTaken : Derives nesting taken)
    (hOther : Derives nesting' other)
    (hTakenPrefix : taken <+: text)
    (hOtherPrefix : other <+: text) :
    taken = other := by
  rcases derives_iff.mp hTaken with ⟨type, rfl, _⟩
  rcases derives_iff.mp hOther with ⟨type', rfl, _⟩
  rcases hTakenPrefix with ⟨rest, hText⟩
  rcases hOtherPrefix with ⟨rest', hText'⟩
  rw [(Ty.chars_append_inj (hText.trans hText'.symm)).1]

end GVariant

------------------------------------------------------------
-- What A Reader Takes
------------------------------------------------------------

namespace GVariant

namespace Reader

/-
  A type is read where its type string is and its levels are
  within the limit, and by force only if it is basic.
-/
theorem readType_eq_ok_iff
    {r r' : Reader}
    {forceSimple : Bool}
    {type : Ty} :
    r.readType forceSimple = (.ok type, r') ↔
      r.Took type.chars r' ∧
        type.nesting ≤ r.maxDepth ∧
          (forceSimple = true →
            ∃ key : BasicType, type = .basic key) := by
  have hLevels : 0 < r.levelsAt 0 := by
    unfold levelsAt
    omega
  cases forceSimple with
  | false =>
      constructor
      · intro hRead
        rcases took_of_readAt 0 hRead with ⟨hTook, hNested⟩
        rw [Nat.zero_add] at hNested
        exact ⟨hTook, hNested, by simp⟩
      · rintro ⟨hTook, hNested, _⟩
        have hRead :
            r.readType false =
              (.ok type, r.after type.chars r'.rest) := by
          refine readAt_chars hTook.1 ?_
          rwa [Nat.zero_add]
        rw [hRead, ← hTook.2]
  | true =>
      constructor
      · intro hRead
        simp only [readType, if_true] at hRead
        split at hRead
        · cases hRead
        · rename_i key _ hKey
          cases hRead
          exact
            ⟨took_of_readBasic hKey, Nat.zero_le _,
              fun _ => ⟨key, rfl⟩⟩
      · rintro ⟨hTook, _, hBasic⟩
        rcases hBasic rfl with ⟨key, rfl⟩
        have hRead := readBasic_char key hLevels hTook.1
        simp only [readType, if_true, hRead]
        exact Prod.ext rfl hTook.2.symm

/-
  A text that a reader can take as a type: it is what is
  read next, it is one single complete type within the
  limit, and it is a basic type if that is asked for.
-/
structure CanTake
    (r : Reader)
    (forceSimple : Bool)
    (taken : List Char) : Prop where
  isPrefix : taken <+: r.rest
  isSingleType : Grammar.IsSingleType r.maxDepth taken
  isBasic :
    forceSimple = true →
      ∃ key : BasicType, taken = [key.char]

/- What can be taken is the type string of what is read. -/
theorem canTake_iff
    {r : Reader}
    {forceSimple : Bool}
    {taken : List Char} :
    r.CanTake forceSimple taken ↔
      ∃ type r',
        r.readType forceSimple = (.ok type, r') ∧
          taken = type.chars := by
  constructor
  · rintro ⟨⟨rest, hRest⟩, hSingle, hBasic⟩
    rcases Grammar.isSingleType_iff.mp hSingle with
      ⟨type, rfl, hNested⟩
    refine ⟨type, r.after type.chars rest, ?_, rfl⟩
    refine
      readType_eq_ok_iff.mpr
        ⟨⟨hRest.symm, rfl⟩, hNested, ?_⟩
    intro hForce
    rcases hBasic hForce with ⟨key, hKey⟩
    have hChars : type.chars = (Ty.basic key).chars := hKey
    exact ⟨key, Ty.chars_injective hChars⟩
  · rintro ⟨type, r', hRead, rfl⟩
    rcases readType_eq_ok_iff.mp hRead with
      ⟨hTook, hNested, hBasic⟩
    refine ⟨⟨r'.rest, hTook.1.symm⟩, ?_, ?_⟩
    · exact Grammar.isSingleType_iff.mpr ⟨type, rfl, hNested⟩
    · intro hForce
      rcases hBasic hForce with ⟨key, rfl⟩
      exact ⟨key, rfl⟩

end Reader

end GVariant

------------------------------------------------------------
-- Readers Accept The Grammar
------------------------------------------------------------

namespace GVariant

/- ASCII text takes one byte for each character. -/
theorem utf8ByteSize_ofList
    {text : List Char}
    (hAscii : ∀ c ∈ text, c.toNat < 128) :
    (String.ofList text).utf8ByteSize = text.length := by
  induction text with
  | nil => rfl
  | cons c text ih =>
      rcases List.forall_mem_cons.mp hAscii with
        ⟨hFirst, hOthers⟩
      have hSize : c.utf8Size = 1 :=
        Char.utf8Size_eq_one_iff.mpr
          (UInt32.le_iff_toNat_le.mpr
            (Nat.le_of_lt_succ hFirst))
      rw [String.ofList_cons, String.utf8ByteSize_append,
        String.utf8ByteSize_singleton, ih hOthers, hSize,
        List.length_cons, Nat.add_comm]

/- A type string takes one byte for each character. -/
theorem Ty.utf8ByteSize_signature
    (type : Ty) :
    type.signature.utf8ByteSize = type.chars.length :=
  utf8ByteSize_ofList fun c hMem => (type.chars_ascii c hMem).2

namespace Reader

/- A signature is read as a whole if it is a type string. -/
theorem readWhole_ofString_eq_ok_iff
    {signature : String}
    {limit : Nat}
    {type : Ty} :
    (ofString signature limit).readWhole = .ok type ↔
      type.chars = signature.toList ∧
        type.nesting ≤ limit := by
  constructor
  · intro hRead
    rcases eq_chars_of_readWhole hRead with ⟨hRest, hNested⟩
    exact ⟨hRest.symm, hNested⟩
  · rintro ⟨hChars, hNested⟩
    rw [ofString, ← hChars]
    exact readWhole_chars type hNested

/-
  A reader took a text as a type and stands behind it. No
  other start of what was unread is derivable, at any number
  of levels.
-/
structure TookType
    (r : Reader)
    (taken : List Char)
    (type : Ty)
    (r' : Reader) : Prop where
  eq_of_derives :
    ∀ nesting other,
      other <+: r.rest →
        Grammar.Derives nesting other → other = taken
  signature_eq : type.signature = String.ofList taken
  cls_eq :
    taken.head?.bind TypeClass.ofChar? = some type.cls
  rest_eq : r.rest = taken ++ r'.rest
  position_eq :
    r'.position =
      r.position + (String.ofList taken).utf8ByteSize
  maxDepth_eq : r'.maxDepth = r.maxDepth

/- What was read is the text that was taken. -/
theorem tookType_of_readType
    {r r' : Reader}
    {forceSimple : Bool}
    {type : Ty}
    (hRead : r.readType forceSimple = (.ok type, r')) :
    r.TookType type.chars type r' := by
  rcases readType_eq_ok_iff.mp hRead with ⟨hTook, _, _⟩
  have hPrefix : type.chars <+: r.rest :=
    ⟨r'.rest, hTook.1.symm⟩
  refine ⟨?_, rfl, ?_, hTook.1, ?_, ?_⟩
  · intro nesting other hOther hDerives
    exact
      Grammar.eq_of_derives hDerives
        (Grammar.derives_chars type) hOther hPrefix
  · rcases type.chars_eq_cons with ⟨tail, hChars⟩
    rw [hChars]
    exact TypeClass.ofChar?_char type.cls
  · rw [← Ty.signature, Ty.utf8ByteSize_signature, hTook.2]
    rfl
  · rw [hTook.2, maxDepth_after]

/-
  A reader at any position of any text gives a type exactly
  if the grammar derives a start of what is unread, within
  the limit, and as a basic type if that is asked for. The
  start is then the only derivable one, is the type string
  of the type, and is what the reader moves over. A whole
  text is a type exactly if it is derivable with at most 64
  levels.
-/
theorem readType_isOk_iff_canTake :
    (∀ (r : Reader) (forceSimple : Bool),
      ((∃ type r', r.readType forceSimple = (.ok type, r')) ↔
          ∃ taken, r.CanTake forceSimple taken) ∧
        ∀ type r',
          r.readType forceSimple = (.ok type, r') →
            ∃ taken,
              r.CanTake forceSimple taken ∧
                r.TookType taken type r') ∧
      ∀ signature : String,
        (∃ type, Ty.parse signature = .ok type) ↔
          Grammar.IsSingleType 64 signature.toList := by
  refine ⟨?_, ?_⟩
  · intro r forceSimple
    refine ⟨⟨?_, ?_⟩, ?_⟩
    · rintro ⟨type, r', hRead⟩
      exact
        ⟨type.chars, canTake_iff.mpr ⟨type, r', hRead, rfl⟩⟩
    · rintro ⟨taken, hTake⟩
      rcases canTake_iff.mp hTake with ⟨type, r', hRead, _⟩
      exact ⟨type, r', hRead⟩
    · intro type r' hRead
      exact
        ⟨type.chars, canTake_iff.mpr ⟨type, r', hRead, rfl⟩,
          tookType_of_readType hRead⟩
  · intro signature
    rw [Grammar.isSingleType_iff]
    exact exists_congr fun _ => readWhole_ofString_eq_ok_iff

/-
  A reader behind a character of two bytes, with a limit
  that the type just keeps.
-/
def betweenUmlauts : Reader where
  rest := ['(', 'a', 'y', '(', ')', ')', 'ü']
  position := 2
  maxDepth := 2

theorem readType_betweenUmlauts :
    betweenUmlauts.readType false =
        (.ok (.tuple [.byteString, .unit]),
          ⟨['ü'], 8, 2⟩) ∧
      ∃ taken,
        betweenUmlauts.CanTake false taken ∧
          betweenUmlauts.TookType taken
            (.tuple [.byteString, .unit]) ⟨['ü'], 8, 2⟩ := by
  have hRead :
      betweenUmlauts.readType false =
        (.ok (.tuple [.byteString, .unit]),
          ⟨['ü'], 8, 2⟩) := rfl
  exact
    ⟨hRead,
      (readType_isOk_iff_canTake.1 betweenUmlauts false).2
        _ _ hRead⟩

end Reader

end GVariant
