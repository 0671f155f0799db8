import GVariant.Signature.Basic

/-
  Reading types from their type strings.

  The levels of a type are those that the reader counts: one
  for every step from a container to a member, the bytes of
  a byte array included. A reader with enough levels takes
  exactly the type string of a type, whatever follows it,
  and gives the type. Conversely, whatever type a reader
  gives, the characters that it took are the type string.

  Key definitions include:
    * `Ty.nesting`
    * `Ty.nestingAll`
    * `Reader.after`

  Main declarations:
    * `Ty.induction`
    * `Reader.read_chars`
    * `Reader.took_of_read`
    * `Reader.readWhole_chars`
    * `Reader.eq_chars_of_readWhole`
    * `Signature.eq_charsAll_of_split`
    * `not_mem_of_isSignature`
-/

------------------------------------------------------------
-- Induction
------------------------------------------------------------

namespace GVariant

namespace Ty

/-
  Induction over a type, with a hypothesis for every item of
  a tuple.
-/
@[induction_eliminator]
theorem induction
    {motive : Ty → Prop}
    (basic : ∀ type, motive (.basic type))
    («variant» : motive .variant)
    (maybe :
      ∀ element, motive element → motive (.maybe element))
    (array :
      ∀ element, motive element → motive (.array element))
    (tuple :
      ∀ items,
        (∀ item ∈ items, motive item) →
          motive (.tuple items))
    (dictEntry :
      ∀ key value,
        motive value → motive (.dictEntry key value))
    (type : Ty) :
    motive type := by
  refine
    @Ty.rec motive (fun items => ∀ item ∈ items, motive item)
      basic «variant» maybe array tuple dictEntry ?_ ?_ type
  · simp
  · intro item items hItem hItems
    exact List.forall_mem_cons.mpr ⟨hItem, hItems⟩

end Ty

end GVariant

------------------------------------------------------------
-- Levels Of A Type
------------------------------------------------------------

namespace GVariant

namespace Ty

mutual

/- The levels of nesting below the outermost type. -/
def nesting : Ty → Nat
| .basic _ => 0
| .variant => 0
| .maybe element => element.nesting + 1
| .array element => element.nesting + 1
| .tuple items => nestingAll items
| .dictEntry _ value => value.nesting + 1

/- The levels that the members of a tuple add to it. -/
def nestingAll : List Ty → Nat
| [] => 0
| item :: items => max (item.nesting + 1) (nestingAll items)

end

theorem nestingAll_lt_iff
    (items : List Ty)
    {levels : Nat} :
    nestingAll items < levels + 1 ↔
      ∀ item ∈ items, item.nesting < levels := by
  induction items with
  | nil => simp [nestingAll]
  | cons item items ih =>
      simp only [nestingAll, List.mem_cons, forall_eq_or_imp,
        ← ih]
      omega

end Ty

end GVariant

------------------------------------------------------------
-- Characters Of Type Strings
------------------------------------------------------------

namespace GVariant

/- Type characters take one byte. -/
@[simp] theorem TypeClass.utf8Size_char
    (cls : TypeClass) :
    cls.char.utf8Size = 1 := by
  cases cls with
  | basic type =>
      cases type with
      | int kind => cases kind <;> rfl
      | text kind => cases kind <;> rfl
      | _ => rfl
  | _ => rfl

/- A type character closes no tuple. -/
theorem TypeClass.char_ne_close
    (cls : TypeClass) :
    cls.char ≠ ')' := by
  cases cls with
  | basic type =>
      cases type with
      | int kind => cases kind <;> decide
      | text kind => cases kind <;> decide
      | _ => decide
  | _ => decide

namespace Ty

/- A type string starts with the character of its class. -/
theorem chars_eq_cons
    (type : Ty) :
    ∃ rest, type.chars = type.cls.char :: rest := by
  cases type <;> exact ⟨_, rfl⟩

theorem length_chars_pos
    (type : Ty) :
    0 < type.chars.length := by
  obtain ⟨rest, hChars⟩ := type.chars_eq_cons
  simp [hChars]

/- There are at least as many characters as types. -/
theorem length_le_length_charsAll
    (items : List Ty) :
    items.length ≤ (charsAll items).length := by
  induction items with
  | nil => simp [charsAll]
  | cons item items ih =>
      have hPos := item.length_chars_pos
      simp only [charsAll, List.length_cons,
        List.length_append]
      omega

end Ty

end GVariant

------------------------------------------------------------
-- Readers Moved Forward
------------------------------------------------------------

namespace GVariant

namespace Reader

/-
  The reader behind some characters of a type string, which
  take one byte each, with the given rest.
-/
def after
    (r : Reader)
    (taken rest : List Char) : Reader :=
  { r with
    rest := rest
    position := r.position + taken.length }

@[simp] theorem rest_after
    (r : Reader)
    (taken rest : List Char) :
    (r.after taken rest).rest = rest := rfl

@[simp] theorem maxDepth_after
    (r : Reader)
    (taken rest : List Char) :
    (r.after taken rest).maxDepth = r.maxDepth := rfl

@[simp] theorem after_after
    (r : Reader)
    (taken taken' rest rest' : List Char) :
    (r.after taken rest).after taken' rest' =
      r.after (taken ++ taken') rest' := by
  simp [after, Nat.add_assoc]

theorem after_nil
    {r : Reader}
    {rest : List Char}
    (hRest : r.rest = rest) :
    r.after [] rest = r := by
  cases r
  cases hRest
  rfl

/- Popping a character of one byte moves the reader by it. -/
theorem pop_cons
    {r : Reader}
    {c : Char}
    {rest : List Char}
    (hRest : r.rest = c :: rest)
    (hSize : c.utf8Size = 1) :
    r.pop = (some c, r.after [c] rest) := by
  simp [pop, hRest, hSize, after]

theorem pop_nil
    {r : Reader}
    (hRest : r.rest = []) :
    r.pop = (none, r) := by
  simp [pop, hRest]

end Reader

end GVariant

------------------------------------------------------------
-- Type Strings Are Read Back
------------------------------------------------------------

namespace GVariant

namespace Reader

/- A basic type is read back by the reader of keys. -/
theorem readBasic_char
    (type : BasicType)
    {levels : Nat}
    (hLevels : 0 < levels)
    {r : Reader}
    {rest : List Char}
    (hRest : r.rest = type.char :: rest) :
    readBasic levels r =
      (.ok type, r.after [type.char] rest) := by
  have hClass :
      TypeClass.ofChar? type.char = some (.basic type) :=
    TypeClass.ofChar?_char (.basic type)
  have hPop :=
    pop_cons hRest (TypeClass.utf8Size_char (.basic type))
  have hNonzero : levels ≠ 0 := by omega
  simp [readBasic, hNonzero, hPop, hClass]

/- The brace that closes an entry is taken. -/
theorem closeEntry_brace
    {r : Reader}
    {rest : List Char}
    (hRest : r.rest = '}' :: rest) :
    r.closeEntry = (.ok (), r.after ['}'] rest) := by
  have hPop := pop_cons hRest (by decide)
  simp [closeEntry, hPop]

/- Any other character than `)` starts a member. -/
theorem readMembers_of_peek
    {readMember : Reader → Step Ty}
    {rounds : Nat}
    {r : Reader}
    {c : Char}
    (hPeek : r.peek? = some c)
    (hOpen : c ≠ ')') :
    readMembers readMember (rounds + 1) r =
      match readMember r with
      | (.error e, r') => (.error e, r')
      | (.ok member, r') =>
          match readMembers readMember rounds r' with
          | (.error e, r'') => (.error e, r'')
          | (.ok members, r'') =>
              (.ok (member :: members), r'') := by
  rw [readMembers, hPeek]
  split
  · rename_i hNone
    cases hNone
  · rename_i hClose
    exact absurd (Option.some.inj hClose) hOpen
  · rfl

mutual

/-
  A reader with enough levels takes exactly the type string
  of the type it stands at.
-/
theorem read_chars :
    (type : Ty) →
      {levels : Nat} →
      type.nesting < levels →
      {r : Reader} →
      {rest : List Char} →
      r.rest = type.chars ++ rest →
        read levels r = (.ok type, r.after type.chars rest)
| .basic type, levels + 1, _, r, rest, hRest => by
    have hClass :
        TypeClass.ofChar? type.char = some (.basic type) :=
      TypeClass.ofChar?_char (.basic type)
    have hPop :=
      pop_cons (c := type.char) hRest
        (TypeClass.utf8Size_char (.basic type))
    simp [read, hPop, hClass, Ty.chars]
| .variant, levels + 1, _, r, rest, hRest => by
    have hPop := pop_cons (c := 'v') hRest (by decide)
    simp [read, hPop, TypeClass.ofChar?, Ty.chars]
| .maybe element, levels + 1, hLevels, r, rest, hRest => by
    have hPop := pop_cons (c := 'm') hRest (by decide)
    have hElement :=
      read_chars element
        (Nat.lt_of_succ_lt_succ hLevels)
        (r := r.after ['m'] (element.chars ++ rest)) rfl
    simp [read, hPop, TypeClass.ofChar?, Ty.chars, hElement]
| .array element, levels + 1, hLevels, r, rest, hRest => by
    have hPop := pop_cons (c := 'a') hRest (by decide)
    have hElement :=
      read_chars element
        (Nat.lt_of_succ_lt_succ hLevels)
        (r := r.after ['a'] (element.chars ++ rest)) rfl
    simp [read, hPop, TypeClass.ofChar?, Ty.chars, hElement]
| .tuple items, levels + 1, hLevels, r, rest, hRest => by
    have hRest' :
        r.rest = '(' :: (Ty.charsAll items ++ ')' :: rest) := by
      simp [hRest, Ty.chars]
    have hPop := pop_cons hRest' (by decide)
    have hLength := Ty.length_le_length_charsAll items
    have hRounds :
        items.length <
          (Ty.charsAll items).length + (rest.length + 1) := by
      omega
    have hItems :=
      readMembers_charsAll items
        ((Ty.nestingAll_lt_iff items).mp hLevels) hRounds
        (r := r.after ['('] (Ty.charsAll items ++ ')' :: rest))
        rfl
    simp [read, hPop, TypeClass.ofChar?, Ty.chars, hItems]
| .dictEntry key value, levels + 1, hLevels, r, rest, hRest => by
    have hRest' :
        r.rest =
          '{' :: key.char :: (value.chars ++ '}' :: rest) := by
      simp [hRest, Ty.chars]
    have hPop := pop_cons hRest' (by decide)
    have hValueLevels : value.nesting < levels :=
      Nat.lt_of_succ_lt_succ hLevels
    have hKey :=
      readBasic_char key (Nat.zero_lt_of_lt hValueLevels)
        (r := r.after ['{']
          (key.char :: (value.chars ++ '}' :: rest)))
        rfl
    have hValue :=
      read_chars value hValueLevels
        (r := r.after ['{', key.char]
          (value.chars ++ '}' :: rest))
        rfl
    have hClose :=
      closeEntry_brace
        (r := r.after ('{' :: key.char :: value.chars)
          ('}' :: rest))
        rfl
    simp [read, hPop, TypeClass.ofChar?, Ty.chars, hKey,
      hValue, hClose]

/- The members of a tuple are read up to its parenthesis. -/
theorem readMembers_charsAll :
    (items : List Ty) →
      {levels : Nat} →
      (∀ item ∈ items, item.nesting < levels) →
      {rounds : Nat} →
      items.length < rounds →
      {r : Reader} →
      {rest : List Char} →
      r.rest = Ty.charsAll items ++ ')' :: rest →
        readMembers (read levels) rounds r =
          (.ok items,
            r.after (Ty.charsAll items ++ [')']) rest)
| [], levels, _, rounds + 1, _, r, rest, hRest => by
    have hRest' : r.rest = ')' :: rest := hRest
    have hPop := pop_cons hRest' (by decide)
    simp [readMembers, peek?, hRest', hPop, Ty.charsAll]
| item :: items, levels, hLevels, rounds + 1, hRounds, r,
    rest, hRest => by
    have hRest' :
        r.rest =
          item.chars ++ (Ty.charsAll items ++ ')' :: rest) := by
      simp [hRest, Ty.charsAll]
    obtain ⟨tail, hChars⟩ := item.chars_eq_cons
    have hPeek : r.peek? = some item.cls.char := by
      simp [peek?, hRest', hChars]
    have hItem :=
      read_chars item (hLevels item List.mem_cons_self) hRest'
    have hItems :=
      readMembers_charsAll items
        (fun other hOther =>
          hLevels other (List.mem_cons_of_mem item hOther))
        (Nat.lt_of_succ_lt_succ hRounds)
        (r := r.after item.chars
          (Ty.charsAll items ++ ')' :: rest))
        rfl
    rw [readMembers_of_peek hPeek item.cls.char_ne_close]
    simp [hItem, hItems, Ty.charsAll]

end

end Reader

end GVariant

------------------------------------------------------------
-- What Was Read Is The Type String
------------------------------------------------------------

namespace GVariant

namespace Reader

/-
  A reader took some characters of a type string, and ended
  behind them.
-/
def Took (r : Reader) (taken : List Char) (r' : Reader) :
    Prop :=
  r.rest = taken ++ r'.rest ∧ r' = r.after taken r'.rest

namespace Took

theorem trans
    {r r' r'' : Reader}
    {taken taken' : List Char}
    (hFirst : r.Took taken r')
    (hSecond : r'.Took taken' r'') :
    r.Took (taken ++ taken') r'' := by
  constructor
  · rw [hFirst.1, hSecond.1, List.append_assoc]
  · calc
      r'' = r'.after taken' r''.rest := hSecond.2
      _ = (r.after taken r'.rest).after taken' r''.rest := by
        rw [← hFirst.2]
      _ = r.after (taken ++ taken') r''.rest := by simp

/- Taking characters keeps the limit. -/
theorem maxDepth_eq
    {r r' : Reader}
    {taken : List Char}
    (hTook : r.Took taken r') :
    r'.maxDepth = r.maxDepth := by
  rw [hTook.2, maxDepth_after]

/- The character that was popped is the one that was taken. -/
theorem of_pop
    {r r' : Reader}
    {c : Char}
    (hPop : r.pop = (some c, r'))
    (hSize : c.utf8Size = 1) :
    r.Took [c] r' := by
  cases hRest : r.rest with
  | nil =>
      rw [pop_nil hRest] at hPop
      cases hPop
  | cons c' rest =>
      have hPop' := hPop
      simp only [pop, hRest, Prod.mk.injEq,
        Option.some.injEq] at hPop'
      obtain ⟨rfl, rfl⟩ := hPop'
      rw [pop_cons hRest hSize] at hPop
      exact ⟨hRest, (Prod.mk.inj hPop).2.symm⟩

/- A popped character that announces a class was taken. -/
theorem of_pop_class
    {r r' : Reader}
    {c : Char}
    {cls : TypeClass}
    (hPop : r.pop = (some c, r'))
    (hClass : TypeClass.ofChar? c = some cls) :
    r.Took [cls.char] r' := by
  have hChar := TypeClass.char_of_ofChar? hClass
  subst hChar
  exact of_pop hPop cls.utf8Size_char

end Took

/- The key that was read is a basic type character. -/
theorem took_of_readBasic
    {levels : Nat}
    {r r' : Reader}
    {type : BasicType}
    (hRead : readBasic levels r = (.ok type, r')) :
    r.Took [type.char] r' := by
  unfold readBasic at hRead
  split at hRead
  · cases hRead
  · split at hRead
    · cases hRead
    · rename_i c s hPop
      split at hRead
      · rename_i found hClass
        cases hRead
        exact Took.of_pop_class hPop hClass
      · cases hRead

/- An entry that was closed had a brace there. -/
theorem took_of_closeEntry
    {r r' : Reader}
    (hClose : closeEntry r = (.ok (), r')) :
    r.Took ['}'] r' := by
  unfold closeEntry at hClose
  split at hClose
  · rename_i s hPop
    cases hClose
    exact Took.of_pop hPop (by decide)
  · cases hClose

/-
  The members that were read are the characters taken, if
  that holds of each single member.
-/
theorem took_of_readMembers
    {levels : Nat}
    (hMember :
      ∀ {r r' : Reader} {type : Ty},
        read levels r = (.ok type, r') →
          r.Took type.chars r' ∧ type.nesting < levels)
    {rounds : Nat}
    {r r' : Reader}
    {items : List Ty}
    (hRead :
      readMembers (read levels) rounds r = (.ok items, r')) :
    r.Took (Ty.charsAll items ++ [')']) r' ∧
      ∀ item ∈ items, item.nesting < levels := by
  induction rounds generalizing r items with
  | zero => cases hRead
  | succ rounds ih =>
      unfold readMembers at hRead
      split at hRead
      · cases hRead
      · rename_i hPeek
        cases hRest : r.rest with
        | nil => simp [peek?, hRest] at hPeek
        | cons c rest =>
            have hChar : c = ')' := by
              simpa [peek?, hRest] using hPeek
            subst hChar
            have hPop := pop_cons hRest (by decide)
            rw [hPop] at hRead
            cases hRead
            exact ⟨⟨hRest, rfl⟩, by simp⟩
      · split at hRead
        · cases hRead
        · rename_i member s hFirst
          split at hRead
          · cases hRead
          · rename_i members s' hRest
            cases hRead
            have hTook := hMember hFirst
            have hTooks := ih hRest
            constructor
            · have hAll := hTook.1.trans hTooks.1
              simpa [Ty.charsAll] using hAll
            · intro item hItem
              rcases List.mem_cons.mp hItem with rfl | hItem
              · exact hTook.2
              · exact hTooks.2 item hItem

/-
  The characters taken by a successful reading are the type
  string of the type, which has fewer levels than were left.
-/
theorem took_of_read
    {levels : Nat}
    {r r' : Reader}
    {type : Ty}
    (hRead : read levels r = (.ok type, r')) :
    r.Took type.chars r' ∧ type.nesting < levels := by
  induction levels generalizing r r' type with
  | zero => cases hRead
  | succ levels ih =>
      unfold read at hRead
      split at hRead
      · cases hRead
      · rename_i c s hPop
        split at hRead
        · cases hRead
        · rename_i found hClass
          cases hRead
          exact
            ⟨Took.of_pop_class hPop hClass,
              Nat.succ_pos levels⟩
        · rename_i hClass
          cases hRead
          exact
            ⟨Took.of_pop_class hPop hClass,
              Nat.succ_pos levels⟩
        · rename_i hClass
          split at hRead
          · cases hRead
          · rename_i element s' hElement
            cases hRead
            have hInner := ih hElement
            exact
              ⟨(Took.of_pop_class hPop hClass).trans hInner.1,
                Nat.succ_lt_succ hInner.2⟩
        · rename_i hClass
          split at hRead
          · cases hRead
          · rename_i element s' hElement
            cases hRead
            have hInner := ih hElement
            exact
              ⟨(Took.of_pop_class hPop hClass).trans hInner.1,
                Nat.succ_lt_succ hInner.2⟩
        · rename_i hClass
          split at hRead
          · cases hRead
          · rename_i items s' hItems
            cases hRead
            have hInner := took_of_readMembers ih hItems
            exact
              ⟨(Took.of_pop_class hPop hClass).trans hInner.1,
                (Ty.nestingAll_lt_iff items).mpr hInner.2⟩
        · rename_i hClass
          split at hRead
          · cases hRead
          · rename_i key s' hKey
            split at hRead
            · cases hRead
            · rename_i value s'' hValue
              split at hRead
              · cases hRead
              · rename_i s''' hClose
                cases hRead
                have hInner := ih hValue
                have hTook :=
                  (((Took.of_pop_class hPop hClass).trans
                    (took_of_readBasic hKey)).trans
                    hInner.1).trans
                    (took_of_closeEntry hClose)
                refine ⟨?_, Nat.succ_lt_succ hInner.2⟩
                simpa [Ty.chars, TypeClass.char] using hTook

end Reader

end GVariant

------------------------------------------------------------
-- Whole Signatures
------------------------------------------------------------

namespace GVariant

namespace Reader

/- A type below the outermost is read with the levels left. -/
theorem readAt_chars
    {type : Ty}
    {r : Reader}
    {rest : List Char}
    {depth : Nat}
    (hRest : r.rest = type.chars ++ rest)
    (hDepth : depth + type.nesting ≤ r.maxDepth) :
    r.readAt depth = (.ok type, r.after type.chars rest) := by
  have hLevels : type.nesting < r.levelsAt depth := by
    unfold levelsAt
    omega
  exact read_chars type hLevels hRest

/- What is read below the outermost type fits the limit. -/
theorem took_of_readAt
    {type : Ty}
    {r r' : Reader}
    (depth : Nat)
    (hRead : r.readAt depth = (.ok type, r')) :
    r.Took type.chars r' ∧
      depth + type.nesting ≤ r.maxDepth := by
  have hTook := took_of_read hRead
  have hLevels : type.nesting < r.maxDepth + 1 - depth :=
    hTook.2
  exact ⟨hTook.1, by omega⟩

/- A type string within the limit is read as a whole. -/
theorem readWhole_chars
    (type : Ty)
    {limit : Nat}
    (hLimit : type.nesting ≤ limit) :
    (ofChars type.chars limit).readWhole = .ok type := by
  have hRead :
      (ofChars type.chars limit).readType false =
        (.ok type,
          (ofChars type.chars limit).after type.chars []) := by
    refine readAt_chars (by simp [ofChars]) ?_
    simpa [ofChars] using hLimit
  simp [readWhole, hRead, expectEnd, isEmpty]

/- Text that is read as a whole is the type string. -/
theorem eq_chars_of_readWhole
    {r : Reader}
    {type : Ty}
    (hRead : r.readWhole = .ok type) :
    r.rest = type.chars ∧ type.nesting ≤ r.maxDepth := by
  unfold readWhole at hRead
  split at hRead
  · cases hRead
  · rename_i found r' hType
    have hTook := took_of_readAt 0 hType
    unfold expectEnd at hRead
    by_cases hEmpty : r'.isEmpty
    · simp only [hEmpty, if_true] at hRead
      cases hRead
      have hRest : r'.rest = [] :=
        List.isEmpty_iff.mp hEmpty
      constructor
      · simpa [hRest] using hTook.1.1
      · simpa using hTook.2
    · simp [hEmpty] at hRead

end Reader

namespace Signature

/-
  Reading types to the end leaves nothing out: the text is
  the type strings in a row.
-/
theorem eq_charsAll_of_readAll
    {rounds : Nat}
    {r : Reader}
    {types : List Ty}
    (hRounds : r.rest.length ≤ rounds)
    (hRead : readAll rounds r = .ok types) :
    r.rest = Ty.charsAll types := by
  induction rounds generalizing r types with
  | zero =>
      cases hRead
      simpa [Ty.charsAll] using hRounds
  | succ rounds ih =>
      unfold readAll at hRead
      by_cases hEmpty : r.isEmpty
      · simp only [hEmpty, if_true] at hRead
        cases hRead
        exact List.isEmpty_iff.mp hEmpty
      · simp only [hEmpty, Bool.false_eq_true,
          if_false] at hRead
        split at hRead
        · cases hRead
        · rename_i type r' hType
          split at hRead
          · cases hRead
          · rename_i types' hRest
            cases hRead
            have hTook :=
              (Reader.took_of_readAt 0 hType).1
            have hPos := type.length_chars_pos
            have hLength := congrArg List.length hTook.1
            have hTail : r'.rest = Ty.charsAll types' := by
              apply ih _ hRest
              rw [List.length_append] at hLength
              omega
            rw [hTook.1, hTail, Ty.charsAll]

/- A signature is the type strings of its types in a row. -/
theorem eq_charsAll_of_split
    {signature : String}
    {types : List Ty}
    (hSplit : split signature = .ok types) :
    signature.toList = Ty.charsAll types :=
  eq_charsAll_of_readAll (Nat.le_refl _) hSplit

end Signature

end GVariant

------------------------------------------------------------
-- Type Strings Are ASCII
------------------------------------------------------------

namespace GVariant

/- Type characters are ASCII characters other than NUL. -/
theorem TypeClass.char_ascii
    (cls : TypeClass) :
    0 < cls.char.toNat ∧ cls.char.toNat < 128 := by
  cases cls with
  | basic type =>
      cases type with
      | int kind => cases kind <;> decide
      | text kind => cases kind <;> decide
      | _ => decide
  | _ => decide

namespace Ty

mutual

/- A type string has only ASCII characters other than NUL. -/
theorem chars_ascii :
    (type : Ty) →
      ∀ c ∈ type.chars, 0 < c.toNat ∧ c.toNat < 128
| .basic type, c, hMem => by
    have hChar : c = type.char := by
      simpa [chars] using hMem
    rw [hChar]
    exact TypeClass.char_ascii (.basic type)
| .variant, c, hMem => by
    have hChar : c = 'v' := by simpa [chars] using hMem
    rw [hChar]
    decide
| .maybe element, c, hMem => by
    rcases List.mem_cons.mp hMem with rfl | hMem
    · decide
    · exact chars_ascii element c hMem
| .array element, c, hMem => by
    rcases List.mem_cons.mp hMem with rfl | hMem
    · decide
    · exact chars_ascii element c hMem
| .tuple items, c, hMem => by
    simp only [chars, List.mem_cons, List.mem_append,
      List.not_mem_nil, or_false] at hMem
    rcases hMem with rfl | hMem | rfl
    · decide
    · exact charsAll_ascii items c hMem
    · decide
| .dictEntry key value, c, hMem => by
    simp only [chars, List.mem_cons, List.mem_append,
      List.not_mem_nil, or_false] at hMem
    rcases hMem with rfl | rfl | hMem | rfl
    · decide
    · exact TypeClass.char_ascii (.basic key)
    · exact chars_ascii value c hMem
    · decide

theorem charsAll_ascii :
    (items : List Ty) →
      ∀ c ∈ charsAll items, 0 < c.toNat ∧ c.toNat < 128
| [], c, hMem => by
    simp [charsAll] at hMem
| item :: items, c, hMem => by
    rw [charsAll, List.mem_append] at hMem
    rcases hMem with hMem | hMem
    · exact chars_ascii item c hMem
    · exact charsAll_ascii items c hMem

end

end Ty

/- A signature has no NUL. -/
theorem not_mem_of_isSignature
    {text : String}
    (hSignature : isSignature text) :
    '\x00' ∉ text.toList := by
  intro hMem
  unfold isSignature at hSignature
  split at hSignature
  · rename_i types hSplit
    rw [Signature.eq_charsAll_of_split hSplit] at hMem
    have hAscii := Ty.charsAll_ascii types _ hMem
    exact absurd hAscii.1 (by decide)
  · cases hSignature

end GVariant
