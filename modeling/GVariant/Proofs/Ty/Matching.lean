import GVariant.Proofs.Signature.Grammar
import GVariant.Ty.Pattern

/-
  What it means to match a pattern.

  A pattern stands for the texts that are obtained from it
  by replacing every `*` by a single complete type, every
  `?` by a basic type and every `r` by a tuple type. Any
  other character stands for itself, whether the pattern is
  well-formed or not. A type matches a pattern exactly if
  its type string is one of these texts.

  The matcher goes through the pattern once and never comes
  back. It need not, since at every place of a type string
  where no bracket closes there is exactly one type, and
  counting brackets finds where this type ends.

  Key definitions include:
    * `Pattern.IsWildcard`
    * `Pattern.StandsFor`
    * `Pattern.Obtained`
    * `Pattern.TypesInside`
    * `ArrayKind.ofPattern?`

  Main declarations:
    * `Pattern.typeLengthFrom_chars`
    * `Pattern.typesInside_chars`
    * `Pattern.matchChars_iff`
    * `Ty.isSubtypeOf_iff_obtained`
-/

------------------------------------------------------------
-- What Patterns Stand For
------------------------------------------------------------

namespace GVariant

namespace Pattern

/- The characters that stand for types. -/
abbrev IsWildcard (c : Char) : Prop :=
  c = '*' ∨ c = '?' ∨ c = 'r'

/- The texts that a character of a pattern stands for. -/
inductive StandsFor : Char → List Char → Prop
| any (type : Ty) :
    StandsFor '*' type.chars
| basic (type : BasicType) :
    StandsFor '?' [type.char]
| tuple (items : List Ty) :
    StandsFor 'r' (Ty.tuple items).chars
| itself
    {c : Char}
    (hPlain : ¬ IsWildcard c) :
    StandsFor c [c]

/-
  A text is obtained from a pattern by replacing each of its
  characters by a text that the character stands for.
-/
inductive Obtained : (pattern text : List Char) → Prop
| nil :
    Obtained [] []
| cons
    {c : Char}
    {piece pattern rest : List Char}
    (hFirst : StandsFor c piece)
    (hOthers : Obtained pattern rest) :
    Obtained (c :: pattern) (piece ++ rest)

theorem standsFor_any_iff
    {piece : List Char} :
    StandsFor '*' piece ↔
      ∃ type : Ty, piece = type.chars := by
  constructor
  · intro hStands
    cases hStands with
    | any type => exact ⟨type, rfl⟩
    | itself hPlain => exact absurd (.inl rfl) hPlain
  · rintro ⟨type, rfl⟩
    exact .any type

theorem standsFor_basic_iff
    {piece : List Char} :
    StandsFor '?' piece ↔
      ∃ type : BasicType, piece = [type.char] := by
  constructor
  · intro hStands
    cases hStands with
    | basic type => exact ⟨type, rfl⟩
    | itself hPlain =>
        exact absurd (.inr (.inl rfl)) hPlain
  · rintro ⟨type, rfl⟩
    exact .basic type

theorem standsFor_tuple_iff
    {piece : List Char} :
    StandsFor 'r' piece ↔
      ∃ items, piece = (Ty.tuple items).chars := by
  constructor
  · intro hStands
    cases hStands with
    | tuple items => exact ⟨items, rfl⟩
    | itself hPlain =>
        exact absurd (.inr (.inr rfl)) hPlain
  · rintro ⟨items, rfl⟩
    exact .tuple items

theorem standsFor_itself_iff
    {c : Char}
    {piece : List Char}
    (hPlain : ¬ IsWildcard c) :
    StandsFor c piece ↔ piece = [c] := by
  constructor
  · intro hStands
    cases hStands with
    | any _ => exact absurd (.inl rfl) hPlain
    | basic _ => exact absurd (.inr (.inl rfl)) hPlain
    | tuple _ => exact absurd (.inr (.inr rfl)) hPlain
    | itself _ => rfl
  · rintro rfl
    exact .itself hPlain

/- A character stands for itself or for types. -/
theorem StandsFor.eq_or_exists_type
    {c : Char}
    {piece : List Char}
    (hStands : StandsFor c piece) :
    piece = [c] ∨ ∃ type : Ty, piece = type.chars := by
  cases hStands with
  | any type => exact .inr ⟨type, rfl⟩
  | basic type => exact .inr ⟨.basic type, rfl⟩
  | tuple items => exact .inr ⟨.tuple items, rfl⟩
  | itself _ => exact .inl rfl

/- No character stands for the empty text. -/
theorem StandsFor.ne_nil
    {c : Char}
    {piece : List Char}
    (hStands : StandsFor c piece) :
    piece ≠ [] := by
  rcases hStands.eq_or_exists_type with rfl | ⟨type, rfl⟩
  · exact List.cons_ne_nil c []
  · exact List.ne_nil_of_length_pos type.length_chars_pos

theorem obtained_nil_iff
    {text : List Char} :
    Obtained [] text ↔ text = [] := by
  constructor
  · intro hObtained
    cases hObtained
    rfl
  · rintro rfl
    exact .nil

/- The first character of a pattern, and what is behind it. -/
theorem obtained_cons_iff
    {c : Char}
    {pattern text : List Char} :
    Obtained (c :: pattern) text ↔
      ∃ piece rest,
        StandsFor c piece ∧
          text = piece ++ rest ∧
          Obtained pattern rest := by
  constructor
  · intro hObtained
    cases hObtained with
    | cons hFirst hOthers =>
        exact ⟨_, _, hFirst, rfl, hOthers⟩
  · rintro ⟨piece, rest, hFirst, rfl, hOthers⟩
    exact .cons hFirst hOthers

/- A character that is no wildcard is just taken off. -/
theorem obtained_cons_plain_iff
    {c : Char}
    {pattern text : List Char}
    (hPlain : ¬ IsWildcard c) :
    Obtained (c :: pattern) text ↔
      ∃ rest, text = c :: rest ∧ Obtained pattern rest := by
  rw [obtained_cons_iff]
  simp [standsFor_itself_iff hPlain]

theorem not_obtained_cons_nil
    {c : Char}
    {pattern : List Char} :
    ¬ Obtained (c :: pattern) [] := by
  intro hObtained
  rcases obtained_cons_iff.mp hObtained with
    ⟨piece, rest, hStands, hText, _⟩
  exact
    hStands.ne_nil (List.append_eq_nil_iff.mp hText.symm).1

end Pattern

end GVariant

------------------------------------------------------------
-- Where A Type Ends
------------------------------------------------------------

namespace GVariant

namespace Pattern

variable {pending : Nat}

/-
  The characters that are skipped inside open brackets,
  after a given number that completed a type.
-/
def skippedBehind
    (pending length : Nat)
    (rest : List Char) : Nat :=
  if pending = 0 then
    length
  else
    length + typeLengthFrom pending rest

theorem skippedBehind_add
    (length more : Nat)
    (rest : List Char) :
    skippedBehind pending (length + more) rest =
      skippedBehind pending length rest + more := by
  unfold skippedBehind
  split
  · rfl
  · omega

theorem typeLengthFrom_basic
    (type : BasicType)
    (rest : List Char) :
    typeLengthFrom pending (type.char :: rest) =
      skippedBehind pending 1 rest := by
  have hLeaf :
      ∀ c : Char,
        c ∉ ['a', 'm', '(', '{', ')', '}'] →
          typeLengthFrom pending (c :: rest) =
            skippedBehind pending 1 rest := by
    intro c hOther
    simp only [List.mem_cons, List.not_mem_nil, or_false,
      not_or] at hOther
    simp [typeLengthFrom, skippedBehind, hOther,
      Nat.add_comm 1]
  apply hLeaf
  cases type with
  | int kind => cases kind <;> decide
  | text kind => cases kind <;> decide
  | _ => decide

theorem typeLengthFrom_close
    {c : Char}
    (hClose : c = ')' ∨ c = '}')
    (rest : List Char) :
    typeLengthFrom (pending + 1) (c :: rest) =
      skippedBehind pending 1 rest := by
  rcases hClose with rfl | rfl <;>
    simp [typeLengthFrom, skippedBehind, Nat.add_comm 1]

theorem typeLengthFrom_open
    {c : Char}
    (hOpen : c = '(' ∨ c = '{')
    (text : List Char) :
    typeLengthFrom pending (c :: text) =
      typeLengthFrom (pending + 1) text + 1 := by
  rcases hOpen with rfl | rfl <;> simp [typeLengthFrom]

mutual

/-
  A type is skipped as a whole, whatever follows it. Inside
  open brackets the skipping goes on behind it.
-/
theorem typeLengthFrom_chars :
    (type : Ty) →
      (pending : Nat) →
      (rest : List Char) →
      typeLengthFrom pending (type.chars ++ rest) =
        skippedBehind pending type.chars.length rest
| .basic type, pending, rest => typeLengthFrom_basic type rest
| .variant, pending, rest => by
    simp [Ty.chars, typeLengthFrom, skippedBehind,
      Nat.add_comm 1]
| .maybe element, pending, rest => by
    have hElement := typeLengthFrom_chars element pending rest
    simp [Ty.chars, typeLengthFrom, hElement,
      skippedBehind_add]
| .array element, pending, rest => by
    have hElement := typeLengthFrom_chars element pending rest
    simp [Ty.chars, typeLengthFrom, hElement,
      skippedBehind_add]
| .tuple items, pending, rest => by
    have hText :
        (Ty.tuple items).chars ++ rest =
          '(' :: (Ty.charsAll items ++ ')' :: rest) := by
      simp [Ty.chars]
    have hLength :
        (Ty.tuple items).chars.length =
          1 + ((Ty.charsAll items).length + 1) := by
      simp [Ty.chars, Nat.add_comm 1]
    rw [hText, typeLengthFrom_open (.inl rfl),
      typeLengthFrom_charsAll, typeLengthFrom_close (.inl rfl),
      hLength, skippedBehind_add]
    omega
| .dictEntry key value, pending, rest => by
    have hText :
        (Ty.dictEntry key value).chars ++ rest =
          '{' :: key.char :: (value.chars ++ '}' :: rest) := by
      simp [Ty.chars]
    have hLength :
        (Ty.dictEntry key value).chars.length =
          1 + (value.chars.length + 2) := by
      simp [Ty.chars, Nat.add_comm 1]
    -- Key and value are skipped inside of the brace.
    have hKey :
        typeLengthFrom (pending + 1)
            (key.char :: (value.chars ++ '}' :: rest)) =
          1 +
            typeLengthFrom (pending + 1)
              (value.chars ++ '}' :: rest) :=
      typeLengthFrom_basic key _
    have hValue :
        typeLengthFrom (pending + 1)
            (value.chars ++ '}' :: rest) =
          value.chars.length +
            typeLengthFrom (pending + 1) ('}' :: rest) :=
      typeLengthFrom_chars value (pending + 1) _
    rw [hText, typeLengthFrom_open (.inr rfl), hKey, hValue,
      typeLengthFrom_close (.inr rfl), hLength,
      skippedBehind_add]
    omega

theorem typeLengthFrom_charsAll :
    (items : List Ty) →
      (pending : Nat) →
      (rest : List Char) →
      typeLengthFrom (pending + 1) (Ty.charsAll items ++ rest) =
        (Ty.charsAll items).length +
          typeLengthFrom (pending + 1) rest
| [], pending, rest => by
    simp [Ty.charsAll]
| item :: items, pending, rest => by
    have hItem :=
      typeLengthFrom_chars item (pending + 1)
        (Ty.charsAll items ++ rest)
    have hItems := typeLengthFrom_charsAll items pending rest
    simp [Ty.charsAll, hItem, skippedBehind, hItems,
      Nat.add_assoc]

end

/- The first type of a text, whatever follows it. -/
theorem typeLength_chars
    (type : Ty)
    (rest : List Char) :
    typeLength (type.chars ++ rest) = type.chars.length :=
  typeLengthFrom_chars type 0 rest

end Pattern

end GVariant

------------------------------------------------------------
-- Where A Type Starts
------------------------------------------------------------

namespace GVariant

namespace Pattern

/-
  At every place of a text a bracket closes or a type
  starts.
-/
def TypesInside (text : List Char) : Prop :=
  ∀ c tail,
    c :: tail <:+ text →
      (c = ')' ∨ c = '}') ∨
        ∃ (type : Ty) (rest : List Char),
          c :: tail = type.chars ++ rest

namespace TypesInside

theorem nil : TypesInside [] := by
  intro c tail hSuffix
  cases List.suffix_nil.mp hSuffix

theorem of_suffix
    {text text' : List Char}
    (hInside : TypesInside text)
    (hSuffix : text' <:+ text) :
    TypesInside text' :=
  fun c tail hTail => hInside c tail (hTail.trans hSuffix)

theorem cons
    {c : Char}
    {tail : List Char}
    (hHead :
      (c = ')' ∨ c = '}') ∨
        ∃ (type : Ty) (rest : List Char),
          c :: tail = type.chars ++ rest)
    (hTail : TypesInside tail) :
    TypesInside (c :: tail) := by
  intro c' tail' hSuffix
  rcases List.suffix_cons_iff.mp hSuffix with hSame | hBehind
  · cases hSame
    exact hHead
  · exact hTail c' tail' hBehind

theorem append_charsAll
    {items : List Ty}
    {rest : List Char}
    (hItems :
      ∀ item ∈ items,
        ∀ rest,
          TypesInside rest → TypesInside (item.chars ++ rest))
    (hRest : TypesInside rest) :
    TypesInside (Ty.charsAll items ++ rest) := by
  induction items with
  | nil => exact hRest
  | cons item items ih =>
      rcases List.forall_mem_cons.mp hItems with
        ⟨hFirst, hOthers⟩
      rw [Ty.charsAll, List.append_assoc]
      exact hFirst _ (ih hOthers)

/-
  Types start everywhere inside of a type: each character
  but a closing bracket is the first of a type.
-/
theorem append_chars
    (type : Ty)
    {rest : List Char}
    (hRest : TypesInside rest) :
    TypesInside (type.chars ++ rest) := by
  have hStarts :
      ∀ {c : Char} {tail : List Char} (outer : Ty)
        (behind : List Char),
        c :: tail = outer.chars ++ behind →
          TypesInside tail → TypesInside (c :: tail) :=
    fun outer behind hText =>
      cons (.inr ⟨outer, behind, hText⟩)
  have hCloses :
      ∀ {c : Char} {tail : List Char},
        c = ')' ∨ c = '}' →
          TypesInside tail → TypesInside (c :: tail) :=
    fun hClose => cons (.inl hClose)
  induction type generalizing rest with
  | basic type => exact hStarts (.basic type) rest rfl hRest
  | «variant» => exact hStarts .variant rest rfl hRest
  | maybe element ih =>
      exact hStarts (.maybe element) rest rfl (ih hRest)
  | array element ih =>
      exact hStarts (.array element) rest rfl (ih hRest)
  | tuple items ih =>
      refine hStarts (.tuple items) rest rfl ?_
      have hClosed := hCloses (.inl rfl) hRest
      simpa using
        append_charsAll (fun item hMem _ => ih item hMem)
          hClosed
  | dictEntry key value ih =>
      refine hStarts (.dictEntry key value) rest rfl ?_
      refine hStarts (.basic key) _ rfl ?_
      simpa using ih (hCloses (.inr rfl) hRest)

end TypesInside

end Pattern

end GVariant

------------------------------------------------------------
-- The Matcher
------------------------------------------------------------

namespace GVariant

namespace Pattern

/- The first character of a type that starts a text. -/
theorem exists_chars_eq_cons
    {type : Ty}
    {c : Char}
    {tail rest : List Char}
    (hText : c :: tail = type.chars ++ rest) :
    ∃ tail', type.chars = c :: tail' := by
  rcases type.chars_eq_cons with ⟨tail', hChars⟩
  rw [hChars] at hText
  rw [(List.cons.inj hText).1]
  exact ⟨tail', hChars⟩

/- The class of a type is announced by its first character. -/
theorem ofChar?_of_chars_eq_cons
    {type : Ty}
    {c : Char}
    {tail : List Char}
    (hChars : type.chars = c :: tail) :
    TypeClass.ofChar? c = some type.cls := by
  rcases type.chars_eq_cons with ⟨tail', hChars'⟩
  rw [hChars] at hChars'
  rw [(List.cons.inj hChars').1]
  exact TypeClass.ofChar?_char type.cls

/- A type of one character with a basic class is basic. -/
theorem isBasic_iff_standsFor
    (type : Ty) :
    (type.chars.length == 1 && type.cls.isBasic) = true ↔
      StandsFor '?' type.chars := by
  rw [standsFor_basic_iff]
  constructor
  · intro hBasic
    cases type with
    | basic key => exact ⟨key, rfl⟩
    | _ => simp [Ty.cls, TypeClass.isBasic] at hBasic
  · rintro ⟨key, hChars⟩
    have hSame : type = .basic key :=
      Ty.chars_injective hChars
    subst hSame
    rfl

/- A type that opens with a parenthesis is a tuple. -/
theorem open_iff_standsFor
    {type : Ty}
    {c : Char}
    {tail : List Char}
    (hChars : type.chars = c :: tail) :
    (c == '(') = true ↔ StandsFor 'r' type.chars := by
  rw [standsFor_tuple_iff, beq_iff_eq]
  constructor
  · rintro rfl
    have hClass : some TypeClass.tuple = some type.cls :=
      ofChar?_of_chars_eq_cons hChars
    cases type with
    | tuple items => exact ⟨items, rfl⟩
    | _ => cases hClass
  · rintro ⟨items, hTuple⟩
    rw [hTuple] at hChars
    exact (List.cons.inj hChars).1.symm

/-
  A wildcard matches the type that starts a text exactly if
  it stands for the type. A character that is no wildcard
  matches only itself.
-/
theorem wildcardMatches_iff
    {p c : Char}
    {type : Ty}
    {tail : List Char}
    (hChars : type.chars = c :: tail)
    (hOther : c ≠ p) :
    wildcardMatches p c type.chars.length = true ↔
      StandsFor p type.chars := by
  unfold wildcardMatches
  split
  · rename_i hAny
    subst hAny
    exact iff_of_true rfl (.any type)
  · rename_i hAny
    split
    · rename_i hBasic
      subst hBasic
      rw [← isBasic_iff_standsFor,
        ofChar?_of_chars_eq_cons hChars]
    · rename_i hBasic
      split
      · rename_i hTuple
        subst hTuple
        exact open_iff_standsFor hChars
      · rename_i hTuple
        have hPlain : ¬ IsWildcard p := by
          simp [IsWildcard, hAny, hBasic, hTuple]
        rw [standsFor_itself_iff hPlain, hChars]
        simp [hOther]

/- No wildcard closes a bracket or starts a type. -/
theorem not_isWildcard_of_typesInside
    {c : Char}
    {tail : List Char}
    (hInside : TypesInside (c :: tail)) :
    ¬ IsWildcard c := by
  rcases hInside c tail (List.suffix_refl _) with
    hClose | ⟨type, rest, hText⟩
  · rcases hClose with rfl | rfl <;> decide
  · rcases exists_chars_eq_cons hText with ⟨tail', hChars⟩
    have hClass := ofChar?_of_chars_eq_cons hChars
    rintro (rfl | rfl | rfl) <;> cases hClass

/- A closing bracket is obtained from no other character. -/
theorem not_obtained_cons_close
    {p c : Char}
    {pattern tail : List Char}
    (hClose : c = ')' ∨ c = '}')
    (hOther : c ≠ p) :
    ¬ Obtained (p :: pattern) (c :: tail) := by
  intro hObtained
  rcases obtained_cons_iff.mp hObtained with
    ⟨piece, rest, hStands, hText, _⟩
  rcases hStands.eq_or_exists_type with rfl | ⟨type, rfl⟩
  · exact hOther (List.cons.inj hText).1
  · rcases exists_chars_eq_cons hText with ⟨tail', hChars⟩
    have hClass := ofChar?_of_chars_eq_cons hChars
    rcases hClose with rfl | rfl <;> cases hClass

/-
  A character that does not stand for itself stands for the
  whole type that starts there, since no other type does.
-/
theorem obtained_cons_chars_iff
    {p c : Char}
    {type : Ty}
    {tail pattern rest : List Char}
    (hChars : type.chars = c :: tail)
    (hOther : c ≠ p) :
    Obtained (p :: pattern) (type.chars ++ rest) ↔
      StandsFor p type.chars ∧ Obtained pattern rest := by
  constructor
  · intro hObtained
    rcases obtained_cons_iff.mp hObtained with
      ⟨piece, rest', hStands, hText, hOthers⟩
    rcases hStands.eq_or_exists_type with rfl | ⟨other, rfl⟩
    · rw [hChars] at hText
      exact absurd (List.cons.inj hText).1 hOther
    · rcases Ty.chars_append_inj hText with ⟨rfl, rfl⟩
      exact ⟨hStands, hOthers⟩
  · rintro ⟨hStands, hOthers⟩
    exact .cons hStands hOthers

/-
  Matching is being obtained from the pattern, if types
  start everywhere in the text. The induction is on the
  pattern; what is behind a piece is a suffix of the text.
-/
theorem matchChars_iff
    {pattern text : List Char}
    (hInside : TypesInside text) :
    matchChars pattern text = true ↔
      Obtained pattern text := by
  induction pattern generalizing text with
  | nil =>
      rw [obtained_nil_iff]
      exact List.isEmpty_iff
  | cons p pattern ih =>
      cases text with
      | nil =>
          exact
            iff_of_false Bool.false_ne_true
              not_obtained_cons_nil
      | cons c tail =>
          rw [matchChars]
          split
          · rename_i hSame
            subst hSame
            have hPlain := not_isWildcard_of_typesInside hInside
            have hTail : TypesInside tail :=
              hInside.of_suffix (List.suffix_cons c tail)
            rw [ih hTail, obtained_cons_plain_iff hPlain]
            simp
          · rename_i hOther
            split
            · rename_i hClose
              exact
                iff_of_false Bool.false_ne_true
                  (not_obtained_cons_close hClose hOther)
            · rename_i hOpen
              rcases hInside c tail (List.suffix_refl _) with
                hClose | ⟨type, rest, hText⟩
              · exact absurd hClose hOpen
              · have hRest : TypesInside rest :=
                  hInside.of_suffix
                    (hText ▸ List.suffix_append _ rest)
                rcases exists_chars_eq_cons hText with
                  ⟨tail', hChars⟩
                rw [hText, typeLength_chars]
                dsimp only
                rw [List.drop_left, Bool.and_eq_true,
                  wildcardMatches_iff hChars hOther, ih hRest,
                  obtained_cons_chars_iff hChars hOther]

end Pattern

end GVariant

------------------------------------------------------------
-- Matching Types
------------------------------------------------------------

namespace GVariant

/-
  How a type is classified by patterns: an array is a
  dictionary if it matches the pattern of dictionaries.
-/
def ArrayKind.ofPattern? (type : Ty) : Option ArrayKind :=
  if type.cls ≠ .array then
    none
  else if type.isSubtypeOf Pattern.dictionary then
    some .dictionary
  else if type = .byteString then
    some .bytes
  else
    some .generic

namespace Ty

theorem isSubtypeOf_eq_true_iff
    {type : Ty}
    {pattern : String} :
    type.isSubtypeOf pattern = true ↔
      Pattern.Obtained pattern.toList type.chars := by
  have hInside :
      Pattern.TypesInside (type.chars ++ []) :=
    .append_chars type .nil
  rw [List.append_nil] at hInside
  exact Pattern.matchChars_iff hInside

/- The pattern of dictionaries is that of their arrays. -/
theorem isSubtypeOf_dictionary_iff
    {type : Ty} :
    type.isSubtypeOf Pattern.dictionary = true ↔
      ∃ key value, type = .array (.dictEntry key value) := by
  have hPattern :
      Pattern.dictionary.toList = ['a', '{', '?', '*', '}'] :=
    rfl
  rw [isSubtypeOf_eq_true_iff, hPattern,
    Pattern.obtained_cons_plain_iff (by decide)]
  have hOpen : ¬ Pattern.IsWildcard '{' := by decide
  have hClose : ¬ Pattern.IsWildcard '}' := by decide
  simp only [Pattern.obtained_cons_plain_iff hOpen,
    Pattern.obtained_cons_plain_iff hClose,
    Pattern.obtained_cons_iff, Pattern.obtained_nil_iff,
    Pattern.standsFor_any_iff, Pattern.standsFor_basic_iff]
  constructor
  · rintro ⟨_, hText, _, rfl, _, _, ⟨key, rfl⟩, rfl, _, _,
      ⟨value, rfl⟩, rfl, _, rfl, rfl⟩
    have hChars :
        type.chars = (Ty.array (.dictEntry key value)).chars :=
      hText
    exact ⟨key, value, chars_injective hChars⟩
  · rintro ⟨key, value, rfl⟩
    exact
      ⟨_, rfl, _, rfl, _, _, ⟨key, rfl⟩, rfl, _, _,
        ⟨value, rfl⟩, rfl, _, rfl, rfl⟩

/- Arrays of anything but dictionary entries are no such. -/
theorem isSubtypeOf_dictionary_of_ne
    {element : Ty}
    (hElement : ∀ key value, element ≠ .dictEntry key value) :
    ¬ (Ty.array element).isSubtypeOf Pattern.dictionary =
        true := by
  rw [isSubtypeOf_dictionary_iff]
  rintro ⟨key, value, hSame⟩
  exact hElement key value (Ty.array.inj hSame)

end Ty

/- The kind of a type is what the patterns say. -/
theorem ArrayKind.of?_eq_ofPattern?
    (type : Ty) :
    of? type = ofPattern? type := by
  cases type with
  | array element =>
      have hArray : ¬ (Ty.array element).cls ≠ .array :=
        fun hOther => hOther rfl
      rw [ofPattern?, if_neg hArray]
      cases element with
      | dictEntry key value =>
          have hEntries :=
            Ty.isSubtypeOf_dictionary_iff.mpr ⟨key, value, rfl⟩
          rw [if_pos hEntries]
          rfl
      | basic type =>
          rw [if_neg (Ty.isSubtypeOf_dictionary_of_ne (by simp))]
          by_cases hByte : type = .int .byte
          · subst hByte
            rfl
          · simp [of?, hByte]
      | _ =>
          rw [if_neg (Ty.isSubtypeOf_dictionary_of_ne (by simp))]
          rfl
  | _ => rfl

/-
  A type matches a pattern, well-formed or not, exactly if
  its type string is obtained from the pattern by replacing
  the wildcards. So the arrays that are classified as
  dictionaries, which is done by their pattern, are those of
  dictionary entries.
-/
theorem Ty.isSubtypeOf_iff_obtained :
    (∀ (type : Ty) (pattern : String),
        type.isSubtypeOf pattern = true ↔
          Pattern.Obtained pattern.toList type.chars) ∧
      ∀ type : Ty,
        ArrayKind.of? type = ArrayKind.ofPattern? type ∧
          (ArrayKind.ofPattern? type = some .dictionary ↔
            ∃ key value,
              type = .array (.dictEntry key value)) := by
  refine ⟨fun _ _ => isSubtypeOf_eq_true_iff, ?_⟩
  intro type
  refine ⟨ArrayKind.of?_eq_ofPattern? type, ?_⟩
  rw [← ArrayKind.of?_eq_ofPattern?]
  constructor
  · intro hKind
    unfold ArrayKind.of? at hKind
    split at hKind
    · exact ⟨_, _, rfl⟩
    all_goals cases hKind
  · rintro ⟨key, value, rfl⟩
    rfl

end GVariant
