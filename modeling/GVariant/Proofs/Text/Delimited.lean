import GVariant.Variant.Text

/-
  Texts that are told apart although more text follows.

  An item is shown up to a delimiter or the end of the text.
  Two items are told apart if their texts, each followed by
  a delimiter or by nothing, are never the same. A text
  without delimiters is told apart by its characters, a text
  between quotes by its closing quote, which is not escaped,
  and items with commas between them one by one.

  Key definitions include:
    * `IsDelimiter`
    * `Delimited`
    * `StartsItem`
    * `ToldApart`

  Main declarations:
    * `eq_of_append_eq`
    * `hex_two`
    * `Quoted.eq_of_single_append_eq`
    * `eq_of_enclosed_eq`
-/

------------------------------------------------------------
-- Delimiters
------------------------------------------------------------

namespace GVariant

/- The characters that end the text of an item. -/
def IsDelimiter (c : Char) : Prop :=
  c = ',' ∨ c = ':' ∨ c = ']' ∨ c = ')' ∨ c = '}'

instance : DecidablePred IsDelimiter := fun _ =>
  inferInstanceAs (Decidable (_ ∨ _))

/- Text behind an item: none, or a delimiter first. -/
def Delimited (rest : List Char) : Prop :=
  ∀ c ∈ rest.head?, IsDelimiter c

theorem delimited_nil : Delimited [] := by
  simp [Delimited]

theorem delimited_cons
    {c : Char}
    (hDelimiter : IsDelimiter c)
    (rest : List Char) :
    Delimited (c :: rest) := by
  simpa [Delimited] using hDelimiter

/- Text that is not empty and has no delimiter first. -/
def StartsItem (text : List Char) : Prop :=
  ∃ c tail, text = c :: tail ∧ ¬ IsDelimiter c

/-
  Whatever is behind the texts of two items, they are the
  same only for the same item with the same text behind it.
-/
def ToldApart
    {α : Type}
    (text : α → List Char)
    (a b : α) : Prop :=
  ∀ rest rest' : List Char,
    Delimited rest →
      Delimited rest' →
        text a ++ rest = text b ++ rest' →
          a = b ∧ rest = rest'

/- Texts without delimiters end at the first one. -/
theorem eq_of_append_eq
    {text text' rest rest' : List Char}
    (hText : ∀ c ∈ text, ¬ IsDelimiter c)
    (hText' : ∀ c ∈ text', ¬ IsDelimiter c)
    (hRest : Delimited rest)
    (hRest' : Delimited rest')
    (hSame : text ++ rest = text' ++ rest') :
    text = text' ∧ rest = rest' := by
  have hPrefix :
      ∀ (text rest : List Char),
        (∀ c ∈ text, ¬ IsDelimiter c) →
          Delimited rest →
            (text ++ rest).takeWhile (¬ IsDelimiter ·) =
              text := by
    intro text rest hText hRest
    rw [List.takeWhile_append_of_pos (by simpa using hText)]
    cases rest with
    | nil => simp
    | cons c rest =>
        have hDelimiter : IsDelimiter c := hRest c rfl
        simp [hDelimiter]
  have hFirst : text = text' := by
    rw [← hPrefix text rest hText hRest, hSame,
      hPrefix text' rest' hText' hRest']
  subst hFirst
  exact ⟨rfl, List.append_cancel_left hSame⟩

/- Items of different texts without delimiters. -/
theorem toldApart_of_plain
    {α : Type}
    {text : α → List Char}
    {a b : α}
    (hFirst : ∀ c ∈ text a, ¬ IsDelimiter c)
    (hSecond : ∀ c ∈ text b, ¬ IsDelimiter c)
    (hInjective : text a = text b → a = b) :
    ToldApart text a b := by
  intro rest rest' hRest hRest' hSame
  rcases
      eq_of_append_eq hFirst hSecond hRest hRest' hSame with
    ⟨hText, hBehind⟩
  exact ⟨hInjective hText, hBehind⟩

end GVariant

------------------------------------------------------------
-- Hexadecimal Digits
------------------------------------------------------------

namespace GVariant

namespace Numeral

/- The digits below sixteen are different. -/
theorem digitChar_inj
    {m n : Nat}
    (hM : m < 16)
    (hN : n < 16) :
    m.digitChar = n.digitChar ↔ m = n := by
  have hAll :
      ∀ m < 16, ∀ n < 16,
        m.digitChar = n.digitChar → m = n := by
    decide
  exact ⟨hAll m hM n hN, congrArg Nat.digitChar⟩

/- They are no delimiters. -/
theorem not_isDelimiter_digitChar
    {n : Nat}
    (hDigit : n < 16) :
    ¬ IsDelimiter n.digitChar := by
  have hAll : ∀ n < 16, ¬ IsDelimiter n.digitChar := by
    decide
  exact hAll n hDigit

/- A number below 256 has two digits. -/
theorem hex_two
    {n : Nat}
    (hByte : n < 256) :
    hex 2 n = [(n / 16).digitChar, (n % 16).digitChar] := by
  have hLow : n % 16 < 16 := Nat.mod_lt n (by decide)
  by_cases hSmall : n < 16
  · have hZero : n / 16 = 0 := Nat.div_eq_of_lt hSmall
    rw [hex, Nat.toDigits_of_lt_base hSmall, hZero,
      Nat.mod_eq_of_lt hSmall]
    rfl
  · have hHigh : n / 16 < 16 := Nat.div_lt_of_lt_mul hByte
    have hSplit :
        Nat.toDigits 16 n =
          [(n / 16).digitChar, (n % 16).digitChar] := by
      have hDigits :=
        Nat.toDigits_append_toDigits (b := 16) (n := n / 16)
          (d := n % 16) (by decide) (by omega) hLow
      rw [Nat.toDigits_of_lt_base hHigh,
        Nat.toDigits_of_lt_base hLow,
        Nat.div_add_mod] at hDigits
      exact hDigits.symm
    rw [hex, hSplit]
    rfl

/- Padded to four digits it starts with two zeros. -/
theorem hex_four
    {n : Nat}
    (hByte : n < 256) :
    hex 4 n = '0' :: '0' :: hex 2 n := by
  have hLength : (Nat.toDigits 16 n).length ≤ 2 :=
    (Nat.length_toDigits_le_iff (by decide) (by decide)).mpr
      hByte
  have hPadding :
      4 - (Nat.toDigits 16 n).length =
        (2 - (Nat.toDigits 16 n).length) + 2 := by
    omega
  rw [hex, hPadding, hex]
  rfl

/- Two digits are those of one number only. -/
theorem eq_of_hex_two_eq
    {m n : Nat}
    (hM : m < 256)
    (hN : n < 256)
    (hSame : hex 2 m = hex 2 n) :
    m = n := by
  rw [hex_two hM, hex_two hN] at hSame
  simp only [List.cons.injEq, and_true] at hSame
  have hHigh : m / 16 = n / 16 :=
    (digitChar_inj (by omega) (by omega)).mp hSame.1
  have hLow : m % 16 = n % 16 :=
    (digitChar_inj (by omega) (by omega)).mp hSame.2
  omega

/- Four digits are read as the number that they show. -/
theorem readUnit?_hex_four
    {n : Nat}
    (hByte : n < 256)
    (rest : List Char) :
    readUnit? (hex 4 n ++ rest) = some (n, rest) := by
  have hDigit :
      ∀ n < 16, hexDigit? n.digitChar = some n := by
    decide
  have hZero : hexDigit? '0' = some 0 := by
    decide
  have hHigh := hDigit (n / 16) (by omega)
  have hLow := hDigit (n % 16) (by omega)
  have hValue : n / 16 * 16 + n % 16 = n := by
    omega
  rw [hex_four hByte, hex_two hByte]
  simp [readUnit?, hZero, hHigh, hLow, hValue]

end Numeral

/- A byte in hexadecimal digits has no delimiter. -/
theorem not_isDelimiter_of_mem_hexByte
    {n : Nat}
    (hByte : n < 256)
    {c : Char}
    (hMem : c ∈ hexByte n) :
    ¬ IsDelimiter c := by
  rw [hexByte, Numeral.hex_two hByte] at hMem
  simp only [List.mem_cons, List.not_mem_nil,
    or_false] at hMem
  rcases hMem with rfl | rfl | rfl | rfl
  · decide
  · decide
  · exact Numeral.not_isDelimiter_digitChar (by omega)
  · exact Numeral.not_isDelimiter_digitChar (by omega)

theorem eq_of_hexByte_eq
    {m n : Nat}
    (hM : m < 256)
    (hN : n < 256)
    (hSame : hexByte m = hexByte n) :
    m = n := by
  simp only [hexByte, List.cons.injEq, true_and] at hSame
  exact Numeral.eq_of_hex_two_eq hM hN hSame

end GVariant

------------------------------------------------------------
-- Quoted Texts
------------------------------------------------------------

namespace GVariant

namespace Quoted

/- The character of an escape, whose backslash is taken. -/
def readEscape? : List Char → Option (Char × List Char)
| 'n' :: rest => some ('\n', rest)
| 't' :: rest => some ('\t', rest)
| 'r' :: rest => some ('\r', rest)
| 'u' :: rest =>
    (Numeral.readUnit? rest).map fun unit =>
      (Char.ofNat unit.1, unit.2)
| c :: rest => some (c, rest)
| [] => none

/- The character that is shown first, and what is behind it. -/
def readSingle? : List Char → Option (Char × List Char)
| [] => none
| c :: rest =>
    if c = '\\' then readEscape? rest else some (c, rest)

/- Whatever is behind it, a character is read back. -/
theorem readSingle?_singleChar
    (c : Char)
    (rest : List Char) :
    readSingle? (singleChar c ++ rest) = some (c, rest) := by
  unfold singleChar
  split
  · rfl
  · rfl
  · rfl
  · rfl
  · rfl
  · rename_i hBackslash _ _ _
    split
    · rename_i hControl
      have hByte : c.toNat < 256 := by
        simp only [isControl, Bool.or_eq_true,
          Bool.and_eq_true, decide_eq_true_eq] at hControl
        omega
      simp [readSingle?, readEscape?,
        Numeral.readUnit?_hex_four hByte]
    · have hPlain : c ≠ '\\' := hBackslash
      simp [readSingle?, hPlain]

/- No character is shown with a quote first. -/
theorem exists_singleChar_eq_cons
    (c : Char) :
    ∃ first tail,
      singleChar c = first :: tail ∧ first ≠ '\x27' := by
  unfold singleChar
  split
  · exact ⟨_, _, rfl, by decide⟩
  · exact ⟨_, _, rfl, by decide⟩
  · exact ⟨_, _, rfl, by decide⟩
  · exact ⟨_, _, rfl, by decide⟩
  · exact ⟨_, _, rfl, by decide⟩
  · rename_i hQuote _ _ _ _
    split
    · exact ⟨_, _, rfl, by decide⟩
    · exact ⟨_, _, rfl, hQuote⟩

/-
  A text between quotes ends at its closing quote, whatever
  is behind it.
-/
theorem eq_of_single_append_eq
    {text text' rest rest' : List Char}
    (hSame : single text ++ rest = single text' ++ rest') :
    text = text' ∧ rest = rest' := by
  have hBehind :
      text.flatMap singleChar ++ '\x27' :: rest =
        text'.flatMap singleChar ++ '\x27' :: rest' := by
    simpa [single] using hSame
  clear hSame
  induction text generalizing text' with
  | nil =>
      cases text' with
      | nil => simpa using hBehind
      | cons c' text' =>
          rcases exists_singleChar_eq_cons c' with
            ⟨first, tail, hShown, hQuote⟩
          simp only [List.flatMap_nil, List.nil_append,
            List.flatMap_cons, hShown, List.cons_append,
            List.cons.injEq] at hBehind
          exact absurd hBehind.1.symm hQuote
  | cons c text ih =>
      cases text' with
      | nil =>
          rcases exists_singleChar_eq_cons c with
            ⟨first, tail, hShown, hQuote⟩
          simp only [List.flatMap_nil, List.nil_append,
            List.flatMap_cons, hShown, List.cons_append,
            List.cons.injEq] at hBehind
          exact absurd hBehind.1 hQuote
      | cons c' text' =>
          simp only [List.flatMap_cons,
            List.append_assoc] at hBehind
          have hRead := congrArg readSingle? hBehind
          rw [readSingle?_singleChar, readSingle?_singleChar,
            Option.some.injEq, Prod.mk.injEq] at hRead
          rcases hRead with ⟨rfl, hTail⟩
          rcases ih hTail with ⟨rfl, hRest⟩
          exact ⟨rfl, hRest⟩

end Quoted

end GVariant

------------------------------------------------------------
-- Items With Commas Between Them
------------------------------------------------------------

namespace GVariant

variable {α : Type}
variable {text : α → List Char}
variable {items items' : List α}
variable {close : Char}
variable {rest rest' : List Char}

/-
  Each item behind a comma, up to a closing character. Only
  items at the same place are compared.
-/
theorem eq_of_tails_eq
    (hClose : IsDelimiter close)
    (hComma : close ≠ ',')
    (hItems :
      ∀ pair ∈ items.zip items', ToldApart text pair.1 pair.2)
    (hSame :
      (items.flatMap fun item => ',' :: ' ' :: text item) ++
          close :: rest =
        (items'.flatMap fun item => ',' :: ' ' :: text item) ++
          close :: rest') :
    items = items' ∧ rest = rest' := by
  induction items generalizing items' with
  | nil =>
      cases items' with
      | nil => simpa using hSame
      | cons item' items' =>
          simp only [List.flatMap_nil, List.nil_append,
            List.flatMap_cons, List.cons_append,
            List.cons.injEq] at hSame
          exact absurd hSame.1 hComma
  | cons item items ih =>
      cases items' with
      | nil =>
          simp only [List.flatMap_nil, List.nil_append,
            List.flatMap_cons, List.cons_append,
            List.cons.injEq] at hSame
          exact absurd hSame.1.symm hComma
      | cons item' items' =>
          rw [List.zip_cons_cons] at hItems
          rcases List.forall_mem_cons.mp hItems with
            ⟨hFirst, hOthers⟩
          have hBehind :
              ∀ (others : List α) (rest : List Char),
                Delimited
                  ((others.flatMap fun item =>
                      ',' :: ' ' :: text item) ++
                    close :: rest) := by
            intro others rest
            cases others with
            | nil => exact delimited_cons hClose rest
            | cons other others =>
                exact delimited_cons (.inl rfl) _
          simp only [List.flatMap_cons, List.cons_append,
            List.cons.injEq, true_and,
            List.append_assoc] at hSame
          have hApart : ToldApart text item item' := hFirst
          rcases
              hApart _ _ (hBehind items rest)
                (hBehind items' rest') hSame with
            ⟨rfl, hTails⟩
          rcases ih hOthers hTails with ⟨rfl, hRest⟩
          exact ⟨rfl, hRest⟩

/-
  Items with commas between them, up to a closing character,
  are told apart if those at the same place are. No item is
  shown as nothing or as a delimiter.
-/
theorem eq_of_enclosed_eq
    (hClose : IsDelimiter close)
    (hComma : close ≠ ',')
    (hStart : ∀ item ∈ items, StartsItem (text item))
    (hStart' : ∀ item ∈ items', StartsItem (text item))
    (hItems :
      ∀ pair ∈ items.zip items', ToldApart text pair.1 pair.2)
    (hSame :
      commaSeparated (items.map text) ++ close :: rest =
        commaSeparated (items'.map text) ++ close :: rest') :
    items = items' ∧ rest = rest' := by
  have hEmpty :
      ∀ (items : List α) (rest rest' : List Char),
        (∀ item ∈ items, StartsItem (text item)) →
          close :: rest =
              commaSeparated (items.map text) ++
                close :: rest' →
            items = [] ∧ rest = rest' := by
    intro items rest rest' hStart hSame
    cases items with
    | nil => simpa [commaSeparated] using hSame
    | cons item items =>
        rcases hStart item List.mem_cons_self with
          ⟨c, tail, hText, hPlain⟩
        simp only [List.map_cons, commaSeparated, hText,
          List.cons_append, List.cons.injEq] at hSame
        exact absurd (hSame.1 ▸ hClose) hPlain
  cases items with
  | nil =>
      rcases hEmpty items' rest rest' hStart' hSame with
        ⟨rfl, hRest⟩
      exact ⟨rfl, hRest⟩
  | cons item items =>
      cases items' with
      | nil =>
          rcases hEmpty _ rest' rest hStart hSame.symm with
            ⟨hNone, _⟩
          cases hNone
      | cons item' items' =>
          have hTails :
              ((item :: items).flatMap fun item =>
                    ',' :: ' ' :: text item) ++
                  close :: rest =
                ((item' :: items').flatMap fun item =>
                    ',' :: ' ' :: text item) ++
                  close :: rest' := by
            simp only [List.map_cons, commaSeparated,
              List.flatMap_map] at hSame
            simp only [List.flatMap_cons, List.cons_append,
              hSame]
          exact eq_of_tails_eq hClose hComma hItems hTails

end GVariant
