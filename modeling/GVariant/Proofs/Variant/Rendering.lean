import GVariant.Proofs.Binary.Sizes
import GVariant.Proofs.Text.Delimited
import GVariant.Proofs.Value.Scalar

/-
  The text of a variant tells it apart from all others of
  its type, if the type has neither boxes nor doubles.

  What is in a box is shown without its type, and a double
  is shown for more than one pattern of bits. All else is
  told apart even when more text follows, which is what lets
  the induction pass through the containers.

  Key definitions include:
    * `Ty.Legible`
    * `Variant.entryText`
    * `Variant.Unmistakable`

  Main declarations:
    * `Scalar.toldApart_render`
    * `Variant.eq_of_renderBytes_append_eq`
    * `Variant.exists_render_eq_cons`
    * `Variant.WellFormed.unmistakable`
    * `Variant.toText_eq_iff`
-/

------------------------------------------------------------
-- Legible Types
------------------------------------------------------------

namespace GVariant

namespace Ty

/- A type with neither boxes nor doubles in it. -/
def Legible (type : Ty) : Prop :=
  'v' ∉ type.chars ∧ 'd' ∉ type.chars

/- A box is not legible. -/
theorem not_legible_variant :
    ¬ Legible .variant := by
  simp [Legible, chars]

/- A basic type is legible unless it is that of doubles. -/
theorem legible_basic_iff
    (type : BasicType) :
    Legible (.basic type) ↔ type ≠ .double := by
  cases type with
  | boolean => simp [Legible, chars, BasicType.char]
  | int kind =>
      cases kind <;>
        simp [Legible, chars, BasicType.char, IntKind.char]
  | double => simp [Legible, chars, BasicType.char]
  | text kind =>
      cases kind <;>
        simp [Legible, chars, BasicType.char, TextKind.char]

theorem legible_maybe_iff
    (element : Ty) :
    Legible (.maybe element) ↔ element.Legible := by
  simp [Legible, chars]

theorem legible_array_iff
    (element : Ty) :
    Legible (.array element) ↔ element.Legible := by
  simp [Legible, chars]

theorem legible_tuple_iff
    (items : List Ty) :
    Legible (.tuple items) ↔
      ∀ item ∈ items, item.Legible := by
  simp only [Legible, chars, List.mem_cons, List.mem_append,
    mem_charsAll_iff, List.not_mem_nil, or_false, not_or,
    not_exists, not_and]
  constructor
  · intro hLegible item hMem
    exact
      ⟨hLegible.1.2.1 item hMem, hLegible.2.2.1 item hMem⟩
  · intro hItems
    exact
      ⟨⟨by decide, fun item hMem => (hItems item hMem).1,
          by decide⟩,
        by decide, fun item hMem => (hItems item hMem).2,
        by decide⟩

theorem legible_dictEntry_iff
    (key : BasicType)
    (value : Ty) :
    Legible (.dictEntry key value) ↔
      Legible (.basic key) ∧ value.Legible := by
  simp only [Legible, chars, List.mem_cons, List.mem_append,
    List.not_mem_nil, or_false, not_or]
  constructor
  · intro hLegible
    exact
      ⟨⟨hLegible.1.2.1, hLegible.2.2.1⟩,
        hLegible.1.2.2.1, hLegible.2.2.2.1⟩
  · intro hParts
    exact
      ⟨⟨by decide, hParts.1.1, hParts.2.1, by decide⟩,
        by decide, hParts.1.2, hParts.2.2, by decide⟩

end Ty

end GVariant

------------------------------------------------------------
-- Scalars
------------------------------------------------------------

namespace GVariant

namespace Numeral

/- The text of an integer: digits behind an optional sign. -/
theorem eq_minus_or_isDigit
    {n : Int}
    {c : Char}
    (hMem : c ∈ (toString n).toList) :
    c = '-' ∨ c.isDigit = true := by
  have hDigits :
      ∀ m, c ∈ Nat.toDigits 10 m → c.isDigit = true := by
    intro m hMem
    exact
      Nat.isDigit_of_mem_toDigits (by decide) (by decide) hMem
  rw [Int.toString_eq_repr, Int.repr_eq_if] at hMem
  split at hMem
  · rw [Nat.toList_repr] at hMem
    exact .inr (hDigits _ hMem)
  · rw [String.toList_append, Nat.toList_repr] at hMem
    rcases List.mem_append.mp hMem with hSign | hDigit
    · exact .inl (List.mem_singleton.mp hSign)
    · exact .inr (hDigits _ hDigit)

/- No delimiter is a sign or a digit. -/
theorem not_isDelimiter_of_mem_toString
    {n : Int}
    {c : Char}
    (hMem : c ∈ (toString n).toList) :
    ¬ IsDelimiter c := by
  rintro (rfl | rfl | rfl | rfl | rfl) <;>
    rcases eq_minus_or_isDigit hMem with hSign | hDigit <;>
    contradiction

/- Different integers have different texts. -/
theorem eq_of_toString_eq
    {m n : Int}
    (hSame : (toString m).toList = (toString n).toList) :
    m = n := by
  have hRead := readInt?_toString m
  rw [hSame, readInt?_toString n, Option.some.injEq] at hRead
  exact hRead.symm

end Numeral

namespace Scalar

/- The texts of truth values have no delimiters. -/
theorem not_isDelimiter_of_mem_boolean
    (value : Bool) :
    ∀ c ∈ render (.boolean value), ¬ IsDelimiter c := by
  cases value with
  | false =>
      change ∀ c ∈ ['f', 'a', 'l', 's', 'e'], ¬ IsDelimiter c
      simp [IsDelimiter]
  | true =>
      change ∀ c ∈ ['t', 'r', 'u', 'e'], ¬ IsDelimiter c
      simp [IsDelimiter]

/-
  A scalar that is no double is told apart from the others
  of its type.
-/
theorem toldApart_render
    {a b : Scalar}
    (hDouble : a.type ≠ .double)
    (hType : b.type = a.type) :
    ToldApart render a b := by
  cases a with
  | boolean value =>
      cases b with
      | boolean value' =>
          refine
            toldApart_of_plain
              (not_isDelimiter_of_mem_boolean value)
              (not_isDelimiter_of_mem_boolean value') ?_
          cases value <;> cases value' <;> decide
      | int kind word => cases hType
      | double value => cases hType
      | text kind value => cases hType
  | int kind word =>
      cases b with
      | boolean value => cases hType
      | int kind' word' =>
          cases hType
          by_cases hByte : kind = .byte
          · subst hByte
            have hWord : word.toNat < 256 := word.isLt
            have hWord' : word'.toNat < 256 := word'.isLt
            refine toldApart_of_plain ?_ ?_ ?_
            · intro c hMem
              exact not_isDelimiter_of_mem_hexByte hWord hMem
            · intro c hMem
              exact not_isDelimiter_of_mem_hexByte hWord' hMem
            · intro hSame
              have hNat : word.toNat = word'.toNat :=
                eq_of_hexByte_eq hWord hWord' hSame
              rw [BitVec.eq_of_toNat_eq hNat]
          · have hRender :
                ∀ word : BitVec kind.width,
                  render (.int kind word) =
                    (toString (kind.value word)).toList := by
              intro word
              cases kind <;> first | rfl | exact absurd rfl hByte
            refine toldApart_of_plain ?_ ?_ ?_
            · intro c hMem
              rw [hRender] at hMem
              exact Numeral.not_isDelimiter_of_mem_toString hMem
            · intro c hMem
              rw [hRender] at hMem
              exact Numeral.not_isDelimiter_of_mem_toString hMem
            · intro hSame
              rw [hRender, hRender] at hSame
              have hValue :
                  kind.value word = kind.value word' :=
                Numeral.eq_of_toString_eq hSame
              rw [← kind.word_value word, hValue,
                kind.word_value]
      | double value => cases hType
      | text kind value => cases hType
  | double value => exact absurd rfl hDouble
  | text kind value =>
      cases b with
      | boolean value => cases hType
      | int kind word => cases hType
      | double value => cases hType
      | text kind' value' =>
          cases hType
          intro rest rest' _ _ hSame
          rcases Quoted.eq_of_single_append_eq hSame with
            ⟨hText, hRest⟩
          exact ⟨by rw [String.toList_inj.mp hText], hRest⟩

/- No scalar other than a double is shown with `n` first. -/
theorem exists_render_eq_cons
    {value : Scalar}
    (hDouble : value.type ≠ .double) :
    ∃ c tail,
      value.render = c :: tail ∧
        ¬ IsDelimiter c ∧ c ≠ 'n' := by
  cases value with
  | boolean value =>
      cases value
      · exact ⟨'f', _, rfl, by decide⟩
      · exact ⟨'t', _, rfl, by decide⟩
  | int kind word =>
      have hNumber :
          ∀ n : Int,
            ∃ c tail,
              (toString n).toList = c :: tail ∧
                ¬ IsDelimiter c ∧ c ≠ 'n' := by
        intro n
        have hRead := Numeral.readInt?_toString n
        cases hText : (toString n).toList with
        | nil =>
            rw [hText] at hRead
            cases hRead
        | cons c tail =>
            have hMem : c ∈ (toString n).toList := by
              rw [hText]
              exact List.mem_cons_self
            refine
              ⟨c, tail, rfl,
                Numeral.not_isDelimiter_of_mem_toString hMem,
                ?_⟩
            rintro rfl
            rcases Numeral.eq_minus_or_isDigit hMem with
              hSign | hDigit
            · cases hSign
            · cases hDigit
      by_cases hByte : kind = .byte
      · subst hByte
        exact ⟨'0', _, rfl, by decide⟩
      · have hRender :
            render (.int kind word) =
              (toString (kind.value word)).toList := by
          cases kind <;> first | rfl | exact absurd rfl hByte
        rw [hRender]
        exact hNumber _
  | double value => exact absurd rfl hDouble
  | text kind value =>
      exact ⟨'\x27', _, rfl, by decide⟩

end Scalar

end GVariant

------------------------------------------------------------
-- Bytes
------------------------------------------------------------

namespace GVariant

namespace Variant

/- Bytes that are shown as a text are that text and a NUL. -/
theorem eq_of_printableText?_eq_some
    {content : List UInt8}
    {text : List Char}
    (hText : printableText? content = some text) :
    content =
      (text.map fun c => UInt8.ofNat c.toNat) ++ [0] := by
  unfold printableText? at hText
  split at hText
  · rename_i hLast
    dsimp only at hText
    split at hText
    · cases hText
      have hChar : ∀ n < 256, (Char.ofNat n).toNat = n := by
        intro n hBound
        have hValid : n.isValidChar := .inl (by omega)
        rw [Char.ofNat, dif_pos hValid]
        rfl
      have hByte :
          ∀ byte : UInt8,
            UInt8.ofNat (Char.ofNat byte.toNat).toNat =
              byte := by
        intro byte
        rw [hChar _ (UInt8.toNat_lt byte), UInt8.ofNat_toNat]
      have hSplit :
          content.dropLast ++ [0] = content :=
        List.dropLast_append_getLast? 0 hLast
      simp [Function.comp_def, hByte, hSplit]
    · cases hText
  · cases hText

/-
  Bytes are told apart, be they shown as a text or one by
  one.
-/
theorem eq_of_renderBytes_append_eq
    {content content' : List UInt8}
    {rest rest' : List Char}
    (hSame :
      renderBytes content ++ rest =
        renderBytes content' ++ rest') :
    content = content' ∧ rest = rest' := by
  unfold renderBytes at hSame
  cases hText : printableText? content with
  | some text =>
      cases hText' : printableText? content' with
      | some text' =>
          simp only [hText, hText', List.cons_append,
            List.cons.injEq, true_and] at hSame
          rcases Quoted.eq_of_single_append_eq hSame with
            ⟨rfl, hRest⟩
          exact
            ⟨(eq_of_printableText?_eq_some hText).trans
                (eq_of_printableText?_eq_some hText').symm,
              hRest⟩
      | none =>
          simp [hText, hText'] at hSame
  | none =>
      cases hText' : printableText? content' with
      | some text' =>
          simp [hText, hText'] at hSame
      | none =>
          simp only [hText, hText', List.cons_append,
            List.cons.injEq, true_and, List.append_assoc,
            List.nil_append] at hSame
          have hBound :
              ∀ byte : UInt8, byte.toNat < 256 :=
            UInt8.toNat_lt
          have hStart :
              ∀ byte : UInt8, StartsItem (hexByte byte.toNat) :=
            fun byte => ⟨'0', _, rfl, by decide⟩
          have hItems :
              ∀ byte byte' : UInt8,
                ToldApart (fun byte => hexByte byte.toNat)
                  byte byte' := by
            intro byte byte'
            refine toldApart_of_plain ?_ ?_ ?_
            · intro c hMem
              exact
                not_isDelimiter_of_mem_hexByte
                  (hBound byte) hMem
            · intro c hMem
              exact
                not_isDelimiter_of_mem_hexByte
                  (hBound byte') hMem
            · intro hHex
              exact
                UInt8.toNat_inj.mp
                  (eq_of_hexByte_eq (hBound byte)
                    (hBound byte') hHex)
          exact
            eq_of_enclosed_eq (by decide) (by decide)
              (fun byte _ => hStart byte)
              (fun byte _ => hStart byte)
              (fun pair _ => hItems pair.1 pair.2) hSame

end Variant

end GVariant

------------------------------------------------------------
-- Texts Of Children
------------------------------------------------------------

namespace GVariant

/- Items at the same place of lists with the same images. -/
theorem eq_of_mem_zip
    {α β : Type}
    {f : α → β}
    {items items' : List α}
    (hSame : items'.map f = items.map f)
    {pair : α × α}
    (hMem : pair ∈ items.zip items') :
    f pair.2 = f pair.1 := by
  induction items generalizing items' with
  | nil => simp at hMem
  | cons item items ih =>
      cases items' with
      | nil => simp at hMem
      | cons item' items' =>
          simp only [List.map_cons, List.cons.injEq] at hSame
          rcases List.mem_cons.mp hMem with rfl | hOther
          · exact hSame.1
          · exact ih hSame.2 hOther

namespace Variant

theorem renderAll_eq_map
    (children : List Variant) :
    renderAll children = children.map render := by
  induction children with
  | nil => rfl
  | cons child children ih => rw [List.map_cons, ← ih]; rfl

/- The text of an entry among those of its dictionary. -/
def entryText : Variant → List Char
| .entry key value =>
    key.render ++ ':' :: ' ' :: value.render
| _ => []

theorem renderEntries_eq_map
    {children : List Variant}
    (hEntries :
      ∀ child ∈ children,
        ∃ key value, child = .entry key value) :
    renderEntries children = children.map entryText := by
  induction children with
  | nil => rfl
  | cons child children ih =>
      rcases List.forall_mem_cons.mp hEntries with
        ⟨⟨key, value, rfl⟩, hOthers⟩
      rw [List.map_cons, ← ih hOthers]
      rfl

/- The children of a dictionary are entries. -/
theorem exists_entry_of_type
    {v : Variant}
    {key : BasicType}
    {value : Ty}
    (hType : v.type = .dictEntry key value) :
    ∃ name content,
      v = .entry name content ∧
        name.type = key ∧ content.type = value := by
  cases v with
  | entry name content =>
      cases hType
      exact ⟨name, content, rfl, rfl, rfl⟩
  | _ => simp [type] at hType

/-
  A maybe that holds something is shown with a mark only if
  it holds a maybe.
-/
theorem render_just
    (child : Variant) :
    render (.just child) =
      (if child.cls = .maybe then ['j', 'u', 's', 't', ' ']
        else []) ++ child.render := by
  change
    (if child.cls = .maybe then
      'j' :: 'u' :: 's' :: 't' :: ' ' :: child.render
    else
      child.render) = _
  split <;> rfl

theorem render_entry
    (key : Scalar)
    (value : Variant) :
    render (.entry key value) =
      '{' ::
        (key.render ++ ',' :: ' ' :: (value.render ++ ['}'])) :=
  rfl

/- An array is shown in braces if it is a dictionary. -/
theorem render_arrayOf
    {element : Ty}
    {children : List Variant}
    (hPlain : ∀ key value, element ≠ .dictEntry key value) :
    render (.arrayOf element children) =
      '[' :: (commaSeparated (children.map render) ++ [']']) :=
    by
  rw [← renderAll_eq_map]
  cases element with
  | dictEntry key value => exact absurd rfl (hPlain key value)
  | _ => rfl

theorem render_dictionary
    {key : BasicType}
    {value : Ty}
    {children : List Variant}
    (hTypes :
      ∀ child ∈ children,
        child.type = .dictEntry key value) :
    render (.arrayOf (.dictEntry key value) children) =
      '{' ::
        (commaSeparated (children.map entryText) ++ ['}']) := by
  rw [← renderEntries_eq_map]
  · rfl
  · intro child hMem
    rcases exists_entry_of_type (hTypes child hMem) with
      ⟨name, content, hEntry, _⟩
    exact ⟨name, content, hEntry⟩

/- A tuple of one child keeps a comma behind it. -/
theorem render_singleton
    (child : Variant) :
    render (.tuple [child]) =
      '(' :: (child.render ++ [',', ')']) :=
  rfl

theorem render_tuple
    {children : List Variant}
    (hLength : children.length ≠ 1) :
    render (.tuple children) =
      '(' :: (commaSeparated (children.map render) ++ [')']) :=
    by
  rw [← renderAll_eq_map]
  rcases children with _ | ⟨child, _ | ⟨second, children⟩⟩
  · rfl
  · exact absurd rfl hLength
  · rfl

end Variant

end GVariant

------------------------------------------------------------
-- First Characters
------------------------------------------------------------

namespace GVariant

namespace Variant

/-
  Only a maybe is shown with `n` first: it may hold nothing.
-/
theorem exists_render_eq_cons
    {v : Variant}
    (hLegible : v.type.Legible) :
    ∃ c tail,
      v.render = c :: tail ∧
        ¬ IsDelimiter c ∧ (c = 'n' → v.cls = .maybe) := by
  induction v with
  | scalar value =>
      have hDouble : value.type ≠ .double :=
        (Ty.legible_basic_iff _).mp hLegible
      rcases Scalar.exists_render_eq_cons hDouble with
        ⟨c, tail, hText, hPlain, hFirst⟩
      exact
        ⟨c, tail, hText, hPlain, fun hN => absurd hN hFirst⟩
  | boxed child _ => exact absurd hLegible Ty.not_legible_variant
  | nothing element =>
      exact ⟨'n', _, rfl, by decide, fun _ => rfl⟩
  | just child ih =>
      by_cases hMaybe : child.cls = .maybe
      · have hText := render_just child
        rw [if_pos hMaybe] at hText
        exact ⟨'j', _, hText, by decide, fun _ => rfl⟩
      · have hText := render_just child
        rw [if_neg hMaybe, List.nil_append] at hText
        rcases ih ((Ty.legible_maybe_iff _).mp hLegible) with
          ⟨c, tail, hChild, hPlain, _⟩
        exact
          ⟨c, tail, hText.trans hChild, hPlain, fun _ => rfl⟩
  | bytes content =>
      change ∃ c tail, renderBytes content = _ ∧ _
      unfold renderBytes
      split
      · exact ⟨'b', _, rfl, by decide, by simp⟩
      · exact ⟨'[', _, rfl, by decide, by simp⟩
  | arrayOf element children _ =>
      cases element with
      | dictEntry key value =>
          exact ⟨'{', _, rfl, by decide, by simp⟩
      | _ =>
          rw [render_arrayOf (by simp)]
          exact ⟨'[', _, rfl, by decide, by simp⟩
  | tuple children _ =>
      by_cases hLength : children.length = 1
      · rcases List.length_eq_one_iff.mp hLength with
          ⟨child, rfl⟩
        exact ⟨'(', _, rfl, by decide, by simp⟩
      · rw [render_tuple hLength]
        exact ⟨'(', _, rfl, by decide, by simp⟩
  | entry key value _ =>
      exact ⟨'{', _, rfl, by decide, by simp⟩

theorem startsItem_render
    {v : Variant}
    (hLegible : v.type.Legible) :
    StartsItem v.render := by
  rcases exists_render_eq_cons hLegible with
    ⟨c, tail, hText, hPlain, _⟩
  exact ⟨c, tail, hText, hPlain⟩

theorem startsItem_entryText
    {v : Variant}
    {key : BasicType}
    {value : Ty}
    (hType : v.type = .dictEntry key value)
    (hKey : key ≠ .double) :
    StartsItem (entryText v) := by
  rcases exists_entry_of_type hType with
    ⟨name, content, rfl, rfl, rfl⟩
  rcases Scalar.exists_render_eq_cons hKey with
    ⟨c, tail, hText, hPlain, _⟩
  exact
    ⟨c, tail ++ ':' :: ' ' :: content.render,
      by simp [entryText, hText], hPlain⟩

end Variant

end GVariant

------------------------------------------------------------
-- Variants Told Apart
------------------------------------------------------------

namespace GVariant

namespace Variant

/- Nothing is not what a maybe that holds something shows. -/
theorem render_nothing_append_ne
    {element : Ty}
    {child : Variant}
    (hLegible : child.type.Legible)
    (rest rest' : List Char) :
    render (.nothing element) ++ rest ≠
      render (.just child) ++ rest' := by
  intro hSame
  rw [render_just] at hSame
  split at hSame
  · exact absurd (List.cons.inj hSame).1 (by decide)
  · rename_i hMaybe
    rcases exists_render_eq_cons hLegible with
      ⟨c, tail, hText, _, hFirst⟩
    rw [hText] at hSame
    exact hMaybe (hFirst (List.cons.inj hSame).1.symm)

/- Entries are told apart if their values are. -/
theorem toldApart_entryText
    {key key' : Scalar}
    {value value' : Variant}
    (hKey : key.type ≠ .double)
    (hType : key'.type = key.type)
    (hValue : ToldApart render value value') :
    ToldApart entryText (.entry key value)
      (.entry key' value') := by
  intro rest rest' hRest hRest' hSame
  simp only [entryText, List.append_assoc,
    List.cons_append] at hSame
  rcases
      Scalar.toldApart_render hKey hType _ _
        (delimited_cons (by decide) _)
        (delimited_cons (by decide) _) hSame with
    ⟨rfl, hBehind⟩
  simp only [List.cons.injEq, true_and] at hBehind
  rcases hValue _ _ hRest hRest' hBehind with ⟨rfl, hEnd⟩
  exact ⟨rfl, hEnd⟩

/- An entry that stands alone is told apart. -/
theorem toldApart_entry
    {key key' : Scalar}
    {value value' : Variant}
    (hKey : key.type ≠ .double)
    (hType : key'.type = key.type)
    (hValue : ToldApart render value value') :
    ToldApart render (.entry key value)
      (.entry key' value') := by
  intro rest rest' hRest hRest' hSame
  simp only [render_entry, List.append_assoc,
    List.cons_append, List.nil_append, List.cons.injEq,
    true_and] at hSame
  rcases
      Scalar.toldApart_render hKey hType _ _
        (delimited_cons (by decide) _)
        (delimited_cons (by decide) _) hSame with
    ⟨rfl, hBehind⟩
  simp only [List.cons.injEq, true_and] at hBehind
  rcases
      hValue _ _ (delimited_cons (by decide) _)
        (delimited_cons (by decide) _) hBehind with
    ⟨rfl, hBrace⟩
  simp only [List.cons.injEq, true_and] at hBrace
  exact ⟨rfl, hBrace⟩

/- Dictionaries are told apart if their values are. -/
theorem toldApart_dictionary
    {key : BasicType}
    {value : Ty}
    {children children' : List Variant}
    (hKey : key ≠ .double)
    (hTypes :
      ∀ child ∈ children, child.type = .dictEntry key value)
    (hTypes' :
      ∀ child ∈ children', child.type = .dictEntry key value)
    (hValues :
      ∀ name content name' content',
        .entry name content ∈ children →
          .entry name' content' ∈ children' →
            ToldApart render content content') :
    ToldApart render
      (.arrayOf (.dictEntry key value) children)
      (.arrayOf (.dictEntry key value) children') := by
  intro rest rest' _ _ hSame
  rw [render_dictionary hTypes,
    render_dictionary hTypes'] at hSame
  simp only [List.cons_append, List.append_assoc,
    List.nil_append, List.cons.injEq, true_and] at hSame
  have hEntries :
      ∀ pair ∈ children.zip children',
        ToldApart entryText pair.1 pair.2 := by
    rintro ⟨child, child'⟩ hPair
    rcases List.of_mem_zip hPair with ⟨hMem, hMem'⟩
    rcases exists_entry_of_type (hTypes child hMem) with
      ⟨name, content, rfl, hName, _⟩
    rcases exists_entry_of_type (hTypes' child' hMem') with
      ⟨name', content', rfl, hName', _⟩
    exact
      toldApart_entryText (hName.symm ▸ hKey)
        (hName'.trans hName.symm)
        (hValues name content name' content' hMem hMem')
  rcases
      eq_of_enclosed_eq (by decide) (by decide)
        (fun child hMem =>
          startsItem_entryText (hTypes child hMem) hKey)
        (fun child hMem =>
          startsItem_entryText (hTypes' child hMem) hKey)
        hEntries hSame with
    ⟨rfl, hRest⟩
  exact ⟨rfl, hRest⟩

/- Arrays of anything else are if their children are. -/
theorem toldApart_arrayOf
    {element : Ty}
    {children children' : List Variant}
    (hPlain : ∀ key value, element ≠ .dictEntry key value)
    (hLegible : element.Legible)
    (hTypes : ∀ child ∈ children, child.type = element)
    (hTypes' : ∀ child ∈ children', child.type = element)
    (hChildren :
      ∀ pair ∈ children.zip children',
        ToldApart render pair.1 pair.2) :
    ToldApart render (.arrayOf element children)
      (.arrayOf element children') := by
  intro rest rest' _ _ hSame
  rw [render_arrayOf hPlain, render_arrayOf hPlain] at hSame
  simp only [List.cons_append, List.append_assoc,
    List.nil_append, List.cons.injEq, true_and] at hSame
  rcases
      eq_of_enclosed_eq (by decide) (by decide)
        (fun child hMem =>
          startsItem_render (hTypes child hMem ▸ hLegible))
        (fun child hMem =>
          startsItem_render (hTypes' child hMem ▸ hLegible))
        hChildren hSame with
    ⟨rfl, hRest⟩
  exact ⟨rfl, hRest⟩

/-
  Tuples are told apart if their children at the same place
  are.
-/
theorem toldApart_tuple
    {children children' : List Variant}
    (hLength : children'.length = children.length)
    (hLegible :
      ∀ child ∈ children, child.type.Legible)
    (hLegible' :
      ∀ child ∈ children', child.type.Legible)
    (hChildren :
      ∀ pair ∈ children.zip children',
        ToldApart render pair.1 pair.2) :
    ToldApart render (.tuple children) (.tuple children') := by
  intro rest rest' _ _ hSame
  by_cases hOne : children.length = 1
  · rcases List.length_eq_one_iff.mp hOne with ⟨child, rfl⟩
    rcases List.length_eq_one_iff.mp (hLength.trans hOne) with
      ⟨child', rfl⟩
    have hChild : ToldApart render child child' :=
      hChildren (child, child') (by simp)
    simp only [render_singleton, List.cons_append,
      List.append_assoc, List.nil_append, List.cons.injEq,
      true_and] at hSame
    rcases
        hChild _ _ (delimited_cons (by decide) _)
          (delimited_cons (by decide) _) hSame with
      ⟨rfl, hBehind⟩
    simp only [List.cons.injEq, true_and] at hBehind
    exact ⟨rfl, hBehind⟩
  · rw [render_tuple hOne,
      render_tuple (hLength ▸ hOne)] at hSame
    simp only [List.cons_append, List.append_assoc,
      List.nil_append, List.cons.injEq, true_and] at hSame
    rcases
        eq_of_enclosed_eq (by decide) (by decide)
          (fun child hMem =>
            startsItem_render (hLegible child hMem))
          (fun child hMem =>
            startsItem_render (hLegible' child hMem))
          hChildren hSame with
      ⟨rfl, hRest⟩
    exact ⟨rfl, hRest⟩

/-
  A variant that is told apart from all well-formed variants
  of its type.
-/
def Unmistakable (v : Variant) : Prop :=
  ∀ w : Variant,
    w.WellFormed → w.type = v.type → ToldApart render v w

theorem unmistakable_scalar
    {value : Scalar}
    (hDouble : value.type ≠ .double) :
    (scalar value).Unmistakable := by
  intro w _ hType rest rest' hRest hRest' hSame
  cases w with
  | scalar value' =>
      have hKind : value'.type = value.type := by
        simpa [type] using hType
      rcases
          Scalar.toldApart_render hDouble hKind _ _ hRest
            hRest' hSame with
        ⟨rfl, hBehind⟩
      exact ⟨rfl, hBehind⟩
  | _ => simp [type] at hType

theorem unmistakable_nothing
    {element : Ty}
    (hLegible : element.Legible) :
    (nothing element).Unmistakable := by
  intro w _ hType rest rest' _ _ hSame
  cases w with
  | nothing element' =>
      cases hType
      exact ⟨rfl, List.append_cancel_left hSame⟩
  | just child' =>
      cases hType
      exact
        absurd hSame (render_nothing_append_ne hLegible _ _)
  | _ => simp [type] at hType

/- Both of two maybes that are present have the mark. -/
theorem unmistakable_just
    {child : Variant}
    (hLegible : child.type.Legible)
    (hChild : child.Unmistakable) :
    (just child).Unmistakable := by
  intro w hWell hType rest rest' hRest hRest' hSame
  cases w with
  | nothing element' =>
      exact
        absurd hSame.symm
          (render_nothing_append_ne hLegible _ _)
  | just child' =>
      have hInner : child'.type = child.type := by
        simpa [type] using hType
      have hCls : child'.cls = child.cls :=
        congrArg Ty.cls hInner
      rw [render_just, render_just, hCls,
        List.append_assoc, List.append_assoc] at hSame
      rcases
          hChild child' hWell hInner _ _ hRest hRest'
            (List.append_cancel_left hSame) with
        ⟨rfl, hBehind⟩
      exact ⟨rfl, hBehind⟩
  | _ => simp [type] at hType

theorem unmistakable_bytes
    (content : List UInt8) :
    (bytes content).Unmistakable := by
  intro w hWell hType rest rest' _ _ hSame
  cases w with
  | bytes content' =>
      rcases eq_of_renderBytes_append_eq hSame with
        ⟨rfl, hRest⟩
      exact ⟨rfl, hRest⟩
  | arrayOf element' children' =>
      cases hType
      exact absurd rfl hWell.1
  | _ => simp [type] at hType

theorem unmistakable_dictionary
    {key : BasicType}
    {value : Ty}
    {children : List Variant}
    (hKey : key ≠ .double)
    (hTypes :
      ∀ child ∈ children, child.type = .dictEntry key value)
    (hValues :
      ∀ name content,
        .entry name content ∈ children →
          content.Unmistakable) :
    (arrayOf (.dictEntry key value) children).Unmistakable := by
  intro w hWell hType
  cases w with
  | arrayOf element' children' =>
      cases hType
      rcases hWell with ⟨_, hTypes', hChildren'⟩
      rw [wellFormedAll_iff] at hChildren'
      refine toldApart_dictionary hKey hTypes hTypes' ?_
      intro name content name' content' hMem hMem'
      have hEntries :=
        (hTypes' _ hMem').trans (hTypes _ hMem).symm
      simp only [type, Ty.dictEntry.injEq] at hEntries
      exact
        hValues name content hMem content'
          (hChildren' _ hMem').2 hEntries.2
  | _ => simp [type] at hType

theorem unmistakable_arrayOf
    {element : Ty}
    {children : List Variant}
    (hByte : element ≠ .byte)
    (hPlain : ∀ key value, element ≠ .dictEntry key value)
    (hLegible : element.Legible)
    (hTypes : ∀ child ∈ children, child.type = element)
    (hChildren : ∀ child ∈ children, child.Unmistakable) :
    (arrayOf element children).Unmistakable := by
  intro w hWell hType
  cases w with
  | bytes content' =>
      cases hType
      exact absurd rfl hByte
  | arrayOf element' children' =>
      cases hType
      rcases hWell with ⟨_, hTypes', hChildren'⟩
      rw [wellFormedAll_iff] at hChildren'
      refine
        toldApart_arrayOf hPlain hLegible hTypes hTypes' ?_
      rintro ⟨child, child'⟩ hPair
      rcases List.of_mem_zip hPair with ⟨hMem, hMem'⟩
      exact
        hChildren child hMem child' (hChildren' child' hMem')
          ((hTypes' child' hMem').trans
            (hTypes child hMem).symm)
  | _ => simp [type] at hType

theorem unmistakable_tuple
    {children : List Variant}
    (hLegible : ∀ child ∈ children, child.type.Legible)
    (hChildren : ∀ child ∈ children, child.Unmistakable) :
    (tuple children).Unmistakable := by
  intro w hWell hType
  cases w with
  | tuple children' =>
      have hChildren' :=
        (wellFormedAll_iff children').mp hWell
      have hTypes :
          children'.map type = children.map type := by
        simpa [type, typeAll_eq_map] using hType
      have hLegible' :
          ∀ child ∈ children', child.type.Legible := by
        intro child' hMem'
        have hMem : child'.type ∈ children.map type :=
          hTypes ▸ List.mem_map_of_mem hMem'
        rcases List.mem_map.mp hMem with
          ⟨child, hChild, hSame⟩
        exact hSame ▸ hLegible child hChild
      have hLength : children'.length = children.length := by
        simpa using congrArg List.length hTypes
      refine toldApart_tuple hLength hLegible hLegible' ?_
      rintro ⟨child, child'⟩ hPair
      rcases List.of_mem_zip hPair with ⟨hMem, hMem'⟩
      exact
        hChildren child hMem child' (hChildren' child' hMem')
          (eq_of_mem_zip hTypes hPair)
  | _ => simp [type] at hType

theorem unmistakable_entry
    {key : Scalar}
    {value : Variant}
    (hKey : key.type ≠ .double)
    (hValue : value.Unmistakable) :
    (entry key value).Unmistakable := by
  intro w hWell hType
  cases w with
  | entry key' value' =>
      simp only [type, Ty.dictEntry.injEq] at hType
      exact
        toldApart_entry hKey hType.1
          (hValue value' hWell.2 hType.2)
  | _ => simp [type] at hType

/-
  A well-formed variant of a legible type is told apart from
  the others of its type. The induction is on the variant;
  the values of a dictionary are told apart, not its
  entries.
-/
theorem WellFormed.unmistakable
    {v : Variant}
    (hWell : v.WellFormed)
    (hLegible : v.type.Legible) :
    v.Unmistakable := by
  induction v using induction_values with
  | scalar value =>
      exact
        unmistakable_scalar
          ((Ty.legible_basic_iff _).mp hLegible)
  | boxed child _ =>
      exact absurd hLegible Ty.not_legible_variant
  | nothing element =>
      exact
        unmistakable_nothing
          ((Ty.legible_maybe_iff _).mp hLegible)
  | just child ih =>
      have hElement := (Ty.legible_maybe_iff _).mp hLegible
      exact unmistakable_just hElement (ih hWell hElement)
  | bytes content => exact unmistakable_bytes content
  | arrayOf element children ih ihValues =>
      have hElement := (Ty.legible_array_iff _).mp hLegible
      rcases hWell with ⟨hByte, hTypes, hChildren⟩
      rw [wellFormedAll_iff] at hChildren
      by_cases hEntry :
          ∃ key value, element = .dictEntry key value
      · rcases hEntry with ⟨key, value, rfl⟩
        rcases (Ty.legible_dictEntry_iff _ _).mp hElement with
          ⟨hKey, hValue⟩
        refine
          unmistakable_dictionary
            ((Ty.legible_basic_iff _).mp hKey) hTypes ?_
        intro name content hMem
        have hContent := hTypes _ hMem
        simp only [type, Ty.dictEntry.injEq] at hContent
        exact
          ihValues name content hMem (hChildren _ hMem).2
            (hContent.2.symm ▸ hValue)
      · refine
          unmistakable_arrayOf hByte (by simpa using hEntry)
            hElement hTypes ?_
        intro child hMem
        exact
          ih child hMem (hChildren child hMem)
            ((hTypes child hMem).symm ▸ hElement)
  | tuple children ih =>
      have hChildren := (wellFormedAll_iff children).mp hWell
      have hItems :
          ∀ child ∈ children, child.type.Legible := by
        simpa [type, typeAll_eq_map] using
          (Ty.legible_tuple_iff _).mp hLegible
      exact
        unmistakable_tuple hItems fun child hMem =>
          ih child hMem (hChildren child hMem)
            (hItems child hMem)
  | entry key value ih =>
      rcases (Ty.legible_dictEntry_iff _ _).mp hLegible with
        ⟨hKey, hValue⟩
      exact
        unmistakable_entry
          ((Ty.legible_basic_iff _).mp hKey)
          (ih hWell.2 hValue)

/-
  A type without boxes and doubles: its well-formed variants
  have the same text only if they are the same.
-/
theorem toText_eq_iff
    {type : Ty}
    {v w : Variant}
    (hBoxes : 'v' ∉ type.chars)
    (hDoubles : 'd' ∉ type.chars)
    (hWell : v.WellFormed)
    (hWell' : w.WellFormed)
    (hType : v.type = type)
    (hType' : w.type = type) :
    v.toText = w.toText ↔ v = w := by
  constructor
  · intro hText
    have hSame : v.render ++ [] = w.render ++ [] := by
      rw [String.ofList_injective hText]
    subst hType
    exact
      (hWell.unmistakable ⟨hBoxes, hDoubles⟩ w hWell' hType'
        [] [] delimited_nil delimited_nil hSame).1
  · rintro rfl
    rfl

end Variant

end GVariant

------------------------------------------------------------
-- Quotes Inside Texts
------------------------------------------------------------

namespace GVariant

namespace Variant

/-
  Two texts, of which the first has the marks in it that
  stand between texts, and a maybe that holds nothing.
-/
def marksInFirst : Variant :=
  .tuple
    [.scalar (.text .string "a\x27, \x27b"),
      .scalar (.text .string "c"),
      .just (.nothing .byteString)]

/- The same with the marks in the second one, and nothing. -/
def marksInSecond : Variant :=
  .tuple
    [.scalar (.text .string "a"),
      .scalar (.text .string "b\x27, \x27c"),
      .nothing (.maybe .byteString)]

theorem toText_eq_iff_marksInTexts :
    'v' ∉ marksInFirst.type.chars ∧
      'd' ∉ marksInFirst.type.chars ∧
      marksInFirst.WellFormed ∧
      marksInSecond.WellFormed ∧
      marksInSecond.type = marksInFirst.type ∧
      marksInFirst.toText ≠ marksInSecond.toText := by
  have hBoxes : 'v' ∉ marksInFirst.type.chars := by
    decide
  have hDoubles : 'd' ∉ marksInFirst.type.chars := by
    decide
  have hFirst : marksInFirst.WellFormed := by
    simp [marksInFirst, WellFormed, WellFormedAll,
      Scalar.Valid, TextKind.Accepts]
  have hSecond : marksInSecond.WellFormed := by
    simp [marksInSecond, WellFormed, WellFormedAll,
      Scalar.Valid, TextKind.Accepts]
  have hType : marksInSecond.type = marksInFirst.type := rfl
  refine
    ⟨hBoxes, hDoubles, hFirst, hSecond, hType, ?_⟩
  intro hText
  have hSame :=
    (toText_eq_iff hBoxes hDoubles hFirst hSecond rfl
      hType).mp hText
  simp [marksInFirst, marksInSecond] at hSame

end Variant

end GVariant
