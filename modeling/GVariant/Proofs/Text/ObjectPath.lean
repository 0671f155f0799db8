import GVariant.ObjectPath
import GVariant.Proofs.Text.Utf8

/-
  The grammar of object paths, and that the check accepts
  exactly what it derives.

  A path is derived by

    P ::= / | S S*
    S ::= / N N*

  where `N` is one of the characters [A-Za-z0-9_]. The check
  goes through the characters and remembers whether the
  current segment has one already. It can also be made name
  by name: what is behind the leading slash is split at its
  slashes, and each part must have bytes, all of them those
  of `N`. No byte of a character outside of ASCII is one of
  these, so that both checks agree on all texts.

  Behind each slash of a path but the root is a name. So no
  segment of a path is empty, and no slash trails it.

  Key definitions include:
    * `ObjectPath.IsName`
    * `ObjectPath.Derives`
    * `ObjectPath.IsPlain`

  Main declarations:
    * `ObjectPath.derives_cons_iff`
    * `ObjectPath.isRest_iff`
    * `ObjectPath.isPlain_of_isObjectPath`
    * `ObjectPath.isObjectPath_iff_derives`
-/

------------------------------------------------------------
-- Derivations
------------------------------------------------------------

namespace GVariant

namespace ObjectPath

/- The characters [A-Za-z0-9_]. -/
def InNames (c : Char) : Prop :=
  ('A' ≤ c ∧ c ≤ 'Z') ∨ ('a' ≤ c ∧ c ≤ 'z') ∨
    ('0' ≤ c ∧ c ≤ '9') ∨ c = '_'

/- One or more of these characters. -/
def IsName (name : List Char) : Prop :=
  name ≠ [] ∧ ∀ c ∈ name, InNames c

/- A slash with a name behind it. -/
def segment (name : List Char) : List Char :=
  '/' :: name

/- The texts of paths: the root, or one or more segments. -/
inductive Derives : List Char → Prop
  | root :
      Derives ['/']
  | segments {names : List (List Char)} :
      names ≠ [] →
        (∀ name ∈ names, IsName name) →
          Derives (names.flatMap segment)

theorem not_inNames_slash :
    ¬ InNames '/' := by
  unfold InNames
  decide

theorem IsName.slash_not_mem
    {name : List Char}
    (hName : IsName name) :
    '/' ∉ name :=
  fun hMem => not_inNames_slash (hName.2 '/' hMem)

/- Segments are names with slashes between, behind a slash. -/
theorem flatMap_segment
    {names : List (List Char)}
    (hNames : names ≠ []) :
    names.flatMap segment =
      '/' :: ['/'].intercalate names := by
  induction names with
  | nil => exact absurd rfl hNames
  | cons name names ih =>
      cases names with
      | nil => simp [segment]
      | cons next names =>
          rw [List.flatMap_cons, ih (by simp),
            List.intercalate_cons_cons]
          simp [segment]

/-
  Behind its first slash, a path other than the root splits
  into names at the slashes.
-/
theorem derives_cons_iff
    {rest : List Char} :
    Derives ('/' :: rest) ↔
      rest = [] ∨ ∀ name ∈ rest.splitOn '/', IsName name := by
  constructor
  · generalize hText : '/' :: rest = text
    rintro (_ | ⟨hNames, hEach⟩)
    · cases hText
      exact .inl rfl
    · rw [flatMap_segment hNames] at hText
      cases hText
      right
      rwa [List.splitOn_intercalate '/'
        (fun name hMem => (hEach name hMem).slash_not_mem)
        hNames]
  · rintro (rfl | hEach)
    · exact .root
    · have hDerives :=
        Derives.segments (List.splitOn_ne_nil '/' rest) hEach
      rwa [flatMap_segment (List.splitOn_ne_nil '/' rest),
        List.intercalate_splitOn] at hDerives

/- A path starts with a slash. -/
theorem Derives.exists_eq_cons
    {text : List Char}
    (hDerives : Derives text) :
    ∃ rest, text = '/' :: rest := by
  cases hDerives with
  | root => exact ⟨[], rfl⟩
  | segments hNames _ => exact ⟨_, flatMap_segment hNames⟩

end ObjectPath

end GVariant

------------------------------------------------------------
-- The Check Accepts What Is Derived
------------------------------------------------------------

namespace GVariant

namespace ObjectPath

theorem isNameChar_iff
    {c : Char} :
    isNameChar c = true ↔ InNames c := by
  have hUpper : c.isUpper = true ↔ 'A' ≤ c ∧ c ≤ 'Z' :=
    decide_eq_true_iff
  have hLower : c.isLower = true ↔ 'a' ≤ c ∧ c ≤ 'z' :=
    Bool.and_eq_true_iff.trans
      (and_congr decide_eq_true_iff decide_eq_true_iff)
  have hDigit : c.isDigit = true ↔ '0' ≤ c ∧ c ≤ '9' :=
    Bool.and_eq_true_iff.trans
      (and_congr decide_eq_true_iff decide_eq_true_iff)
  have hClass :
      isNameChar c =
        (c.isUpper || c.isLower || c.isDigit || c == '_') :=
    rfl
  simp only [hClass, InNames, Bool.or_eq_true, beq_iff_eq,
    hUpper, hLower, hDigit, or_assoc]

/-
  The first part of a rest goes on with the current segment,
  and the other parts are names.
-/
theorem isRest_iff
    {named : Bool}
    {text first : List Char}
    {names : List (List Char)}
    (hSplit : text.splitOn '/' = first :: names) :
    isRest named text = true ↔
      (named = true ∨ first ≠ []) ∧
        (∀ c ∈ first, InNames c) ∧
        ∀ name ∈ names, IsName name := by
  induction text generalizing named first names with
  | nil =>
      cases hSplit
      simp [isRest]
  | cons c text ih =>
      rcases hBehind : text.splitOn '/' with
        _ | ⟨next, others⟩
      · exact absurd hBehind (List.splitOn_ne_nil '/' text)
      · rw [List.splitOn_cons_eq_if_modifyHead,
          hBehind] at hSplit
        by_cases hSlash : c = '/'
        · rw [if_pos (by simpa using hSlash)] at hSplit
          cases hSplit
          simp [isRest, hSlash, ih hBehind, IsName,
            and_assoc]
        · rw [if_neg (by simpa using hSlash)] at hSplit
          cases hSplit
          simp [isRest, hSlash, ih hBehind, isNameChar_iff,
            and_assoc]

/- A rest without a segment before it is split into names. -/
theorem isRest_false_iff
    {text : List Char} :
    isRest false text = true ↔
      ∀ name ∈ text.splitOn '/', IsName name := by
  rcases hSplit : text.splitOn '/' with _ | ⟨first, names⟩
  · exact absurd hSplit (List.splitOn_ne_nil '/' text)
  · rw [isRest_iff hSplit, List.forall_mem_cons, IsName]
    simp [and_assoc]

/- The check takes the root, and rests behind a slash. -/
theorem isObjectPath_iff_exists
    {text : String} :
    isObjectPath text = true ↔
      ∃ rest,
        text.toList = '/' :: rest ∧
          (rest = [] ∨ isRest false rest = true) := by
  unfold isObjectPath
  split
  · rename_i hText
    simp [hText]
  · rename_i rest hNotRoot hText
    have hSome : rest ≠ [] := hNotRoot
    simp [hText, hSome]
  · rename_i hNotRoot hNoSlash
    constructor
    · intro hFalse
      cases hFalse
    · rintro ⟨rest, hText, _⟩
      exact absurd hText (hNoSlash rest)

/- The check accepts exactly the paths of the grammar. -/
theorem isObjectPath_iff
    {text : String} :
    isObjectPath text = true ↔ Derives text.toList := by
  rw [isObjectPath_iff_exists]
  constructor
  · rintro ⟨rest, hText, hRest⟩
    rwa [hText, derives_cons_iff, ← isRest_false_iff]
  · intro hDerives
    rcases hDerives.exists_eq_cons with ⟨rest, hText⟩
    rw [hText, derives_cons_iff,
      ← isRest_false_iff] at hDerives
    exact ⟨rest, hText, hDerives⟩

end ObjectPath

end GVariant

------------------------------------------------------------
-- The Check By Names
------------------------------------------------------------

namespace GVariant

namespace ObjectPath

theorem inNames_iff_toNat
    {c : Char} :
    InNames c ↔
      (65 ≤ c.toNat ∧ c.toNat ≤ 90) ∨
        (97 ≤ c.toNat ∧ c.toNat ≤ 122) ∨
        (48 ≤ c.toNat ∧ c.toNat ≤ 57) ∨ c.toNat = 95 := by
  rw [InNames, ← Char.toNat_inj]
  exact Iff.rfl

theorem InNames.toNat_lt
    {c : Char}
    (hChar : InNames c) :
    c.toNat < 128 := by
  rw [inNames_iff_toNat] at hChar
  omega

theorem toNat_lt_of_isNameByte
    {byte : UInt8}
    (hByte : isNameByte byte = true) :
    byte.toNat < 128 := by
  simp only [isNameByte, Bool.or_eq_true, Bool.and_eq_true,
    decide_eq_true_eq, beq_iff_eq, UInt8.le_iff_toNat_le,
    ← UInt8.toNat_inj, UInt8.reduceToNat] at hByte
  omega

theorem isNameByte_ofNat
    {c : Char}
    (hAscii : c.toNat < 128) :
    isNameByte (UInt8.ofNat c.toNat) = true ↔
      InNames c := by
  have hNumber : (UInt8.ofNat c.toNat).toNat = c.toNat := by
    rw [UInt8.toNat_ofNat']
    exact Nat.mod_eq_of_lt (by omega)
  rw [inNames_iff_toNat]
  simp [isNameByte, UInt8.le_iff_toNat_le,
    ← UInt8.toNat_inj, hNumber, or_assoc]

/-
  A character may be in names if its bytes may. No byte of a
  character outside of ASCII may, and it has at least one.
-/
theorem forall_isNameByte_iff
    {c : Char} :
    (∀ byte ∈ String.utf8EncodeChar c,
        isNameByte byte = true) ↔
      InNames c := by
  rcases Nat.lt_or_ge c.toNat 128 with hAscii | hAbove
  · simp [Utf8.encodeChar_of_lt hAscii,
      isNameByte_ofNat hAscii]
  · rcases List.exists_mem_of_ne_nil _
        (String.utf8EncodeChar_ne_nil (c := c)) with
      ⟨byte, hMem⟩
    have hHigh := Utf8.le_of_mem_encodeChar hAbove byte hMem
    constructor
    · intro hAll
      have hLow := toNat_lt_of_isNameByte (hAll byte hMem)
      omega
    · intro hChar
      have hLow := hChar.toNat_lt
      omega

theorem checkName_iff
    {name : List Char} :
    checkName name = true ↔ IsName name := by
  simp [checkName, IsName, Utf8.encode_eq_flatMap,
    forall_isNameByte_iff]

/- Both checks accept the same texts. -/
theorem checkByNames_eq
    (text : String) :
    checkByNames text = isObjectPath text := by
  rw [Bool.eq_iff_iff, isObjectPath_iff_exists]
  unfold checkByNames
  rcases hText : text.toList with _ | ⟨c, rest⟩
  · have hRoot : text ≠ "/" := by
      rintro rfl
      cases hText
    simp [hRoot]
  · have hRoot : text = "/" ↔ c = '/' ∧ rest = [] := by
      rw [← String.toList_inj, hText]
      simp
    by_cases hSlash : c = '/'
    · simp [hRoot, hSlash, isRest_false_iff, checkName_iff]
    · simp [hRoot, hSlash]

end ObjectPath

end GVariant

------------------------------------------------------------
-- What Paths Do Not Have
------------------------------------------------------------

namespace GVariant

namespace ObjectPath

/-
  A text has no segment without a name, neither between two
  slashes nor at its end, no NUL, and no character outside
  of ASCII. A slash that is the whole text trails nothing:
  it is the root.
-/
structure IsPlain (text : List Char) : Prop where
  no_empty_segment : ¬ ['/', '/'] <:+: text
  no_trailing_slash :
    ∀ front, text = front ++ ['/'] → front = []
  nul_not_mem : '\x00' ∉ text
  ascii : ∀ c ∈ text, c.toNat < 128

/- A path has slashes and characters of names only. -/
theorem Derives.slash_or_inNames
    {text : List Char}
    (hDerives : Derives text)
    {c : Char}
    (hMem : c ∈ text) :
    c = '/' ∨ InNames c := by
  cases hDerives with
  | root =>
      left
      simpa using hMem
  | segments _ hEach =>
      rcases List.mem_flatMap.mp hMem with
        ⟨name, hName, hChar⟩
      rcases List.mem_cons.mp hChar with hSlash | hChar
      · exact .inl hSlash
      · exact .inr ((hEach name hName).2 c hChar)

/- What is behind a slash of a rest starts with a name. -/
theorem isRest_behind_slash
    {named : Bool}
    {before after : List Char}
    (hRest : isRest named (before ++ '/' :: after) = true) :
    isRest false after = true := by
  induction before generalizing named with
  | nil =>
      simp only [List.nil_append, isRest, if_pos,
        Bool.and_eq_true] at hRest
      exact hRest.2
  | cons c before ih =>
      rw [List.cons_append, isRest] at hRest
      split at hRest
      · exact ih (Bool.and_eq_true_iff.mp hRest).2
      · exact ih (Bool.and_eq_true_iff.mp hRest).2

/- Behind each slash of a path but the root is a name. -/
theorem isRest_behind_slash_of_isObjectPath
    {text : String}
    {before after : List Char}
    (hPath : isObjectPath text = true)
    (hText : text.toList = before ++ '/' :: after) :
    before = [] ∧ after = [] ∨ isRest false after = true := by
  rcases isObjectPath_iff_exists.mp hPath with
    ⟨rest, hSlash, hRest⟩
  rw [hText] at hSlash
  cases before with
  | nil =>
      cases hSlash
      exact hRest.imp_left fun hRoot => ⟨rfl, hRoot⟩
  | cons c before =>
      cases hSlash
      rcases hRest with hRoot | hRest
      · simp at hRoot
      · exact .inr (isRest_behind_slash hRest)

/- No accepted text has any of these. -/
theorem isPlain_of_isObjectPath
    {text : String}
    (hPath : isObjectPath text = true) :
    IsPlain text.toList where
  no_empty_segment := by
    rintro ⟨before, after, hText⟩
    rw [List.append_assoc] at hText
    rcases isRest_behind_slash_of_isObjectPath hPath
        hText.symm with
      ⟨_, hEmpty⟩ | hRest
    · cases hEmpty
    · simp [isRest] at hRest
  no_trailing_slash := by
    intro front hText
    rcases isRest_behind_slash_of_isObjectPath hPath
        hText with
      ⟨hFront, _⟩ | hRest
    · exact hFront
    · cases hRest
  nul_not_mem := by
    intro hMem
    rcases (isObjectPath_iff.mp hPath).slash_or_inNames
        hMem with
      hSlash | hChar
    · cases hSlash
    · revert hChar
      unfold InNames
      decide
  ascii := by
    intro c hMem
    rcases (isObjectPath_iff.mp hPath).slash_or_inNames
        hMem with
      rfl | hChar
    · decide
    · exact hChar.toNat_lt

/-
  The check accepts a text exactly if the grammar derives
  it, and going through names and their bytes decides the
  same. So nothing is accepted that has an empty segment, a
  slash at its end, a NUL or a character outside of ASCII.
-/
theorem isObjectPath_iff_derives
    (text : String) :
    (isObjectPath text = true ↔ Derives text.toList) ∧
      isObjectPath text = checkByNames text ∧
      (isObjectPath text = true → IsPlain text.toList) :=
  ⟨isObjectPath_iff, (checkByNames_eq text).symm,
    isPlain_of_isObjectPath⟩

/-
  Letters of both cases, a digit and an underscore are
  accepted. An empty segment and a letter of two bytes are
  not derived.
-/
theorem isObjectPath_iff_derives_mixedNames :
    isObjectPath "/org/gnome_3/Shell" = true ∧
      Derives "/org/gnome_3/Shell".toList ∧
      IsPlain "/org/gnome_3/Shell".toList ∧
      ¬ Derives "/org//Shell".toList ∧
      ¬ Derives "/örg".toList := by
  have hPath : isObjectPath "/org/gnome_3/Shell" = true := by
    decide
  rcases isObjectPath_iff_derives "/org/gnome_3/Shell" with
    ⟨hDerives, _, hPlain⟩
  refine ⟨hPath, hDerives.mp hPath, hPlain hPath, ?_, ?_⟩
  · rw [← (isObjectPath_iff_derives "/org//Shell").1]
    decide
  · rw [← (isObjectPath_iff_derives "/örg").1]
    decide

end ObjectPath

end GVariant
