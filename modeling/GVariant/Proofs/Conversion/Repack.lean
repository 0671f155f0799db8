import GVariant.Proofs.Conversion.Heads
import GVariant.Proofs.Conversion.Host
import GVariant.Proofs.Conversion.Packed
import GVariant.Proofs.Value.Scalar

/-
  Packing the host value of a variant gives the variant
  back, where unpacking lost nothing.

  Unpacking loses how many maybes are around an empty one,
  and of a dictionary all but the last entry of a key and
  the order of the entries. The text of a key that is not a
  number does not tell which of such doubles it was. What
  has none of these is packed again from its host value, by
  a reader that stands at its type string.

  Key definitions include:
    * `Variant.Lossless`
    * `Conversion.Repacks`

  Main declarations:
    * `Codec.host_ne_null`
    * `Conversion.packEntryWith_chars`
    * `Conversion.packMembers_host`
    * `Conversion.packEntries_host`
    * `Conversion.repacks_of_lossless`
    * `Conversion.packAs_deepUnpack`
-/

------------------------------------------------------------
-- Lossless Variants
------------------------------------------------------------

namespace GVariant

namespace Variant

/- Whether a variant is an empty maybe. -/
def isNothing : Variant → Bool
| .nothing _ => true
| _ => false

/- The texts of the keys of entries, in order. -/
def keyTexts : List Variant → List String
| [] => []
| .entry key _ :: entries => key.keyText :: keyTexts entries
| _ :: entries => keyTexts entries

mutual

/-
  A variant of which deep unpacking loses nothing. Outside
  of boxes no maybe holds an empty maybe, no dictionary has
  doubles for keys, and the texts of the keys of every
  dictionary are strictly increasing.
-/
def Lossless : Variant → Prop
| .scalar _ => True
| .boxed _ => True
| .nothing _ => True
| .just child => child.isNothing = false ∧ child.Lossless
| .bytes _ => True
| .arrayOf (.dictEntry key _) entries =>
    key ≠ .double ∧
      (keyTexts entries).Pairwise (· < ·) ∧
      LosslessAll entries
| .arrayOf _ children => LosslessAll children
| .tuple children => LosslessAll children
| .entry _ value => value.Lossless

/- Unpacking loses nothing of any variant of a list. -/
def LosslessAll : List Variant → Prop
| [] => True
| child :: children =>
    child.Lossless ∧ LosslessAll children

end

theorem losslessAll_iff
    (children : List Variant) :
    LosslessAll children ↔
      ∀ child ∈ children, child.Lossless := by
  induction children with
  | nil => simp [LosslessAll]
  | cons child children ih => simp [LosslessAll, ih]

/- The elements of a lossless array are lossless. -/
theorem Lossless.of_mem_arrayOf
    {element : Ty}
    {children : List Variant}
    (hLossless : (arrayOf element children).Lossless) :
    ∀ child ∈ children, child.Lossless := by
  rw [← losslessAll_iff]
  cases element with
  | dictEntry key value => exact hLossless.2.2
  | _ => exact hLossless

/- Nothing else is asked of an array of other elements. -/
theorem lossless_arrayOf
    {element : Ty}
    (hElement : element.cls ≠ .dictEntry)
    {children : List Variant}
    (hChildren : ∀ child ∈ children, child.Lossless) :
    (arrayOf element children).Lossless := by
  have hAll := (losslessAll_iff children).mpr hChildren
  cases element with
  | dictEntry key value => exact absurd rfl hElement
  | _ => exact hAll

end Variant

namespace Codec

variable {codec : Codec}

/- No scalar is absent as a host value. -/
theorem toValue_ne_null
    (s : Scalar) :
    s.toValue ≠ .null := by
  refine Scalar.toValue_elim ?_ ?_ ?_ ?_ ?_ s <;> simp

/- Only an empty maybe is absent as a host value. -/
theorem host_ne_null
    (hCodec : codec.valueOfBytes = .bytes)
    {v : Variant}
    (hLossless : v.Lossless)
    (hPresent : v.isNothing = false) :
    codec.host v ≠ .null := by
  induction v with
  | scalar value => exact toValue_ne_null value
  | boxed child _ => simp [host]
  | nothing element => cases hPresent
  | just child ih => exact ih hLossless.2 hLossless.1
  | bytes content => simp [host, hCodec]
  | arrayOf element children _ =>
      cases element <;> simp [host]
  | tuple children _ => simp [host]
  | entry key value _ => simp [host]

/- The keys of the host value of entries are their texts. -/
theorem map_fst_hostPairs
    (codec : Codec)
    (entries : List Variant) :
    (codec.hostPairs entries).map Prod.fst =
      Variant.keyTexts entries := by
  induction entries with
  | nil => rfl
  | cons entry entries ih =>
      cases entry with
      | entry key value =>
          simp [hostPairs, Variant.keyTexts, ih]
      | _ => simpa [hostPairs, Variant.keyTexts] using ih

/- Entries with increasing texts are kept by their map. -/
theorem host_dictionary
    (codec : Codec)
    {key : BasicType}
    {type : Ty}
    {entries : List Variant}
    (hSorted :
      (Variant.keyTexts entries).Pairwise (· < ·)) :
    codec.host (.arrayOf (.dictEntry key type) entries) =
      .map (codec.hostPairs entries) := by
  rw [← map_fst_hostPairs codec, List.pairwise_map] at hSorted
  rw [host, Entries.ofList_of_sorted hSorted]

end Codec

end GVariant

------------------------------------------------------------
-- Entries
------------------------------------------------------------

namespace GVariant

namespace Conversion

variable {conv : Conversion}
variable {depth : Nat}

/-
  An entry is packed behind its brace if its key packs to
  the key and its value is packed behind the key.
-/
theorem packEntryWith_chars
    {packValue : Reader → Step Variant}
    {key : Value}
    {s : Scalar}
    {v : Variant}
    (hKey : key.packBasic s.type = .ok (.scalar s))
    {r : Reader}
    {rest : List Char}
    (hRest :
      r.rest = s.type.char :: (v.type.chars ++ '}' :: rest))
    (hDepth : depth + 1 ≤ r.maxDepth)
    (hValue :
      ∀ r' : Reader,
        r'.rest = v.type.chars ++ '}' :: rest →
          r'.maxDepth = r.maxDepth →
            packValue r' =
              (.ok v, r'.after v.type.chars ('}' :: rest))) :
    packEntryWith packValue key depth r =
      (.ok (.entry s v),
        r.after (s.type.char :: (v.type.chars ++ ['}']))
          rest) := by
  have hFirst := packEntryKey_char key hRest hDepth
  rw [hKey] at hFirst
  have hSecond := hValue (r.after [s.type.char] _) rfl rfl
  rw [Reader.after_after] at hSecond
  have hLast :=
    Reader.closeEntry_brace
      (r := r.after ([s.type.char] ++ v.type.chars)
        ('}' :: rest)) rfl
  rw [Reader.after_after, List.append_assoc] at hLast
  simp only [packEntryWith, hFirst, hSecond, hLast]
  rfl

end Conversion

end GVariant

------------------------------------------------------------
-- Repacking
------------------------------------------------------------

namespace GVariant

namespace Conversion

/-
  The host value of a variant packs to the variant, by any
  reader at its type string and at any depth where neither
  the limit of the reader nor that of the conversion is
  exceeded.
-/
def Repacks (conv : Conversion) (v : Variant) : Prop :=
  ∀ (depth : Nat) (r : Reader) (rest : List Char),
    r.rest = v.type.chars ++ rest →
      depth + v.type.nesting ≤ r.maxDepth →
        depth + v.type.nesting ≤ conv.maxDepth →
          pack conv (conv.codec.host v) depth r =
            (.ok v, r.after v.type.chars rest)

variable {inside : Variant → Prop}
variable {conv : Conversion}

variable {depth : Nat}

/- Members are packed up to the parenthesis of their tuple. -/
theorem packMembers_host
    {children : List Variant}
    (hChildren : ∀ child ∈ children, conv.Repacks child)
    {r : Reader}
    {rest : List Char}
    (hRest :
      r.rest =
        Ty.charsAll (Variant.typeAll children) ++ ')' :: rest)
    (hReader :
      ∀ child ∈ children,
        depth + child.type.nesting ≤ r.maxDepth)
    (hLimit :
      ∀ child ∈ children,
        depth + child.type.nesting ≤ conv.maxDepth) :
    packMembers conv (children.map conv.codec.host) depth r =
      (.ok children,
        r.after
          (Ty.charsAll (Variant.typeAll children) ++ [')'])
          rest) := by
  induction children generalizing r with
  | nil =>
      have hRest' : r.rest = ')' :: rest := hRest
      have hPop := Reader.pop_cons hRest' (by decide)
      simp [packMembers, Reader.peek?, hRest', hPop,
        Variant.typeAll, Ty.charsAll]
  | cons child children ih =>
      rcases List.forall_mem_cons.mp hChildren with
        ⟨hFirst, hOthers⟩
      rcases List.forall_mem_cons.mp hReader with
        ⟨hFirstReader, hOthersReader⟩
      rcases List.forall_mem_cons.mp hLimit with
        ⟨hFirstLimit, hOthersLimit⟩
      rw [Variant.typeAll, Ty.charsAll, List.append_assoc]
        at hRest
      have hChild :=
        hFirst depth r _ hRest hFirstReader hFirstLimit
      have hTail :=
        ih hOthers (r := r.after child.type.chars _) rfl
          hOthersReader hOthersLimit
      rw [Reader.after_after] at hTail
      rcases child.type.chars_eq_cons with ⟨more, hChars⟩
      have hPeek : r.peek? = some child.type.cls.char := by
        rw [Reader.peek?, hRest, hChars]
        rfl
      rw [List.map_cons, packMembers, hPeek]
      split
      · rename_i hNone
        cases hNone
      · rename_i hClose
        exact
          absurd (Option.some.inj hClose)
            child.type.cls.char_ne_close
      · simp only [hChild, hTail, Variant.typeAll, Ty.charsAll,
          List.append_assoc]

/- Elements are packed by readers over their type. -/
theorem packElements_host
    {element : Ty}
    {children : List Variant}
    (hTypes : ∀ child ∈ children, child.type = element)
    (hChildren : ∀ child ∈ children, conv.Repacks child)
    (hLimit : depth + element.nesting ≤ conv.maxDepth) :
    packElements conv (children.map conv.codec.host) element
        depth =
      .ok children := by
  induction children with
  | nil => rfl
  | cons child children ih =>
      rcases List.forall_mem_cons.mp hTypes with
        ⟨hType, hTypes'⟩
      rcases List.forall_mem_cons.mp hChildren with
        ⟨hFirst, hOthers⟩
      have hRest :
          (Reader.ofChars element.chars conv.maxDepth).rest =
            child.type.chars ++ [] := by
        rw [hType, List.append_nil]
        rfl
      rw [← hType] at hLimit
      have hChild := hFirst depth _ [] hRest hLimit hLimit
      rw [hType] at hLimit
      simp only [List.map_cons, packElements, hChild,
        ih hTypes' hOthers]

/- Entries are packed by readers behind their brace. -/
theorem packEntries_host
    {key : BasicType}
    {type : Ty}
    (hDouble : key ≠ .double)
    {entries : List Variant}
    (hTypes :
      ∀ entry ∈ entries, entry.type = .dictEntry key type)
    (hTyped : ∀ entry ∈ entries, entry.WellTyped inside)
    (hValues :
      ∀ name value,
        .entry name value ∈ entries → conv.Repacks value)
    (hLimit : depth + (type.nesting + 1) ≤ conv.maxDepth) :
    packEntries conv (conv.codec.hostPairs entries) key
        (.dictEntry key type) depth =
      .ok entries := by
  induction entries with
  | nil => rfl
  | cons entry entries ih =>
      rcases List.forall_mem_cons.mp hTypes with
        ⟨hType, hTypes'⟩
      rcases List.forall_mem_cons.mp hTyped with
        ⟨hFirst, hOthers⟩
      have hTail :=
        ih hTypes' hOthers fun name value hMem =>
          hValues name value (List.mem_cons_of_mem _ hMem)
      cases entry with
      | entry s value =>
          cases hType
          rcases Scalar.packBasic_parseKey hFirst.1 hDouble with
            ⟨name, hParse, hName⟩
          have hDepth : depth ≤ conv.maxDepth := by
            omega
          rcases openEntry_eq_ok s.type value.type hDepth with
            ⟨r, hOpen, hRest, hMax⟩
          have hValue :
              ∀ r' : Reader,
                r'.rest = value.type.chars ++ '}' :: [] →
                  r'.maxDepth = r.maxDepth →
                    pack conv (conv.codec.host value)
                        (depth + 1) r' =
                      (.ok value,
                        r'.after value.type.chars ['}']) := by
            intro r' hRest' hMax'
            rw [hMax] at hMax'
            exact
              hValues s value (by simp) (depth + 1) r' ['}']
                hRest' (by omega) (by omega)
          have hEntry :=
            packEntryWith_chars hName hRest
              (by omega : depth + 1 ≤ r.maxDepth) hValue
          simp only [Codec.hostPairs, packEntries, hParse,
            hOpen, hEntry, hTail]
      | _ => cases hType

/- A scalar is packed by its type character. -/
theorem repacks_scalar
    {s : Scalar}
    (hValid : s.Valid) :
    conv.Repacks (.scalar s) := by
  intro depth r rest hRest hReader _
  have hPresent := Codec.toValue_ne_null s
  have hPack :=
    pack_class conv (.basic s.type) hPresent (by simp)
      hRest (Nat.le_trans (Nat.le_add_right _ _) hReader)
  rw [packBehind_basic, Scalar.packBasic_toValue hValid]
    at hPack
  exact hPack

/- A box is packed as it is. -/
theorem repacks_boxed
    (child : Variant) :
    conv.Repacks (.boxed child) := by
  intro depth r rest hRest hReader _
  exact
    pack_class conv .variant (by simp [Codec.host]) (by simp)
      hRest (Nat.le_trans (Nat.le_add_right _ _) hReader)

/- An empty maybe is packed by its element type. -/
theorem repacks_nothing
    (element : Ty) :
    conv.Repacks (.nothing element) := by
  intro depth r rest hRest hReader _
  simp only [Variant.type, Ty.nesting] at hReader
  have hHead :
      r.readHead false depth =
        (.ok (0, .maybe),
          r.after ['m'] (element.chars ++ rest)) :=
    Reader.readHead_class hRest (by omega) fun _ => rfl
  have hElement := Reader.readAt_after hReader 'm' rest
  rw [Codec.host, pack, hHead]
  simp only [packLeaf, packFlat, hElement]
  rfl

/-
  A maybe that is present is packed by its content, whose
  host value is not absent.
-/
theorem repacks_just
    {child : Variant}
    (hPresent : conv.codec.host child ≠ .null)
    (hChild : conv.Repacks child) :
    conv.Repacks (.just child) := by
  intro depth r rest hRest hReader hLimit
  simp only [Variant.type, Ty.nesting] at hReader hLimit
  have hRest' : r.rest = 'm' :: (child.type.chars ++ rest) :=
    hRest
  have hInner :=
    hChild (depth + 1)
      (r.after ['m'] (child.type.chars ++ rest)) rest rfl
      (by rw [Reader.maxDepth_after]; omega)
      (by omega)
  rw [Codec.host, pack_maybe conv hPresent hRest' (by omega),
    hInner, Reader.after_after]
  rfl

/-
  A value that is present is packed by an array type behind
  its first character, where the element type is read.
-/
theorem pack_array_chars
    (conv : Conversion)
    {value : Value}
    (hPresent : value ≠ .null)
    {element : Ty}
    {depth : Nat}
    {r : Reader}
    {rest : List Char}
    (hRest : r.rest = (Ty.array element).chars ++ rest)
    (hReader : depth + (element.nesting + 1) ≤ r.maxDepth) :
    pack conv value depth r =
        conv.packBehind value .array depth
          (r.after ['a'] (element.chars ++ rest)) ∧
      (r.after ['a'] (element.chars ++ rest)).readAt
          (depth + 1) =
        (.ok element,
          r.after (Ty.array element).chars rest) := by
  have hRest' : r.rest = 'a' :: (element.chars ++ rest) :=
    hRest
  exact
    ⟨pack_class conv .array hPresent (by simp) hRest'
        (Nat.le_trans (Nat.le_add_right _ _) hReader),
      Reader.readAt_after hReader 'a' rest⟩

/- A byte array is packed as one buffer. -/
theorem repacks_bytes
    (hCodec : conv.codec.valueOfBytes = .bytes)
    (content : List UInt8) :
    conv.Repacks (.bytes content) := by
  intro depth r rest hRest hReader _
  have hPresent : conv.codec.host (.bytes content) ≠ .null := by
    simp [Codec.host, hCodec]
  rcases pack_array_chars conv hPresent hRest hReader with
    ⟨hPack, hElement⟩
  rw [hPack, Codec.host, hCodec]
  simp only [packBehind, packLeaf, hElement, packPlainArray,
    packBytes, if_true]
  rfl

/- An array of strings is packed as a whole. -/
theorem packPlainArray_strings
    {children : List Variant}
    (hTypes : ∀ child ∈ children, child.type = .string)
    (hTyped : ∀ child ∈ children, child.WellTyped inside) :
    conv.packPlainArray .string
        (.array (children.map conv.codec.host)) =
      .ok (.arrayOf .string children) := by
  have hEach :
      ∀ child ∈ children,
        ∃ text,
          (conv.codec.host child).toString = .ok text ∧
            Variant.string text = .ok child := by
    intro child hMem
    have hType := hTypes child hMem
    have hValid := hTyped child hMem
    cases child with
    | scalar value =>
        cases value with
        | text kind text =>
            cases hType
            have hText :
                Variant.text .string text =
                  .ok (.scalar (.text .string text)) :=
              Variant.text_eq_ok_iff.mpr ⟨hValid, rfl⟩
            exact ⟨text, rfl, hText⟩
        | _ => cases hType
    | _ => cases hType
  have hAll :
      List.Forall₂
        (fun item child =>
          ∃ text,
            item.toString = .ok text ∧
              Variant.string text = .ok child)
        (children.map conv.codec.host) children := by
    rw [List.forall₂_map_left_iff, List.forall₂_same]
    exact hEach
  rcases forall₂_comp_iff.mp hAll with
    ⟨texts, hStrings, hMade⟩
  rw [← mapM_eq_ok_iff_forall₂] at hStrings hMade
  have hByte : ¬ (Ty.string = Ty.byte) := by
    simp
  simp only [packPlainArray, hByte, if_false, if_true,
    packStrings, Value.toItems, hStrings, Variant.strings,
    hMade]

/- An array is packed if its elements are. -/
theorem repacks_arrayOf
    {element : Ty}
    {children : List Variant}
    (hTyped :
      (Variant.arrayOf element children).WellTyped inside)
    (hElement : element.cls ≠ .dictEntry)
    (hChildren : ∀ child ∈ children, conv.Repacks child) :
    conv.Repacks (.arrayOf element children) := by
  intro depth r rest hRest hReader hLimit
  simp only [Variant.type, Ty.nesting] at hReader hLimit
  rcases hTyped with ⟨hByte, hTypes, hTypedAll⟩
  rw [Variant.wellTypedAll_iff] at hTypedAll
  have hPresent :
      Value.array (children.map conv.codec.host) ≠ .null := by
    simp
  rw [Codec.host_arrayOf _ hElement]
  rcases pack_array_chars conv hPresent hRest hReader with
    ⟨hPack, hRead⟩
  rw [hPack]
  simp only [packBehind, packArray, hRead]
  by_cases hString : element = .string
  · subst hString
    have hWhole : Ty.string.isPackedWhole = true := by
      decide
    simp only [hWhole, if_true,
      packPlainArray_strings hTypes hTypedAll]
    rfl
  · have hSingle : element.isPackedWhole = false := by
      simp [Ty.isPackedWhole, hByte, hString, hElement]
    have hDepth :
        depth + 1 + element.nesting ≤ conv.maxDepth := by
      omega
    have hItems := packElements_host hTypes hChildren hDepth
    have hArray :
        Variant.array element children =
          .ok (.arrayOf element children) := by
      refine Variant.array_eq_ok_iff.mpr ⟨hTypes, ?_⟩
      simp [Variant.packed, hByte]
    simp only [hSingle, Bool.false_eq_true, if_false, hItems,
      hArray]
    rfl

/- A dictionary is packed if the values of its entries are. -/
theorem repacks_dictionary
    {key : BasicType}
    {type : Ty}
    {entries : List Variant}
    (hTyped :
      (Variant.arrayOf (.dictEntry key type) entries).WellTyped
        inside)
    (hLossless :
      (Variant.arrayOf (.dictEntry key type) entries).Lossless)
    (hValues :
      ∀ name value,
        .entry name value ∈ entries → conv.Repacks value) :
    conv.Repacks (.arrayOf (.dictEntry key type) entries) := by
  intro depth r rest hRest hReader hLimit
  simp only [Variant.type, Ty.nesting] at hReader hLimit
  rcases hTyped with ⟨_, hTypes, hTypedAll⟩
  rw [Variant.wellTypedAll_iff] at hTypedAll
  rcases hLossless with ⟨hDouble, hSorted, _⟩
  have hPresent :
      Value.map (conv.codec.hostPairs entries) ≠ .null := by
    simp
  rw [Codec.host_dictionary _ hSorted]
  rcases pack_array_chars conv hPresent hRest hReader with
    ⟨hPack, hRead⟩
  have hDepth :
      depth + 1 + (type.nesting + 1) ≤ conv.maxDepth := by
    omega
  have hEntries :=
    packEntries_host hDouble hTypes hTypedAll hValues hDepth
  have hArray :
      Variant.array (.dictEntry key type) entries =
        .ok (.arrayOf (.dictEntry key type) entries) := by
    refine Variant.array_eq_ok_iff.mpr ⟨hTypes, ?_⟩
    simp [Variant.packed]
  rw [hPack]
  simp only [packBehind, packDictionary, hRead, hEntries,
    hArray]
  rfl

/- A tuple is packed if its members are. -/
theorem repacks_tuple
    {children : List Variant}
    (hChildren : ∀ child ∈ children, conv.Repacks child) :
    conv.Repacks (.tuple children) := by
  intro depth r rest hRest hReader hLimit
  let inner :=
    Ty.charsAll (Variant.typeAll children) ++ ')' :: rest
  have hRest' : r.rest = '(' :: inner := by
    rw [hRest]
    simp [inner, Variant.type, Ty.chars]
  have hInReader :
      ∀ child ∈ children,
        depth + 1 + child.type.nesting ≤
          (r.after ['('] inner).maxDepth := by
    intro child hMem
    have hLess := Variant.nesting_type_lt_of_mem_tuple hMem
    rw [Reader.maxDepth_after]
    omega
  have hInLimit :
      ∀ child ∈ children,
        depth + 1 + child.type.nesting ≤ conv.maxDepth := by
    intro child hMem
    have hLess := Variant.nesting_type_lt_of_mem_tuple hMem
    omega
  have hMembers :
      packMembers conv (children.map conv.codec.host)
          (depth + 1) (r.after ['('] inner) =
        (.ok children,
          (r.after ['('] inner).after
            (Ty.charsAll (Variant.typeAll children) ++ [')'])
            rest) :=
    packMembers_host hChildren rfl hInReader hInLimit
  have hPresent :
      Value.array (children.map conv.codec.host) ≠ .null := by
    simp
  have hPack :
      pack conv (.array (children.map conv.codec.host)) depth
          r =
        conv.packBehind (.array (children.map conv.codec.host))
          .tuple depth (r.after ['('] inner) :=
    pack_class conv .tuple hPresent (by simp) hRest'
      (Nat.le_trans (Nat.le_add_right _ _) hReader)
  rw [Codec.host, Codec.hostAll_eq_map, hPack]
  simp only [packBehind, hMembers]
  simp [tupleOf, Variant.type, Ty.chars]

/- An entry is packed if its value is. -/
theorem repacks_entry
    {key : Scalar}
    {value : Variant}
    (hKey : key.Valid)
    (hValue : conv.Repacks value) :
    conv.Repacks (.entry key value) := by
  intro depth r rest hRest hReader hLimit
  simp only [Variant.type, Ty.nesting] at hReader hLimit
  let inner :=
    key.type.char :: (value.type.chars ++ '}' :: rest)
  have hRest' : r.rest = '{' :: inner := by
    rw [hRest]
    simp [inner, Variant.type, Ty.chars]
  have hPresent :
      Value.array [key.toValue, conv.codec.host value] ≠
        .null := by
    simp
  have hPack :
      pack conv (.array [key.toValue, conv.codec.host value])
          depth r =
        conv.packBehind
          (.array [key.toValue, conv.codec.host value])
          .dictEntry depth (r.after ['{'] inner) :=
    pack_class conv .dictEntry hPresent (by simp) hRest'
      (by omega)
  have hSecond :
      ∀ r' : Reader,
        r'.rest = value.type.chars ++ '}' :: rest →
          r'.maxDepth = (r.after ['{'] inner).maxDepth →
            pack conv (conv.codec.host value) (depth + 1) r' =
              (.ok value,
                r'.after value.type.chars ('}' :: rest)) := by
    intro r' hRest' hMax
    rw [Reader.maxDepth_after] at hMax
    exact
      hValue (depth + 1) r' ('}' :: rest) hRest' (by omega)
        (by omega)
  have hDepth :
      depth + 1 ≤ (r.after ['{'] inner).maxDepth := by
    rw [Reader.maxDepth_after]
    omega
  have hEntry :=
    packEntryWith_chars (Scalar.packBasic_toValue hKey)
      (r := r.after ['{'] inner) rfl hDepth hSecond
  rw [Codec.host, hPack]
  simp only [packBehind, packPair, hEntry]
  simp [Variant.type, Ty.chars]

/-
  A variant of which unpacking loses nothing is packed from
  its host value.
-/
theorem repacks_of_lossless
    (hCodec : conv.codec.valueOfBytes = .bytes)
    {v : Variant}
    (hTyped : v.WellTyped inside)
    (hLossless : v.Lossless) :
    conv.Repacks v := by
  induction v using Variant.induction_values with
  | scalar value => exact repacks_scalar hTyped
  | boxed child _ => exact repacks_boxed child
  | nothing element => exact repacks_nothing element
  | just child ih =>
      have hPresent :=
        Codec.host_ne_null hCodec hLossless.2 hLossless.1
      exact repacks_just hPresent (ih hTyped hLossless.2)
  | bytes content => exact repacks_bytes hCodec content
  | arrayOf element children ih ihValues =>
      have hTypedAll :=
        (Variant.wellTypedAll_iff inside children).mp hTyped.2.2
      have hLosslessAll := hLossless.of_mem_arrayOf
      by_cases hElement : element.cls = .dictEntry
      · cases element with
        | dictEntry key type =>
            refine repacks_dictionary hTyped hLossless ?_
            intro name value hMem
            have hValue : value.Lossless :=
              hLosslessAll (.entry name value) hMem
            exact
              ihValues name value hMem (hTypedAll _ hMem).2
                hValue
        | _ => cases hElement
      · refine repacks_arrayOf hTyped hElement ?_
        intro child hMem
        exact
          ih child hMem (hTypedAll child hMem)
            (hLosslessAll child hMem)
  | tuple children ih =>
      have hTypedAll :=
        (Variant.wellTypedAll_iff inside children).mp hTyped
      have hLosslessAll :=
        (Variant.losslessAll_iff children).mp hLossless
      refine repacks_tuple ?_
      intro child hMem
      exact
        ih child hMem (hTypedAll child hMem)
          (hLosslessAll child hMem)
  | entry key value ih =>
      exact repacks_entry hTyped.1 (ih hTyped.2 hLossless)

/- What repacks is packed by the signature of its type. -/
theorem packAs_signature
    {v : Variant}
    (hLimit : v.type.nesting ≤ conv.maxDepth)
    (hRepacks : conv.Repacks v) :
    conv.packAs v.type.signature (conv.codec.host v) =
      .ok v := by
  let r := Reader.ofString v.type.signature conv.maxDepth
  have hReader : r = .ofChars v.type.chars conv.maxDepth := by
    simp [r, Reader.ofString, Ty.signature]
  have hWhole : r.readWhole = .ok v.type := by
    rw [hReader]
    exact Reader.readWhole_chars v.type hLimit
  have hRest : r.rest = v.type.chars ++ [] := by
    rw [hReader, List.append_nil]
    rfl
  have hNested : 0 + v.type.nesting ≤ conv.maxDepth := by
    omega
  have hPack := hRepacks 0 r [] hRest hNested hNested
  exact packAs_eq_ok_iff.mpr ⟨v.type, _, hWhole, hPack, rfl⟩

/-
  Packing undoes deep unpacking. A well-formed variant of
  which unpacking loses nothing is packed again by its type
  string from its host value.
-/
theorem packAs_deepUnpack
    (hCodec : conv.codec.valueOfBytes = .bytes)
    {v : Variant}
    (hWell : v.WellFormed)
    (hLimit : v.type.nesting ≤ conv.maxDepth)
    (hLossless : v.Lossless) :
    ∃ value,
      conv.deepUnpack v = .ok value ∧
        conv.packAs v.type.signature value = .ok v := by
  have hTyped := (Variant.wellFormed_iff_wellTyped v).mp hWell
  refine
    ⟨conv.codec.host v, deepUnpack_eq_host hTyped hLimit, ?_⟩
  exact packAs_signature hLimit
    (repacks_of_lossless hCodec hTyped hLossless)

/-
  The keys are in the order of their texts, where ten is
  before nine.
-/
def textOrder : Variant :=
  .tuple
    [.arrayOf (.dictEntry (.int .int16) (.maybe .string))
        [.entry (.int .int16 0xFFFD) (.nothing .string),
          .entry (.int .int16 10)
            (.just (.scalar (.text .string "a"))),
          .entry (.int .int16 9) (.nothing .string)],
      .arrayOf .string [.scalar (.text .string "b")],
      .just (.just (.bytes [1])),
      .boxed (.just (.nothing .double)),
      .entry (.text .signature "ay")
        (.scalar (.int .uint64 0xFFFFFFFFFFFFFFFF))]

theorem packAs_deepUnpack_textOrder :
    textOrder.type.signature =
        "(a\x7bnms\x7dasmmayv\x7bgt\x7d)" ∧
      ∃ value,
        standard.deepUnpack textOrder = .ok value ∧
          standard.packAs textOrder.type.signature value =
            .ok textOrder := by
  have hSignature : isSignature "ay" = true := by
    decide
  have hSorted :
      (Variant.keyTexts
        [.entry (.int .int16 0xFFFD) (.nothing .string),
          .entry (.int .int16 10)
            (.just (.scalar (.text .string "a"))),
          .entry (.int .int16 9)
            (.nothing .string)]).Pairwise (· < ·) := by
    decide +kernel
  have hWell : textOrder.WellFormed := by
    simp [textOrder, hSignature, Variant.WellFormed,
      Variant.WellFormedAll, Scalar.Valid, TextKind.Accepts,
      Variant.type, Scalar.type]
  have hDictionary :
      (BasicType.int .int16 ≠ .double) := by
    decide
  have hLossless : textOrder.Lossless := by
    simp only [textOrder, Variant.Lossless,
      Variant.LosslessAll, Variant.isNothing]
    simp only [and_true]
    exact ⟨hDictionary, hSorted⟩
  exact
    ⟨by decide,
      packAs_deepUnpack rfl hWell (by decide) hLossless⟩

end Conversion

end GVariant
