import GVariant.Conversion.Packing
import GVariant.Proofs.Signature.Reading

/-
  The leading characters of the type that a value is packed
  by.

  The packer reads all leading maybes at once. For a value
  that is present this is the same as packing it by the
  content of the first maybe, one level deeper, and putting
  the result into a maybe. What is packed behind a head is a
  function of the class that was read.

  Key definitions include:
    * `Reader.TookClass`
    * `Conversion.packBehind`

  Main declarations:
    * `Reader.tookClass_of_readHead`
    * `Reader.readHead_class`
    * `Conversion.pack_class`
    * `Conversion.pack_maybe`
    * `Conversion.packEntryKey_char`
-/

------------------------------------------------------------
-- What Was Read As A Head
------------------------------------------------------------

namespace GVariant

namespace Reader

theorem Took.nil
    (r : Reader) :
    r.Took [] r :=
  ⟨rfl, (after_nil rfl).symm⟩

/- A reader took the character of a class at a depth. -/
structure TookClass
    (r : Reader)
    (depth : Nat)
    (cls : TypeClass)
    (r' : Reader) : Prop where
  took : r.Took [cls.char] r'
  depth_le : depth ≤ r.maxDepth

/-
  The head of a type is its maybes, each one level deeper,
  and the character of the class in them. The induction is
  on the characters from where the head starts.
-/
theorem tookClass_of_readHeadFrom
    {limit : Nat}
    {maybes : Bool}
    {rest : List Char}
    {position depth count total : Nat}
    {cls : TypeClass}
    {r' : Reader}
    (hRead :
      readHeadFrom limit maybes rest position depth count =
        (.ok (total, cls), r')) :
    ∃ more s,
      total = count + more ∧
        (⟨rest, position, limit⟩ : Reader).Took
          (List.replicate more 'm') s ∧
        s.TookClass (depth + more) cls r' := by
  induction rest generalizing position depth count with
  | nil =>
      rw [readHeadFrom] at hRead
      split at hRead <;> cases hRead
  | cons c rest ih =>
      rw [readHeadFrom] at hRead
      split at hRead
      · cases hRead
      · rename_i hDepth
        have hPop :
            (⟨c :: rest, position, limit⟩ : Reader).pop =
              (some c,
                ⟨rest, position + c.utf8Size, limit⟩) := rfl
        split at hRead
        · cases hRead
        · rename_i found hClass
          have hTook := Took.of_pop_class hPop hClass
          split at hRead
          · rename_i hMaybe
            rcases ih hRead with ⟨more, s, hTotal, hMore, hHead⟩
            rw [hMaybe.1] at hTook
            have hAll := hTook.trans hMore
            refine ⟨more + 1, s, by omega, hAll, ?_⟩
            have hSum :
                depth + 1 + more = depth + (more + 1) := by
              omega
            exact hSum ▸ hHead
          · cases hRead
            exact
              ⟨0, _, rfl, Took.nil _,
                ⟨hTook, Nat.le_of_not_lt hDepth⟩⟩

/- The head of the next type for a value. -/
theorem tookClass_of_readHead
    {r r' : Reader}
    {maybes : Bool}
    {depth count : Nat}
    {cls : TypeClass}
    (hRead :
      r.readHead maybes depth = (.ok (count, cls), r')) :
    ∃ s,
      r.Took (List.replicate count 'm') s ∧
        s.TookClass (depth + count) cls r' := by
  rcases tookClass_of_readHeadFrom hRead with
    ⟨more, s, hTotal, hMore, hHead⟩
  rw [Nat.zero_add] at hTotal
  subst hTotal
  exact ⟨s, hMore, hHead⟩

/- A key has no maybes, since these are its class. -/
theorem tookClass_of_readHead_false
    {r r' : Reader}
    {depth count : Nat}
    {cls : TypeClass}
    (hRead :
      r.readHead false depth = (.ok (count, cls), r')) :
    count = 0 ∧ r.TookClass depth cls r' := by
  have hCount : count = 0 := by
    unfold readHead at hRead
    cases hRest : r.rest with
    | nil =>
        rw [hRest, readHeadFrom] at hRead
        split at hRead <;> cases hRead
    | cons c rest =>
        rw [hRest, readHeadFrom] at hRead
        split at hRead
        · cases hRead
        · split at hRead
          · cases hRead
          · simp only [Bool.false_eq_true, and_false,
              if_false] at hRead
            cases hRead
            rfl
  subst hCount
  rcases tookClass_of_readHead hRead with ⟨s, hNone, hHead⟩
  have hSame : s = r := by
    rw [hNone.2]
    exact after_nil hNone.1
  subst hSame
  exact ⟨rfl, hHead⟩

end Reader

end GVariant

------------------------------------------------------------
-- Heads Are Read
------------------------------------------------------------

namespace GVariant

namespace Reader

/-
  The character of a class is a head of its own, unless it
  is a maybe that belongs to the head of what is in it.
-/
theorem readHead_class
    {r : Reader}
    {cls : TypeClass}
    {rest : List Char}
    {maybes : Bool}
    {depth : Nat}
    (hRest : r.rest = cls.char :: rest)
    (hDepth : depth ≤ r.maxDepth)
    (hMaybe : cls = .maybe → maybes = false) :
    r.readHead maybes depth =
      (.ok (0, cls), r.after [cls.char] rest) := by
  have hInside : ¬ r.maxDepth < depth := Nat.not_lt.mpr hDepth
  have hSingle : ¬ (cls = .maybe ∧ maybes = true) := by
    rintro ⟨hClass, hMaybes⟩
    rw [hMaybe hClass] at hMaybes
    cases hMaybes
  rw [readHead, hRest, readHeadFrom, if_neg hInside,
    TypeClass.ofChar?_char]
  simp only [hSingle, if_false, TypeClass.utf8Size_char]
  rfl

/- The element type behind the character of a container. -/
theorem readAt_after
    {element : Ty}
    {r : Reader}
    {depth : Nat}
    (hDepth : depth + (element.nesting + 1) ≤ r.maxDepth)
    (c : Char)
    (rest : List Char) :
    (r.after [c] (element.chars ++ rest)).readAt (depth + 1) =
      (.ok element, r.after (c :: element.chars) rest) := by
  have hNested :
      depth + 1 + element.nesting ≤
        (r.after [c] (element.chars ++ rest)).maxDepth := by
    rw [maxDepth_after]
    omega
  rw [readAt_chars rfl hNested, after_after]
  rfl

/- Maybes that were counted before are added to a head. -/
theorem readHeadFrom_succ
    (limit : Nat)
    (maybes : Bool)
    (rest : List Char)
    (position depth count : Nat) :
    readHeadFrom limit maybes rest position depth (count + 1) =
      match readHeadFrom limit maybes rest position depth
          count with
      | (.error e, r) => (.error e, r)
      | (.ok (total, cls), r) => (.ok (total + 1, cls), r) := by
  induction rest generalizing position depth count with
  | nil =>
      rw [readHeadFrom, readHeadFrom]
      split <;> rfl
  | cons c rest ih =>
      rw [readHeadFrom, readHeadFrom]
      split
      · rfl
      · cases TypeClass.ofChar? c with
        | none => rfl
        | some cls =>
            simp only
            split
            · exact ih _ _ _
            · rfl

/- The first maybe of a head is one level of it. -/
theorem readHead_maybe
    {r : Reader}
    {rest : List Char}
    {depth : Nat}
    (hRest : r.rest = 'm' :: rest)
    (hDepth : depth ≤ r.maxDepth) :
    r.readHead true depth =
      match (r.after ['m'] rest).readHead true (depth + 1) with
      | (.error e, r') => (.error e, r')
      | (.ok (count, cls), r') =>
          (.ok (count + 1, cls), r') := by
  have hInside : ¬ r.maxDepth < depth := Nat.not_lt.mpr hDepth
  have hClass : TypeClass.ofChar? 'm' = some .maybe := rfl
  have hMore :=
    readHeadFrom_succ r.maxDepth true rest (r.position + 1)
      (depth + 1) 0
  rw [readHead, hRest, readHeadFrom, if_neg hInside, hClass]
  exact hMore

end Reader

end GVariant

------------------------------------------------------------
-- Packing Behind A Head
------------------------------------------------------------

namespace GVariant

namespace Conversion

/-
  Pack a value that is present by a class whose character
  was taken at a depth.
-/
def packBehind
    (conv : Conversion)
    (value : Value)
    (cls : TypeClass)
    (depth : Nat)
    (r : Reader) : Step Variant :=
  match value with
  | .array items =>
      match cls with
      | .tuple =>
          tupleOf (packMembers conv items (depth + 1) r)
      | .dictEntry => packPair conv items depth r
      | .array =>
          packArray conv (.array items)
            (fun element =>
              packElements conv items element (depth + 1))
            depth r
      | cls => packFlat (.array items) cls depth r
  | .map entries =>
      match cls with
      | .array =>
          packDictionary conv (.map entries)
            (fun key element =>
              packEntries conv entries key element (depth + 1))
            depth r
      | cls => packFlat (.map entries) cls depth r
  | value => packLeaf conv value cls depth r

/- Every value is packed alike by a basic type. -/
theorem packBehind_basic
    (conv : Conversion)
    (value : Value)
    (type : BasicType)
    (depth : Nat)
    (r : Reader) :
    conv.packBehind value (.basic type) depth r =
      (value.packBasic type, r) := by
  cases value <;> rfl

/- A value that is present is packed behind its head. -/
theorem pack_eq_packBehind
    (conv : Conversion)
    {value : Value}
    (hPresent : value ≠ .null)
    (depth : Nat)
    (r : Reader) :
    pack conv value depth r =
      match r.readHead true depth with
      | (.error e, r') => (.error e, r')
      | (.ok (count, cls), r') =>
          wrapMaybes count
            (conv.packBehind value cls (depth + count) r') := by
  cases value with
  | null => exact absurd rfl hPresent
  | array items => rw [pack]; rfl
  | map entries => rw [pack]; rfl
  | _ => rw [pack] <;> first | rfl | simp

/- Without maybes, a value is packed behind one character. -/
theorem pack_class
    (conv : Conversion)
    (cls : TypeClass)
    {value : Value}
    (hPresent : value ≠ .null)
    (hClass : cls ≠ .maybe)
    {depth : Nat}
    {r : Reader}
    {rest : List Char}
    (hRest : r.rest = cls.char :: rest)
    (hDepth : depth ≤ r.maxDepth) :
    pack conv value depth r =
      conv.packBehind value cls depth
        (r.after [cls.char] rest) := by
  have hHead :
      r.readHead true depth =
        (.ok (0, cls), r.after [cls.char] rest) :=
    Reader.readHead_class hRest hDepth fun hMaybe =>
      absurd hMaybe hClass
  rw [pack_eq_packBehind conv hPresent, hHead]
  simp only [Nat.add_zero]
  rcases conv.packBehind value cls depth
      (r.after [cls.char] rest) with ⟨packed, r'⟩
  cases packed with
  | error e => rfl
  | ok v => rfl

/-
  By a maybe, a value that is present is packed by what is
  in the maybe, one level deeper.
-/
theorem pack_maybe
    (conv : Conversion)
    {value : Value}
    (hPresent : value ≠ .null)
    {depth : Nat}
    {r : Reader}
    {rest : List Char}
    (hRest : r.rest = 'm' :: rest)
    (hDepth : depth ≤ r.maxDepth) :
    pack conv value depth r =
      wrapMaybes 1
        (pack conv value (depth + 1) (r.after ['m'] rest)) := by
  rw [pack_eq_packBehind conv hPresent depth r,
    pack_eq_packBehind conv hPresent (depth + 1) _,
    Reader.readHead_maybe hRest hDepth]
  rcases (r.after ['m'] rest).readHead true (depth + 1) with
    ⟨result, r'⟩
  cases result with
  | error e => rfl
  | ok head =>
      have hSum :
          depth + (head.1 + 1) = depth + 1 + head.1 := by
        omega
      simp only [hSum]
      rcases conv.packBehind value head.2 (depth + 1 + head.1)
          r' with ⟨packed, r''⟩
      cases packed with
      | error e => rfl
      | ok v => rfl

end Conversion

end GVariant

------------------------------------------------------------
-- Packing The Parts Of An Entry
------------------------------------------------------------

namespace GVariant

namespace Conversion

variable {depth : Nat}

/- A key is packed at the character of its basic type. -/
theorem packEntryKey_char
    (key : Value)
    {type : BasicType}
    {r : Reader}
    {rest : List Char}
    (hRest : r.rest = type.char :: rest)
    (hDepth : depth + 1 ≤ r.maxDepth) :
    packEntryKey key depth r =
      (key.packBasic type, r.after [type.char] rest) := by
  have hClass :
      TypeClass.ofChar? type.char = some (.basic type) :=
    TypeClass.ofChar?_char (.basic type)
  have hExpected : r.expectKey = .ok () := by
    simp [Reader.expectKey, Reader.peek?, hRest, hClass]
  have hHead :
      r.readHead false (depth + 1) =
        (.ok (0, .basic type), r.after [type.char] rest) :=
    Reader.readHead_class hRest hDepth fun _ => rfl
  simp only [packEntryKey, hExpected, hHead]

/- A reader is opened behind the brace of an entry type. -/
theorem openEntry_eq_ok
    (key : BasicType)
    (type : Ty)
    {limit : Nat}
    (hDepth : depth ≤ limit) :
    ∃ r,
      (Ty.dictEntry key type).openEntry limit depth = .ok r ∧
        r.rest = key.char :: (type.chars ++ ['}']) ∧
        r.maxDepth = limit := by
  rw [Ty.openEntry, if_neg (Nat.not_lt.mpr hDepth)]
  exact ⟨_, rfl, rfl, rfl⟩

end Conversion

end GVariant
