import GVariant.Proofs.Conversion.Agreement
import GVariant.Proofs.Conversion.Places

/-
  What any calls leave of a reader.

  A reader is taken from call to call, some of which take a
  character, some read a type and some pack a value. A call
  that fails may have taken a part of what it looked for.
  All that a call does to the reader is to take characters,
  so after any calls it stands between two characters of
  its signature, and never further back than before.

  A call that is known to keep the reader in every text is
  known to move it forward: nothing but the unread
  characters is common to all the texts in which a reader
  can stand.

  Key definitions include:
    * `Reader.Call`
    * `Reader.call`
    * `Reader.afterCalls`
    * `Reader.Ahead`
    * `Reader.Usable`
    * `Reader.Passes`

  Main declarations:
    * `Reader.exists_taken_of_standsIn`
    * `Reader.standsIn_call`
    * `Reader.standsIn_afterCalls`
    * `Reader.Ahead.passes`
    * `Reader.usable_afterCalls`
-/

------------------------------------------------------------
-- Calls
------------------------------------------------------------

namespace GVariant

namespace Reader

/- A call on a reader. -/
inductive Call
  | pop
  | readType (forceSimple : Bool)
  | pack (conv : Conversion) (value : Value)

/- What a call answers. -/
inductive Answer
  | popped (found : Option Char)
  | read (result : Except Error Ty)
  | packed (result : Except Error Variant)

/- Make a call: its answer, and the reader after it. -/
def call (r : Reader) : Call → Answer × Reader
| .pop =>
    let (found, r') := r.pop
    (.popped found, r')
| .readType forceSimple =>
    let (result, r') := r.readType forceSimple
    (.read result, r')
| .pack conv value =>
    let (result, r') := conv.packNext value r
    (.packed result, r')

/- The reader after some calls. -/
def afterCalls (r : Reader) (calls : List Call) : Reader :=
  calls.foldl (fun r c => (r.call c).2) r

/- The type that was read, or of what was packed. -/
def Answer.type? : Answer → Option Ty
| .read (.ok type) => some type
| .packed (.ok v) => some v.type
| _ => none

end Reader

end GVariant

------------------------------------------------------------
-- Forward Only
------------------------------------------------------------

namespace GVariant

namespace Reader

variable {r r' : Reader}

/- A reader is some characters ahead of another. -/
def Ahead (r r' : Reader) (taken : List Char) : Prop :=
  r.rest = taken ++ r'.rest ∧
    r'.position = r.position + Utf8.size taken

/-
  A text in which a reader stands: any character of one
  byte, as often as there are bytes before the reader.
-/
theorem standsIn_replicate
    (r : Reader)
    {c : Char}
    (hSize : c.utf8Size = 1) :
    r.StandsIn (List.replicate r.position c ++ r.rest) := by
  exact
    ⟨List.replicate r.position c, rfl,
      (Utf8.size_replicate r.position hSize).symm⟩

/-
  In such a text another reader is ahead, or else some of
  the characters before the first are unread.
-/
theorem exists_taken_or_unread
    {c : Char}
    (hSize : c.utf8Size = 1)
    (hStands :
      r'.StandsIn (List.replicate r.position c ++ r.rest)) :
    (∃ taken, r.Ahead r' taken) ∨
      ∃ unread,
        unread ≠ [] ∧
          (∀ d ∈ unread, d = c) ∧
          r'.rest = unread ++ r.rest := by
  rcases hStands with ⟨before, hText, hPosition⟩
  have hStart := Utf8.size_replicate r.position hSize
  rcases List.append_eq_append_iff.mp hText with
    ⟨taken, rfl, hRest⟩ | ⟨unread, hBefore, hRest⟩
  · left
    refine ⟨taken, hRest, ?_⟩
    rw [hPosition, Utf8.size_append, hStart]
  · by_cases hNone : unread = []
    · subst hNone
      rw [List.append_nil] at hBefore
      refine .inl ⟨[], hRest.symm, ?_⟩
      rw [hPosition, ← hBefore, hStart]
      rfl
    · refine .inr ⟨unread, hNone, ?_, hRest⟩
      intro d hMem
      apply List.eq_of_mem_replicate
      rw [hBefore]
      exact List.mem_append_right before hMem

/-
  A reader that stands in every text in which another one
  stands is ahead of it.
-/
theorem exists_taken_of_standsIn
    (hTexts :
      ∀ text, r.StandsIn text → r'.StandsIn text) :
    ∃ taken, r.Ahead r' taken := by
  have hCases :
      ∀ c : Char,
        c.utf8Size = 1 →
          (∃ taken, r.Ahead r' taken) ∨
            ∃ unread,
              unread ≠ [] ∧
                (∀ d ∈ unread, d = c) ∧
                r'.rest = unread ++ r.rest :=
    fun c hSize =>
      exists_taken_or_unread hSize
        (hTexts _ (r.standsIn_replicate hSize))
  rcases hCases 'a' rfl with hAhead | ⟨unread, hSome, hA, hRest⟩
  · exact hAhead
  · rcases hCases 'b' rfl with hAhead | ⟨other, _, hB, hOther⟩
    · exact hAhead
    · have hSame : other = unread := by
        rw [hRest] at hOther
        exact (List.append_cancel_right hOther).symm
      rcases List.exists_mem_of_ne_nil unread hSome with
        ⟨d, hMem⟩
      have hBoth : 'a' = 'b' := by
        rw [← hA d hMem, hB d (hSame ▸ hMem)]
      exact absurd hBoth (by decide)

end Reader

end GVariant

------------------------------------------------------------
-- One Call
------------------------------------------------------------

namespace GVariant

namespace Reader

variable {text : List Char}
variable {r : Reader}

/- A call keeps the reader in its text, failing or not. -/
theorem standsIn_call
    (hStands : r.StandsIn text)
    (c : Call) :
    (r.call c).2.StandsIn text := by
  cases c with
  | pop => exact hStands.snd_pop
  | readType forceSimple =>
      exact (readType_stays forceSimple hStands).1
  | pack conv value =>
      exact
        (Conversion.pack_stays text conv value 0 r hStands).1

/- A call that has a type as its result took its string. -/
theorem took_of_type?_call
    {c : Call}
    {type : Ty}
    (hType : (r.call c).1.type? = some type) :
    r.Took type.chars (r.call c).2 := by
  cases c with
  | pop => cases hType
  | readType forceSimple =>
      simp only [call] at hType ⊢
      rcases hRead : r.readType forceSimple with ⟨result, r'⟩
      rw [hRead] at hType
      cases result with
      | error e => cases hType
      | ok read =>
          cases hType
          exact (readType_eq_ok_iff.mp hRead).1
  | pack conv value =>
      simp only [call] at hType ⊢
      rcases hPack : conv.packNext value r with ⟨result, r'⟩
      rw [hPack] at hType
      cases result with
      | error e => cases hType
      | ok v =>
          cases hType
          have hRead := Conversion.readType_of_packNext hPack
          exact (readType_eq_ok_iff.mp hRead).1

end Reader

end GVariant

------------------------------------------------------------
-- Any Calls
------------------------------------------------------------

namespace GVariant

namespace Reader

variable {text : List Char}
variable {r : Reader}

/- So do any calls. The induction is on the calls. -/
theorem standsIn_afterCalls
    (hStands : r.StandsIn text)
    (calls : List Call) :
    (r.afterCalls calls).StandsIn text := by
  induction calls generalizing r with
  | nil => exact hStands
  | cons c calls ih => exact ih (standsIn_call hStands c)

/- Any calls take some of the unread characters. -/
theorem exists_taken_afterCalls
    (r : Reader)
    (calls : List Call) :
    ∃ taken, r.Ahead (r.afterCalls calls) taken :=
  exists_taken_of_standsIn fun _ hStands =>
    standsIn_afterCalls hStands calls

/- Characters are taken by popping them one by one. -/
theorem ahead_afterCalls_pops
    {taken rest : List Char}
    (hRest : r.rest = taken ++ rest) :
    let s := r.afterCalls (List.replicate taken.length .pop)
    s.rest = rest ∧
      s.position = r.position + Utf8.size taken := by
  induction taken generalizing r with
  | nil => exact ⟨hRest, rfl⟩
  | cons c taken ih =>
      have hPop :
          (r.call .pop).2 =
            ⟨taken ++ rest, r.position + c.utf8Size,
              r.maxDepth⟩ := by
        simp [call, pop, hRest]
      have hBehind :
          (r.call .pop).2.rest = taken ++ rest := by
        rw [hPop]
      have hTaken := ih hBehind
      intro s
      refine ⟨hTaken.1, hTaken.2.trans ?_⟩
      rw [hPop, Utf8.size_cons, Nat.add_assoc]

end Reader

end GVariant

------------------------------------------------------------
-- Places Between Characters
------------------------------------------------------------

namespace GVariant

namespace Utf8

/- The bytes of a text between two places. -/
def between (text : String) (start stop : Nat) : List UInt8 :=
  ((encode text).take stop).drop start

end Utf8

namespace Reader

/-
  A reader can go on in a signature: its position is within
  the signature and parts no character, and what it has left
  to read are the bytes behind its position.
-/
structure Usable (signature : String) (r : Reader) :
    Prop where
  position_le : r.position ≤ signature.utf8ByteSize
  isValid : (⟨r.position⟩ : String.Pos.Raw).IsValid signature
  remaining_eq :
    Utf8.encode r.remaining =
      (Utf8.encode signature).drop r.position

/-
  A reader moved forward in a signature as popping some
  characters does, and the bytes that it moved over are the
  text that is no longer left to be read.
-/
structure Passes (signature : String) (r r' : Reader) :
    Prop where
  position_le : r.position ≤ r'.position
  pops :
    ∃ count,
      let s := r.afterCalls (List.replicate count .pop)
      s.rest = r'.rest ∧ s.position = r'.position
  between_eq :
    ∃ taken,
      r.rest = taken ++ r'.rest ∧
        Utf8.between signature r.position r'.position =
          Utf8.encode (String.ofList taken)

variable {signature : String}
variable {r r' : Reader}

/- The bytes of a signature before a reader and behind it. -/
theorem StandsIn.exists_encode_eq
    (hStands : r.StandsIn signature.toList) :
    ∃ before,
      Utf8.size before = r.position ∧
        signature = String.ofList before ++ r.remaining ∧
        Utf8.encode signature =
          Utf8.encode (String.ofList before) ++
            Utf8.encode r.remaining := by
  rcases hStands with ⟨before, hText, hPosition⟩
  have hSignature :
      signature = String.ofList (before ++ r.rest) := by
    rw [← hText, String.ofList_toList]
  refine ⟨before, hPosition.symm, ?_, ?_⟩
  · rw [hSignature, String.ofList_append, remaining]
  · rw [hSignature, Utf8.encode_ofList_append, remaining]

/- A reader that stands in a signature can go on in it. -/
theorem StandsIn.usable
    (hStands : r.StandsIn signature.toList) :
    r.Usable signature := by
  rcases hStands.exists_encode_eq with
    ⟨before, hSize, hSignature, hBytes⟩
  have hStart :
      (String.ofList before).utf8ByteSize = r.position := by
    rw [← hSize, Utf8.utf8ByteSize_eq_size,
      String.toList_ofList]
  refine ⟨?_, ?_, ?_⟩
  · rw [hSignature, String.utf8ByteSize_append, hStart]
    exact Nat.le_add_right _ _
  · apply String.Pos.Raw.isValid_iff_exists_append.mpr
    exact
      ⟨_, _, hSignature, String.Pos.Raw.ext hStart.symm⟩
  · have hLength := Utf8.length_encode_ofList before
    rw [hBytes, List.drop_left' (hLength.trans hSize)]

/- A reader ahead of one in a signature went over a text. -/
theorem Ahead.passes
    {taken : List Char}
    (hAhead : r.Ahead r' taken)
    (hStands : r.StandsIn signature.toList) :
    r.Passes signature r' := by
  rcases hStands.exists_encode_eq with
    ⟨before, hSize, _, hBytes⟩
  refine ⟨?_, ?_, taken, hAhead.1, ?_⟩
  · rw [hAhead.2]
    exact Nat.le_add_right _ _
  · refine ⟨taken.length, ?_⟩
    have hPopped := ahead_afterCalls_pops hAhead.1
    exact ⟨hPopped.1, hPopped.2.trans hAhead.2.symm⟩
  · have hBefore := Utf8.length_encode_ofList before
    have hTaken := Utf8.length_encode_ofList taken
    have hStop :
        (Utf8.encode (String.ofList before) ++
            Utf8.encode (String.ofList taken)).length =
          r'.position := by
      rw [List.length_append, hBefore, hTaken, hSize,
        hAhead.2]
    rw [Utf8.between, hBytes, remaining, hAhead.1,
      Utf8.encode_ofList_append, ← List.append_assoc,
      List.take_left' hStop,
      List.drop_left' (hBefore.trans hSize)]

/- A type string is a text of as many bytes. -/
theorem Took.ahead
    {type : Ty}
    (hTook : r.Took type.chars r') :
    r.Ahead r' type.chars := by
  have hSize : Utf8.size type.chars = type.chars.length := by
    rw [← type.utf8ByteSize_signature,
      Utf8.utf8ByteSize_eq_size, Ty.signature,
      String.toList_ofList]
  refine ⟨hTook.1, ?_⟩
  rw [hSize]
  exact congrArg Reader.position hTook.2

/- What was moved over is the text that is unread no more. -/
theorem Passes.between_of_ahead
    {taken : List Char}
    (hPasses : r.Passes signature r')
    (hAhead : r.Ahead r' taken) :
    Utf8.between signature r.position r'.position =
      Utf8.encode (String.ofList taken) := by
  rcases hPasses.between_eq with ⟨other, hRest, hBetween⟩
  have hSame : other = taken :=
    List.append_cancel_right (hRest.symm.trans hAhead.1)
  rw [hBetween, hSame]

/-
  After any calls on a reader of a signature, with any limit
  and whether the calls fail or not, the reader can go on.
  Any further calls move it forward over a text, as popping
  characters would. A call that reads a type or packs a
  value moves it over the type string, by one byte at least.
-/
theorem usable_afterCalls
    (signature : String)
    (limit : Nat)
    (calls : List Call) :
    let r := (ofString signature limit).afterCalls calls
    r.Usable signature ∧
      (∀ more, r.Passes signature (r.afterCalls more)) ∧
      ∀ c type,
        (r.call c).1.type? = some type →
          let r' := (r.call c).2
          r.position < r'.position ∧
            Utf8.between signature r.position r'.position =
              Utf8.encode type.signature := by
  intro r
  have hStands : r.StandsIn signature.toList :=
    standsIn_afterCalls (standsIn_ofString signature limit)
      calls
  refine ⟨hStands.usable, ?_, ?_⟩
  · intro more
    rcases exists_taken_afterCalls r more with
      ⟨taken, hAhead⟩
    exact hAhead.passes hStands
  · intro c type hType r'
    have hTook : r.Took type.chars r' :=
      took_of_type?_call hType
    have hPasses := hTook.ahead.passes hStands
    refine ⟨?_, hPasses.between_of_ahead hTook.ahead⟩
    have hPos := type.length_chars_pos
    have hPosition :
        r'.position = r.position + type.chars.length :=
      congrArg Reader.position hTook.2
    omega

/- Calls of which the second and the third fail half-way. -/
def stumblingCalls : List Call :=
  [.pop, .readType false,
    .pack .standard (.array [.null, .null])]

/-
  Behind a tuple whose second character is no type, and an
  entry without a key, an array is packed. The three calls
  took four characters, which are six bytes.
-/
theorem usable_afterCalls_stumblingCalls :
    let text := "ü(é\x7basß"
    let r := (ofString text 64).afterCalls stumblingCalls
    let c := Call.pack .standard (.array [.string "x"])
    r.position = 6 ∧
      r.Usable text ∧
      (r.call c).1.type? = some .strings ∧
      Utf8.between text 6 (r.call c).2.position =
        Utf8.encode Ty.strings.signature ∧
      r.Passes text (r.afterCalls [c, .pop, .pop]) := by
  have hReader :
      ofString "ü(é\x7basß" 64 =
        ofChars ['ü', '(', 'é', '{', 'a', 's', 'ß'] 64 := by
    rfl
  have hAfter :
      (ofString "ü(é\x7basß" 64).afterCalls stumblingCalls =
        ⟨['a', 's', 'ß'], 6, 64⟩ :=
    congrArg (fun r => r.afterCalls stumblingCalls) hReader
  have hGoesOn :=
    usable_afterCalls "ü(é\x7basß" 64 stumblingCalls
  simp only [hAfter] at hGoesOn ⊢
  rcases hGoesOn with ⟨hUsable, hPasses, hMoved⟩
  have hPacked := hMoved (.pack .standard (.array [.string "x"]))
  exact
    ⟨trivial, hUsable, rfl, (hPacked .strings rfl).2,
      hPasses _⟩

end Reader

end GVariant
