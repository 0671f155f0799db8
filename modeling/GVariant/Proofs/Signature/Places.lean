import GVariant.Proofs.Signature.Reading
import GVariant.Proofs.Text.Utf8

/-
  Where the failures of a reader point to.

  Some failures name a character and its place. A reader
  stands in a text if the unread characters are the end of
  the text and its position is the number of bytes before
  them. A step keeps the reader in the text, also when it
  fails, and a failure to read a type names a character that
  stands in the text at the place it names.

  Key definitions include:
    * `Error.place?`
    * `Error.NamesIn`
    * `Reader.StandsIn`
    * `Step.Stays`

  Main declarations:
    * `Reader.standsIn_ofString`
    * `Reader.StandsIn.of_pop`
    * `Reader.read_stays`
    * `Reader.readType_stays`
-/

------------------------------------------------------------
-- Named Characters
------------------------------------------------------------

namespace GVariant

namespace Error

/- The character and the place that a failure names. -/
def place? : Error → Option (Char × Nat)
| .unexpectedCharacter c position => some (c, position)
| .simpleTypeExpected c position => some (c, position)
| _ => none

/- A failure names no character but one that is there. -/
def NamesIn (text : List Char) (e : Error) : Prop :=
  ∀ c position,
    e.place? = some (c, position) →
      HasCharAt text c position

/- A failure that names no character. -/
theorem namesIn_of_place?_eq_none
    {e : Error}
    (hNone : e.place? = none)
    (text : List Char) :
    e.NamesIn text := by
  intro c position hPlace
  rw [hNone] at hPlace
  cases hPlace

theorem namesIn_unexpectedCharacter
    {text : List Char}
    {c : Char}
    {position : Nat}
    (hChar : HasCharAt text c position) :
    (unexpectedCharacter c position).NamesIn text := by
  intro c' position' hPlace
  cases hPlace
  exact hChar

theorem namesIn_simpleTypeExpected
    {text : List Char}
    {c : Char}
    {position : Nat}
    (hChar : HasCharAt text c position) :
    (simpleTypeExpected c position).NamesIn text := by
  intro c' position' hPlace
  cases hPlace
  exact hChar

end Error

end GVariant

------------------------------------------------------------
-- Readers In A Text
------------------------------------------------------------

namespace GVariant

namespace Reader

/-
  A reader of a text, at any place in it and with any limit.
-/
def StandsIn (text : List Char) (r : Reader) : Prop :=
  ∃ before,
    text = before ++ r.rest ∧ r.position = Utf8.size before

/- A reader starts at the first character. -/
theorem standsIn_ofString
    (signature : String)
    (maxDepth : Nat) :
    (ofString signature maxDepth).StandsIn signature.toList :=
  ⟨[], rfl, rfl⟩

namespace StandsIn

variable {text : List Char}
variable {r r' : Reader}

/- The next character stands at the position. -/
theorem hasCharAt
    {c : Char}
    {rest : List Char}
    (hStands : r.StandsIn text)
    (hRest : r.rest = c :: rest) :
    HasCharAt text c r.position := by
  rcases hStands with ⟨before, hText, hPosition⟩
  exact ⟨before, rest, hRest ▸ hText, hPosition.symm⟩

/- Behind the next character, the reader is in the text. -/
theorem behind
    {c : Char}
    {rest : List Char}
    (hStands : r.StandsIn text)
    (hRest : r.rest = c :: rest)
    (limit : Nat) :
    (⟨rest, r.position + c.utf8Size, limit⟩ :
      Reader).StandsIn text := by
  rcases hStands with ⟨before, hText, hPosition⟩
  refine ⟨before ++ [c], ?_, ?_⟩
  · rw [hText, hRest, List.append_assoc]
    rfl
  · simp [hPosition]

/- The character that is popped stands at the position. -/
theorem of_pop
    {c : Char}
    (hStands : r.StandsIn text)
    (hPop : r.pop = (some c, r')) :
    HasCharAt text c r.position ∧ r'.StandsIn text := by
  cases hRest : r.rest with
  | nil =>
      rw [pop_nil hRest] at hPop
      cases hPop
  | cons c' rest =>
      simp only [pop, hRest, Prod.mk.injEq,
        Option.some.injEq] at hPop
      rcases hPop with ⟨rfl, rfl⟩
      exact
        ⟨hStands.hasCharAt hRest, hStands.behind hRest _⟩

/- Popping keeps the reader in the text, also at its end. -/
theorem snd_pop
    (hStands : r.StandsIn text) :
    r.pop.2.StandsIn text := by
  rcases hPop : r.pop with ⟨found, s⟩
  cases found with
  | none =>
      cases hRest : r.rest with
      | nil =>
          rw [pop_nil hRest] at hPop
          cases hPop
          exact hStands
      | cons c rest => simp [pop, hRest] at hPop
  | some c => exact (hStands.of_pop hPop).2

end StandsIn

end Reader

end GVariant

------------------------------------------------------------
-- Steps In A Text
------------------------------------------------------------

namespace GVariant

namespace Step

variable {α : Type}

/-
  A step leaves the reader in the text, and fails, if it
  does, for a cause.
-/
def Stays
    (text : List Char)
    (cause : Error → Prop)
    (step : Step α) : Prop :=
  step.2.StandsIn text ∧
    ∀ e, step.1 = .error e → cause e

variable {text : List Char}
variable {cause : Error → Prop}
variable {step : Step α}

namespace Stays

theorem error
    {e : Error}
    {r : Reader}
    (hStands : r.StandsIn text)
    (hCause : cause e) :
    Stays text cause ((.error e, r) : Step α) := by
  refine ⟨hStands, ?_⟩
  intro e' hError
  cases hError
  exact hCause

theorem ok
    (x : α)
    {r : Reader}
    (hStands : r.StandsIn text) :
    Stays text cause (.ok x, r) := by
  refine ⟨hStands, ?_⟩
  intro e hError
  cases hError

/- What is done with a step, whether it fails or not. -/
@[elab_as_elim]
theorem elim
    {motive : Step α → Prop}
    (hStays : step.Stays text cause)
    (error :
      ∀ e r, r.StandsIn text → cause e → motive (.error e, r))
    (ok :
      ∀ x r,
        step = (.ok x, r) →
          r.StandsIn text → motive (.ok x, r)) :
    motive step := by
  rcases step with ⟨result, r⟩
  cases result with
  | error e => exact error e r hStays.1 (hStays.2 e rfl)
  | ok x => exact ok x r rfl hStays.1

/- A failure that names no character. -/
theorem unnamed
    {e : Error}
    {r : Reader}
    (hStands : r.StandsIn text)
    (hNone : e.place? = none) :
    Stays text (·.NamesIn text)
      ((.error e, r) : Step α) :=
  .error hStands (Error.namesIn_of_place?_eq_none hNone text)

/- A weaker cause. -/
theorem mono
    {cause' : Error → Prop}
    (hStays : step.Stays text cause)
    (hCause : ∀ e, cause e → cause' e) :
    step.Stays text cause' :=
  ⟨hStays.1, fun e hError => hCause e (hStays.2 e hError)⟩

end Stays

end Step

end GVariant

------------------------------------------------------------
-- Reading Types
------------------------------------------------------------

namespace GVariant

namespace Reader

variable {text : List Char}

theorem readBasic_stays
    (levels : Nat)
    {r : Reader}
    (hStands : r.StandsIn text) :
    (readBasic levels r).Stays text (·.NamesIn text) := by
  unfold readBasic
  split
  · exact .unnamed hStands rfl
  · have hPopped := hStands.snd_pop
    split
    · rename_i r' hPop
      rw [hPop] at hPopped
      exact .unnamed hPopped rfl
    · rename_i c r' hPop
      rcases hStands.of_pop hPop with ⟨hChar, hBehind⟩
      split
      · exact .ok _ hBehind
      · exact
          .error hBehind
            (Error.namesIn_simpleTypeExpected hChar)

theorem closeEntry_stays
    {r : Reader}
    (hStands : r.StandsIn text) :
    r.closeEntry.Stays text (·.NamesIn text) := by
  have hPopped := hStands.snd_pop
  unfold closeEntry
  split
  · rename_i r' hPop
    rw [hPop] at hPopped
    exact .ok _ hPopped
  · rename_i found r' _ hPop
    rw [hPop] at hPopped
    exact .unnamed hPopped rfl

/- Members are read in the text if each single one is. -/
theorem readMembers_stays
    {readMember : Reader → Step Ty}
    (hMember :
      ∀ r : Reader,
        r.StandsIn text →
          (readMember r).Stays text (·.NamesIn text))
    (rounds : Nat)
    {r : Reader}
    (hStands : r.StandsIn text) :
    (readMembers readMember rounds r).Stays text
      (·.NamesIn text) := by
  induction rounds generalizing r with
  | zero =>
      exact .unnamed hStands rfl
  | succ rounds ih =>
      rw [readMembers]
      split
      · exact .unnamed hStands rfl
      · exact .ok _ hStands.snd_pop
      · refine
          (hMember r hStands).elim
            (fun _ _ => .error) ?_
        intro member r' _ hBehind
        dsimp only
        exact
          (ih hBehind).elim
            (fun _ _ => .error)
            fun _ _ _ => .ok _

/-
  A type is read in the text. The induction is on the levels
  that are left.
-/
theorem read_stays
    (levels : Nat)
    {r : Reader}
    (hStands : r.StandsIn text) :
    (read levels r).Stays text (·.NamesIn text) := by
  induction levels generalizing r with
  | zero =>
      exact .unnamed hStands rfl
  | succ levels ih =>
      rw [read]
      have hPopped := hStands.snd_pop
      rcases hPop : r.pop with ⟨found, r'⟩
      rw [hPop] at hPopped
      cases found with
      | none =>
          exact .unnamed hPopped rfl
      | some c =>
          have hChar := (hStands.of_pop hPop).1
          dsimp only
          rcases TypeClass.ofChar? c with _ | cls
          · exact
              .error hPopped
                (Error.namesIn_unexpectedCharacter hChar)
          · cases cls with
            | basic type => exact .ok _ hPopped
            | «variant» => exact .ok _ hPopped
            | maybe =>
                dsimp only
                exact
                  (ih hPopped).elim
                    (fun _ _ => .error)
                    fun _ _ _ => .ok _
            | array =>
                dsimp only
                exact
                  (ih hPopped).elim
                    (fun _ _ => .error)
                    fun _ _ _ => .ok _
            | tuple =>
                have hMembers :=
                  readMembers_stays (fun _ => ih)
                    r'.rest.length hPopped
                dsimp only
                exact
                  hMembers.elim
                    (fun _ _ => .error)
                    fun _ _ _ => .ok _
            | dictEntry =>
                dsimp only
                refine
                  (readBasic_stays levels hPopped).elim
                    (fun _ _ => .error)
                    ?_
                intro key s _ hKey
                dsimp only
                refine
                  (ih hKey).elim
                    (fun _ _ => .error)
                    ?_
                intro value s' _ hValue
                dsimp only
                exact
                  (closeEntry_stays hValue).elim
                    (fun _ _ => .error)
                    fun _ _ _ => .ok _

/- So is a type at a depth. -/
theorem readAt_stays
    {r : Reader}
    (hStands : r.StandsIn text)
    (depth : Nat) :
    (r.readAt depth).Stays text (·.NamesIn text) :=
  read_stays (r.levelsAt depth) hStands

/- So is a basic type where only such a type may be read. -/
theorem readType_stays
    (forceSimple : Bool)
    {r : Reader}
    (hStands : r.StandsIn text) :
    (r.readType forceSimple).Stays text (·.NamesIn text) := by
  cases forceSimple with
  | false => exact read_stays _ hStands
  | true =>
      rw [readType, if_pos rfl]
      exact
        (readBasic_stays (r.levelsAt 0) hStands).elim
          (fun _ _ => .error)
          fun _ _ _ => .ok _

end Reader

end GVariant
