import GVariant.Proofs.Signature.Reading

/-
  What a larger limit of nesting changes for a reader.

  An operation that has only so many levels of nesting left
  either stops there, with an error that names the limit, or
  it does the same as with more levels. This is a relation
  between two results that is kept by everything that is
  done with them one after another. A reader also ends at
  the same position, whether it takes a type or fails.

  Key definitions include:
    * `CutOff`
    * `Reader.withLimit`
    * `Step.CutOff`

  Main declarations:
    * `CutOff.mapM`
    * `CutOff.foldlM`
    * `Reader.read_cutOff`
    * `Reader.readType_cutOff`
    * `Reader.readWhole_cutOff`
-/

------------------------------------------------------------
-- Results That Are Cut Off
------------------------------------------------------------

namespace GVariant

variable {α β : Type}

/-
  A result under a limit is cut off there, or is the result
  with more levels.
-/
def CutOff
    (limit : Nat)
    (result more : Except Error α) : Prop :=
  result = .error (.maxNestingExceeded limit) ∨
    more = result

namespace CutOff

variable {limit : Nat}
variable {result more : Except Error α}

theorem refl
    (limit : Nat)
    (result : Except Error α) :
    CutOff limit result result :=
  .inr rfl

/-
  What is done with a result under a limit and with the one
  with more levels: the first is cut off, or both are the
  same error or the same value.
-/
@[elab_as_elim]
theorem elim
    {motive : Except Error α → Except Error α → Prop}
    (hCut : CutOff limit result more)
    (stopped :
      motive (.error (.maxNestingExceeded limit)) more)
    (error : ∀ e, motive (.error e) (.error e))
    (ok : ∀ x, motive (.ok x) (.ok x)) :
    motive result more := by
  rcases hCut with hStopped | hSame
  · rw [hStopped]
    exact stopped
  · rw [hSame]
    cases result with
    | error e => exact error e
    | ok x => exact ok x

/- What is reached below the limit is reached with more. -/
theorem eq_of_ok
    {x : α}
    (hCut : CutOff limit result more)
    (hResult : result = .ok x) :
    more = .ok x := by
  rcases hCut with hStopped | hSame
  · rw [hStopped] at hResult
    cases hResult
  · rw [hSame, hResult]

/- Any result but that of the limit is the one with more. -/
theorem eq_of_ne
    (hCut : CutOff limit result more)
    (hInside :
      result ≠ .error (.maxNestingExceeded limit)) :
    more = result :=
  hCut.resolve_left hInside

/- A list is mapped up to the first item that is cut off. -/
theorem mapM
    {f g : α → Except Error β}
    {items : List α}
    (hItems : ∀ item ∈ items, CutOff limit (f item) (g item)) :
    CutOff limit (items.mapM f) (items.mapM g) := by
  induction items with
  | nil => exact .refl limit _
  | cons item items ih =>
      rcases List.forall_mem_cons.mp hItems with
        ⟨hFirst, hOthers⟩
      rw [List.mapM_cons, List.mapM_cons]
      refine hFirst.elim (.inl rfl) (fun _ => .inr rfl) ?_
      intro first
      exact
        (ih hOthers).elim (.inl rfl) (fun _ => .inr rfl)
          fun _ => .inr rfl

/- A fold goes on up to the first step that is cut off. -/
theorem foldlM
    {f g : β → α → Except Error β}
    {items : List α}
    (hItems :
      ∀ state, ∀ item ∈ items,
        CutOff limit (f state item) (g state item))
    (state : β) :
    CutOff limit (items.foldlM f state)
      (items.foldlM g state) := by
  induction items generalizing state with
  | nil => exact .refl limit _
  | cons item items ih =>
      have hOthers :
          ∀ state, ∀ other ∈ items,
            CutOff limit (f state other) (g state other) :=
        fun state other hMem =>
          hItems state other (List.mem_cons_of_mem item hMem)
      rw [List.foldlM_cons, List.foldlM_cons]
      have hFirst := hItems state item List.mem_cons_self
      exact
        hFirst.elim (.inl rfl) (fun _ => .inr rfl)
          fun state' => ih hOthers state'

end CutOff

end GVariant

------------------------------------------------------------
-- Readers With Another Limit
------------------------------------------------------------

namespace GVariant

namespace Reader

/- A reader at the same place with another limit. -/
def withLimit (r : Reader) (limit : Nat) : Reader :=
  { r with maxDepth := limit }

theorem pop_withLimit
    (r : Reader)
    (limit : Nat) :
    (r.withLimit limit).pop =
      (r.pop.1, r.pop.2.withLimit limit) := by
  cases hRest : r.rest <;> simp [pop, withLimit, hRest]

@[simp] theorem peek?_withLimit
    (r : Reader)
    (limit : Nat) :
    (r.withLimit limit).peek? = r.peek? := rfl

/- Popping keeps the limit. -/
theorem maxDepth_pop
    (r : Reader) :
    r.pop.2.maxDepth = r.maxDepth := by
  cases hRest : r.rest <;> simp [pop, hRest]

end Reader

namespace Step

variable {α : Type}

/- The same step of a reader with another limit. -/
def withLimit (step : Step α) (limit : Nat) : Step α :=
  (step.1, step.2.withLimit limit)

/-
  A step of a reader is cut off at its limit, or a reader
  with another limit does the same step to the same place.
-/
def CutOff
    (limit limit' : Nat)
    (step more : Step α) : Prop :=
  step.1 = .error (.maxNestingExceeded limit) ∨
    more = step.withLimit limit'

/-
  What is done with two such steps: the first is cut off, or
  both end at the same place, with the same error or the
  same value.
-/
@[elab_as_elim]
theorem CutOff.elim
    {limit limit' : Nat}
    {step more : Step α}
    {motive : Step α → Step α → Prop}
    (hCut : step.CutOff limit limit' more)
    (stopped :
      ∀ r, motive (.error (.maxNestingExceeded limit), r) more)
    (error :
      ∀ e r,
        motive (.error e, r) (.error e, r.withLimit limit'))
    (ok :
      ∀ x r,
        step = (.ok x, r) →
          motive (.ok x, r) (.ok x, r.withLimit limit')) :
    motive step more := by
  rcases step with ⟨result, r⟩
  rcases hCut with hStopped | hSame
  · cases hStopped
    exact stopped r
  · subst hSame
    cases result with
    | error e => exact error e r
    | ok x => exact ok x r rfl

end Step

end GVariant

------------------------------------------------------------
-- Reading With More Levels
------------------------------------------------------------

namespace GVariant

namespace Reader

variable {limit limit' levels levels' : Nat}
variable {r : Reader}

theorem readBasic_cutOff
    (hLevels : levels ≤ levels')
    (hLimit : r.maxDepth = limit) :
    (readBasic levels r).CutOff limit limit'
      (readBasic levels' (r.withLimit limit')) := by
  by_cases hNone : levels = 0
  · left
    rw [readBasic, if_pos hNone, nestingError, hLimit]
  · right
    have hSome : levels' ≠ 0 := by
      omega
    rw [readBasic, readBasic, if_neg hNone, if_neg hSome,
      pop_withLimit]
    rcases r.pop with ⟨found, r'⟩
    cases found with
    | none => rfl
    | some c =>
        simp only
        cases TypeClass.ofChar? c with
        | none => rfl
        | some cls => cases cls <;> rfl

theorem closeEntry_withLimit
    (r : Reader)
    (limit' : Nat) :
    (r.withLimit limit').closeEntry =
      r.closeEntry.withLimit limit' := by
  unfold closeEntry
  rw [pop_withLimit]
  rcases r.pop with ⟨found, r'⟩
  cases found with
  | none => rfl
  | some c =>
      by_cases hBrace : c = '}'
      · subst hBrace
        rfl
      · simp [hBrace, Step.withLimit]

/- Members are read alike if each single member is. -/
theorem readMembers_cutOff
    {readMember readMore : Reader → Step Ty}
    (hKeep :
      ∀ r r' type,
        readMember r = (.ok type, r') →
          r'.maxDepth = r.maxDepth)
    (hMember :
      ∀ r,
        r.maxDepth = limit →
          (readMember r).CutOff limit limit'
            (readMore (r.withLimit limit')))
    (rounds : Nat)
    (hLimit : r.maxDepth = limit) :
    (readMembers readMember rounds r).CutOff limit limit'
      (readMembers readMore rounds (r.withLimit limit')) := by
  induction rounds generalizing r with
  | zero => exact .inr rfl
  | succ rounds ih =>
      rw [readMembers, readMembers, peek?_withLimit,
        pop_withLimit]
      split
      · exact .inr rfl
      · exact .inr rfl
      · refine
          (hMember r hLimit).elim (fun _ => .inl rfl)
            (fun _ _ => .inr rfl) ?_
        intro member r' hRead
        have hAfter : r'.maxDepth = limit := by
          rw [hKeep r r' member hRead, hLimit]
        dsimp only
        exact
          (ih hAfter).elim (fun _ => .inl rfl)
            (fun _ _ => .inr rfl) fun _ _ _ => .inr rfl

/-
  A type is read alike with more levels, unless the reader
  is cut off. The induction is on the levels of the smaller
  limit.
-/
theorem read_cutOff
    (hLevels : levels ≤ levels')
    (hLimit : r.maxDepth = limit) :
    (read levels r).CutOff limit limit'
      (read levels' (r.withLimit limit')) := by
  induction levels generalizing levels' r with
  | zero =>
      left
      rw [read, nestingError, hLimit]
  | succ levels ih =>
      cases levels' with
      | zero => cases hLevels
      | succ levels' =>
          have hLess := Nat.le_of_succ_le_succ hLevels
          have hKeep :
              ∀ s s' type,
                read levels s = (.ok type, s') →
                  s'.maxDepth = s.maxDepth :=
            fun _ _ _ hRead =>
              (took_of_read hRead).1.maxDepth_eq
          have hKept := (maxDepth_pop r).trans hLimit
          rw [read, read, pop_withLimit]
          rcases hPop : r.pop with ⟨found, r'⟩
          have hPopped : r'.maxDepth = limit := by
            rwa [hPop] at hKept
          cases found with
          | none => exact .inr rfl
          | some c =>
              dsimp only
              rcases TypeClass.ofChar? c with _ | cls
              · exact .inr rfl
              · cases cls with
                | basic type => exact .inr rfl
                | «variant» => exact .inr rfl
                | maybe =>
                    dsimp only
                    exact
                      (ih hLess hPopped).elim
                        (fun _ => .inl rfl)
                        (fun _ _ => .inr rfl)
                        fun _ _ _ => .inr rfl
                | array =>
                    dsimp only
                    exact
                      (ih hLess hPopped).elim
                        (fun _ => .inl rfl)
                        (fun _ _ => .inr rfl)
                        fun _ _ _ => .inr rfl
                | tuple =>
                    dsimp only
                    have hMembers :=
                      readMembers_cutOff hKeep
                        (fun s hSame => ih hLess hSame)
                        r'.rest.length hPopped
                    exact
                      hMembers.elim (fun _ => .inl rfl)
                        (fun _ _ => .inr rfl)
                        fun _ _ _ => .inr rfl
                | dictEntry =>
                    dsimp only
                    refine
                      (readBasic_cutOff hLess hPopped).elim
                        (fun _ => .inl rfl)
                        (fun _ _ => .inr rfl) ?_
                    intro key s hKey
                    have hBehind : s.maxDepth = limit := by
                      rw [(took_of_readBasic hKey).maxDepth_eq]
                      exact hPopped
                    dsimp only
                    refine
                      (ih hLess hBehind).elim
                        (fun _ => .inl rfl)
                        (fun _ _ => .inr rfl) ?_
                    intro value s' _
                    dsimp only
                    rw [closeEntry_withLimit]
                    rcases s'.closeEntry with ⟨closed, s''⟩
                    cases closed <;> exact .inr rfl

/-
  A type is read alike under a larger limit, unless the
  reader is cut off.
-/
theorem readType_cutOff
    (r : Reader)
    (forceSimple : Bool)
    {limit' : Nat}
    (hLimits : r.maxDepth ≤ limit') :
    (r.readType forceSimple).CutOff r.maxDepth limit'
      ((r.withLimit limit').readType forceSimple) := by
  have hLevels :
      r.levelsAt 0 ≤ (r.withLimit limit').levelsAt 0 :=
    Nat.succ_le_succ hLimits
  cases forceSimple with
  | false => exact read_cutOff hLevels rfl
  | true =>
      have hBasic :
          (readBasic (r.levelsAt 0) r).CutOff r.maxDepth limit'
            (readBasic ((r.withLimit limit').levelsAt 0)
              (r.withLimit limit')) :=
        readBasic_cutOff hLevels rfl
      simp only [readType, if_true]
      exact
        hBasic.elim (fun _ => .inl rfl)
          (fun _ _ => .inr rfl) fun _ _ _ => .inr rfl

/- The same for a text that is read as a whole. -/
theorem readWhole_cutOff
    (r : Reader)
    {limit' : Nat}
    (hLimits : r.maxDepth ≤ limit') :
    CutOff r.maxDepth r.readWhole
      (r.withLimit limit').readWhole := by
  unfold readWhole
  refine
    (readType_cutOff r false hLimits).elim
      (fun _ => .inl rfl) (fun _ _ => .inr rfl) ?_
  intro type r' _
  exact .inr rfl

end Reader

end GVariant
