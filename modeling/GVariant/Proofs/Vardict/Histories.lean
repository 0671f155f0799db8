import GVariant.Proofs.Vardict.Boxing

/-
  What a dictionary holds after any calls.

  A dictionary starts empty or from fields, and then goes
  through calls, some of which may fail. Each call changes
  at most one key, so the whole history of calls says what a
  key holds: the value of the last call that stored one, if
  no later call changed the key. The dictionary, its
  look-ups and the variant that it becomes agree with the
  history.

  Key definitions include:
    * `Vardict.Call`
    * `Vardict.call`
    * `Vardict.Call.effect`
    * `Vardict.LastStored`
    * `Vardict.Reaches`
    * `Vardict.Keeps`

  Main declarations:
    * `Vardict.find?_call`
    * `Vardict.Reaches.agrees`
    * `Vardict.keeps_of_reaches`
-/

------------------------------------------------------------
-- Calls
------------------------------------------------------------

namespace GVariant

namespace Vardict

/- A call on a dictionary. -/
inductive Call
  | insertValue (key : String) (value : Variant)
  | insert (key signature : String) (value : Value)
  | remove (key : String)
  | contains (key : String)
  | lookupValue (key : String) (expected : Option Ty)
  | lookup
      (key : String)
      (expected : Option String)
      (deep : Bool)

/- What a call answers if it does not fail. -/
inductive Answer
  | done
  | present (found : Bool)
  | held (found : Option Variant)
  | unpacked (found : Option Value)

/- Make a call: its answer, and the dictionary after it. -/
def call
    (d : Vardict) :
    Call → Except Error Answer × Vardict
| .insertValue key value =>
    (.ok .done, d.insertValue key value)
| .insert key signature value =>
    let (result, d') := d.insert key signature value
    (result.map fun _ => .done, d')
| .remove key =>
    let (found, d') := d.remove key
    (.ok (.held found), d')
| .contains key => (.ok (.present (d.contains key)), d)
| .lookupValue key expected =>
    (.ok (.held (d.lookupValue key expected)), d)
| .lookup key expected deep =>
    ((d.lookup key expected deep).map .unpacked, d)

/- The dictionary after some calls. -/
def afterCalls (d : Vardict) (calls : List Call) : Vardict :=
  calls.foldl (fun d c => (d.call c).2) d

/- The call that stores the string of a field. -/
def storeField (field : String × String) : Call :=
  .insertValue field.1 (.scalar (.text .string field.2))

/-
  A history and the dictionary at its end. The fields that a
  dictionary starts from are part of its history.
-/
inductive Reaches : List Call → Vardict → Prop
| empty :
    Reaches [] empty
| fields
    {fields : List (String × String)}
    {d : Vardict}
    (hFields : ofStringFields fields = .ok d) :
    Reaches (fields.map storeField) d
| call
    {history : List Call}
    {d : Vardict}
    (hReach : Reaches history d)
    (c : Call) :
    Reaches (history ++ [c]) (d.call c).2

end Vardict

end GVariant

------------------------------------------------------------
-- What Histories Say
------------------------------------------------------------

namespace GVariant

namespace Vardict

/-
  The key that a call changes, with what the key holds after
  it. An insertion that cannot be packed changes nothing.
-/
def Call.effect : Call → Option (String × Option Variant)
| .insertValue key value => some (key, some value)
| .insert key signature value =>
    match Conversion.standard.packAs signature value with
    | .error _ => none
    | .ok packed => some (key, some packed)
| .remove key => some (key, none)
| _ => none

/-
  The value that was last stored for a key, if no later call
  changed the key.
-/
def LastStored
    (history : List Call)
    (key : String)
    (value : Variant) : Prop :=
  ∃ before c after,
    history = before ++ c :: after ∧
      c.effect = some (key, some value) ∧
      ∀ later ∈ after, ∀ content,
        later.effect ≠ some (key, content)

theorem not_lastStored_nil
    {key : String}
    {value : Variant} :
    ¬ LastStored [] key value := by
  rintro ⟨before, c, after, hHistory, _⟩
  simp at hHistory

/-
  One more call is the last to store a value for the key, or
  it leaves the key as it was.
-/
theorem lastStored_concat_iff
    {history : List Call}
    {c : Call}
    {key : String}
    {value : Variant} :
    LastStored (history ++ [c]) key value ↔
      c.effect = some (key, some value) ∨
        (∀ content, c.effect ≠ some (key, content)) ∧
          LastStored history key value := by
  constructor
  · rintro ⟨before, stored, after, hHistory, hStored, hLater⟩
    rcases List.eq_nil_or_concat after with
      rfl | ⟨after', last, rfl⟩
    · rcases List.append_inj' hHistory rfl with ⟨_, hLast⟩
      cases hLast
      exact .inl hStored
    · have hEnds :
          history ++ [c] =
            (before ++ stored :: after') ++ [last] := by
        simpa using hHistory
      rcases List.append_inj' hEnds rfl with ⟨rfl, hLast⟩
      cases hLast
      refine .inr ⟨hLater c (by simp), ?_⟩
      exact
        ⟨before, stored, after', rfl, hStored,
          fun later hMem =>
            hLater later (by simp [hMem])⟩
  · rintro (hStored | ⟨hKept, hLast⟩)
    · exact ⟨history, c, [], rfl, hStored, by simp⟩
    · rcases hLast with
        ⟨before, stored, after, rfl, hStored, hLater⟩
      refine
        ⟨before, stored, after ++ [c], by simp, hStored, ?_⟩
      intro later hMem
      rcases List.mem_append.mp hMem with hMem | hMem
      · exact hLater later hMem
      · rw [List.mem_singleton.mp hMem]
        exact hKept

end Vardict

end GVariant

------------------------------------------------------------
-- One Call
------------------------------------------------------------

namespace GVariant

namespace Vardict

/- A call sets the key that it changes, and no other. -/
theorem find?_call
    (d : Vardict)
    (c : Call)
    (key : String) :
    Entries.find? key (d.call c).2.entries =
      match c.effect with
      | none => Entries.find? key d.entries
      | some (changed, content) =>
          if key = changed then
            content
          else
            Entries.find? key d.entries := by
  cases c with
  | insertValue changed value =>
      exact Entries.find?_insert changed key value d.entries
  | insert changed signature value =>
      simp only [call, insert, Call.effect]
      cases Conversion.standard.packAs signature value with
      | error e => rfl
      | ok packed =>
          exact
            Entries.find?_insert changed key packed d.entries
  | remove changed =>
      exact Entries.find?_erase changed key d.entries
  | contains _ => rfl
  | lookupValue _ _ => rfl
  | lookup _ _ _ => rfl

/- An insertion that fails leaves the dictionary as it was. -/
theorem insert_of_error
    {d : Vardict}
    {key signature : String}
    {value : Value}
    {e : Error}
    (hFailed : (d.insert key signature value).1 = .error e) :
    (d.insert key signature value).2 = d := by
  unfold insert at hFailed ⊢
  split
  · rfl
  · rename_i packed hPack
    rw [hPack] at hFailed
    cases hFailed

/- A call that fails leaves the dictionary as it was. -/
theorem call_of_error
    {d : Vardict}
    {c : Call}
    {e : Error}
    (hFailed : (d.call c).1 = .error e) :
    (d.call c).2 = d := by
  cases c with
  | insertValue _ _ => cases hFailed
  | insert key signature value =>
      simp only [call] at hFailed ⊢
      cases hResult : (d.insert key signature value).1 with
      | error e => exact insert_of_error hResult
      | ok _ =>
          rw [hResult] at hFailed
          cases hFailed
  | remove _ => cases hFailed
  | contains _ => rfl
  | lookupValue _ _ => rfl
  | lookup _ _ _ => rfl

end Vardict

end GVariant

------------------------------------------------------------
-- Whole Histories
------------------------------------------------------------

namespace GVariant

namespace Vardict

variable {d : Vardict}
variable {history : List Call}

/- What is found in a dictionary is what a history says. -/
def Agrees (d : Vardict) (history : List Call) : Prop :=
  ∀ key value,
    Entries.find? key d.entries = some value ↔
      LastStored history key value

theorem agrees_empty : empty.Agrees [] := by
  intro key value
  refine iff_of_false ?_ not_lastStored_nil
  intro hFound
  cases hFound

/- One more call keeps the agreement. -/
theorem Agrees.call
    (hAgrees : d.Agrees history)
    (c : Call) :
    (d.call c).2.Agrees (history ++ [c]) := by
  intro key value
  rw [find?_call, lastStored_concat_iff]
  rcases hEffect : c.effect with _ | ⟨changed, content⟩
  · simp [hAgrees key value]
  · by_cases hKey : key = changed
    · simp [hKey]
    · have hOther : changed ≠ key := fun hSame => hKey hSame.symm
      simp [hKey, hOther, hAgrees key value]

theorem Agrees.afterCalls
    (hAgrees : d.Agrees history)
    (calls : List Call) :
    (d.afterCalls calls).Agrees (history ++ calls) := by
  induction calls generalizing d history with
  | nil =>
      rw [List.append_nil]
      exact hAgrees
  | cons c calls ih =>
      have hAfter := ih (hAgrees.call c)
      rwa [List.append_assoc] at hAfter

/- Fields are stored one after another, if all are strings. -/
theorem afterCalls_of_ofStringFields
    {fields : List (String × String)}
    (hFields : ofStringFields fields = .ok d) :
    empty.afterCalls (fields.map storeField) = d := by
  unfold ofStringFields at hFields
  -- The fold goes on from any dictionary.
  generalize empty = start at hFields ⊢
  induction fields generalizing start with
  | nil =>
      cases hFields
      rfl
  | cons field fields ih =>
      rw [List.foldlM_cons] at hFields
      cases hString : Variant.string field.2 with
      | error e =>
          rw [hString] at hFields
          cases hFields
      | ok value =>
          have hText :
              Variant.text .string field.2 = .ok value :=
            hString
          rcases Variant.text_eq_ok_iff.mp hText with ⟨_, rfl⟩
          rw [hString] at hFields
          exact ih _ hFields

/-
  Whatever the calls were, the dictionary at the end of a
  history agrees with it.
-/
theorem Reaches.agrees
    (hReach : Reaches history d) :
    d.Agrees history := by
  induction hReach with
  | empty => exact agrees_empty
  | @fields fields d hFields =>
      have hAfter :=
        agrees_empty.afterCalls (fields.map storeField)
      rwa [List.nil_append,
        afterCalls_of_ofStringFields hFields] at hAfter
  | call _ c ih => exact ih.call c

theorem Reaches.afterCalls
    (hReach : Reaches history d)
    (calls : List Call) :
    Reaches (history ++ calls) (d.afterCalls calls) := by
  induction calls generalizing d history with
  | nil =>
      rw [List.append_nil]
      exact hReach
  | cons c calls ih =>
      have hAfter := ih (hReach.call c)
      rwa [List.append_assoc] at hAfter

/-
  A dictionary that keeps a history: its entries, its
  look-ups and the variant that it becomes are what the
  history says, and failures change nothing.
-/
structure Keeps (d : Vardict) (history : List Call) :
    Prop where
  mem_entries :
    ∀ key value,
      (key, value) ∈ d.entries ↔ LastStored history key value
  lookupValue_any :
    ∀ key value,
      d.lookupValue key none = some value ↔
        LastStored history key value
  lookupValue_typed :
    ∀ key type value,
      d.lookupValue key (some type) = some value ↔
        LastStored history key value ∧ value.type = type
  unchanged :
    ∀ c e, (d.call c).1 = .error e → (d.call c).2 = d
  toVariant_fails :
    (∃ e, d.toVariant = .error e) ↔
      ∃ key value,
        LastStored history key value ∧ '\x00' ∈ key.toList
  toVariant_holds :
    ∀ v,
      d.toVariant = .ok v →
        v.type = .vardict ∧
          ∃ entries : List (String × Variant),
            v =
                .arrayOf .vardictEntry
                  (entries.map boxedPair) ∧
              Entries.Sorted entries ∧
              ∀ key value,
                (key, value) ∈ entries ↔
                  LastStored history key value
  ofVariant_toVariant :
    ∀ v, d.toVariant = .ok v → ofVariant v = .ok d

/-
  After any calls, from the empty dictionary or from fields,
  a dictionary keeps its history: each key holds what was
  last stored for it and not removed since, the dictionary
  becomes a variant exactly if no key has a NUL, and it is
  read back from the variant.
-/
theorem keeps_of_reaches
    (hReach : Reaches history d) :
    d.Keeps history := by
  have hAgrees := hReach.agrees
  have hMem :
      ∀ key value,
        (key, value) ∈ d.entries ↔
          LastStored history key value := by
    intro key value
    rw [← Entries.find?_eq_some_iff d.sorted]
    exact hAgrees key value
  refine ⟨hMem, ?_, ?_, fun _ _ => call_of_error, ?_, ?_, ?_⟩
  · intro key value
    rw [← hAgrees key value]
    simp [lookupValue]
  · intro key type value
    rw [← hAgrees key value]
    simp [lookupValue, Option.filter_eq_some_iff]
  · rw [exists_error_of_toVariant_iff]
    constructor
    · rintro ⟨⟨key, value⟩, hEntry, hNul⟩
      exact ⟨key, value, (hMem key value).mp hEntry, hNul⟩
    · rintro ⟨key, value, hLast, hNul⟩
      exact ⟨(key, value), (hMem key value).mpr hLast, hNul⟩
  · intro v hEnd
    rcases toVariant_eq_ok_iff.mp hEnd with ⟨_, rfl⟩
    exact ⟨rfl, d.entries, rfl, d.sorted, hMem⟩
  · intro v hEnd
    exact ofVariant_of_toVariant hEnd

/-
  A key that is stored twice and then not packed, one that
  is removed, and a look-up by a type that is not parsed.
-/
def mixedCalls : List Call :=
  [.insertValue "a" (Variant.byte 1),
    .insert "a" "y" (.int 300),
    .remove "b",
    .insert "c" "i" (.int 7),
    .lookup "c" (some "(i") false]

theorem keeps_of_reaches_mixedCalls :
    ∃ d : Vardict,
      Reaches
          ([("b", "x"), ("a", "y")].map storeField ++
            mixedCalls)
          d ∧
        d.Keeps
            ([("b", "x"), ("a", "y")].map storeField ++
              mixedCalls) ∧
        d.entries =
          [("a", Variant.byte 1),
            ("c", Variant.int .int32 7)] := by
  let start : Vardict :=
    { entries :=
        [("a", .scalar (.text .string "y")),
          ("b", .scalar (.text .string "x"))]
      sorted := by
        unfold Entries.Sorted
        decide }
  have hFields :
      ofStringFields [("b", "x"), ("a", "y")] = .ok start := by
    rfl
  have hReach :
      Reaches
        ([("b", "x"), ("a", "y")].map storeField ++ mixedCalls)
        (start.afterCalls mixedCalls) :=
    (Reaches.fields hFields).afterCalls mixedCalls
  exact ⟨_, hReach, keeps_of_reaches hReach, by rfl⟩

end Vardict

end GVariant
