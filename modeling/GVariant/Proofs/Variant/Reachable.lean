import GVariant.Vardict
import GVariant.Proofs.Binary.Soundness
import GVariant.Proofs.Conversion.Packed

/-
  Every variant that can be obtained is well-formed.

  Variants are made by the constructors, by packing, by
  decoding, by swapping bytes and by ending a dictionary,
  and are taken out of other variants as children. All of
  these keep variants well-formed.

  Key definitions include:
    * `Variant.Reachable`

  Main declarations:
    * `Vardict.wellFormed_of_toVariant`
    * `Variant.Reachable.wellFormed`
-/

------------------------------------------------------------
-- Ending A Dictionary
------------------------------------------------------------

namespace GVariant

namespace Vardict

/- The entries of a dictionary are boxed well-formed. -/
theorem wellFormed_of_boxedEntry
    {entry : String × Variant}
    {v : Variant}
    (hValue : entry.2.WellFormed)
    (hBox : boxedEntry entry = .ok v) :
    v.WellFormed := by
  unfold boxedEntry at hBox
  split at hBox
  · cases hBox
  · rename_i key hKey
    have hText : Variant.text .string entry.1 = .ok key := hKey
    rcases Variant.text_eq_ok_iff.mp hText with
      ⟨hAccepts, rfl⟩
    cases hBox
    exact ⟨hAccepts, hValue⟩

/- A dictionary of well-formed values is well-formed. -/
theorem wellFormed_of_toVariant
    {d : Vardict}
    {v : Variant}
    (hValues : ∀ entry ∈ d.entries, entry.2.WellFormed)
    (hEnd : d.toVariant = .ok v) :
    v.WellFormed := by
  have hEach :
      ∀ (entries : List (String × Variant))
        (children : List Variant),
        (∀ entry ∈ entries, entry.2.WellFormed) →
          entries.mapM boxedEntry = .ok children →
            ∀ child ∈ children, child.WellFormed := by
    intro entries
    induction entries with
    | nil =>
        intro children _ hMap
        cases hMap
        simp
    | cons entry entries ih =>
        intro children hWell hMap
        rcases mapM_cons_eq_ok_iff.mp hMap with
          ⟨child, rest, hHead, hTail, rfl⟩
        rcases List.forall_mem_cons.mp hWell with
          ⟨hFirst, hOthers⟩
        exact
          List.forall_mem_cons.mpr
            ⟨wellFormed_of_boxedEntry hFirst hHead,
              ih rest hOthers hTail⟩
  unfold toVariant at hEnd
  split at hEnd
  · cases hEnd
  · rename_i children hMap
    have hMade : Variant.Constructs children v := .array hEnd
    exact
      Variant.wellFormed_of_constructs hMade
        (hEach d.entries children hValues hMap)

end Vardict

end GVariant

------------------------------------------------------------
-- Reachable Variants
------------------------------------------------------------

namespace GVariant

namespace Variant

/-
  The variants that are obtained by any number of calls. A
  host value may hold any variants that were obtained
  before, and so may a dictionary.
-/
inductive Reachable : Variant → Prop
| construct
    {children : List Variant}
    {v : Variant}
    (hMade : Constructs children v)
    (hChildren : ∀ child ∈ children, child.Reachable) :
    Reachable v
| packAs
    {conv : Conversion}
    {signature : String}
    {value : Value}
    {v : Variant}
    (hInside : ∀ w ∈ value.variants, w.Reachable)
    (hPack : conv.packAs signature value = .ok v) :
    Reachable v
| packNext
    {conv : Conversion}
    {value : Value}
    {r r' : Reader}
    {v : Variant}
    (hInside : ∀ w ∈ value.variants, w.Reachable)
    (hPack : conv.packNext value r = (.ok v, r')) :
    Reachable v
| decode
    {type : Ty}
    {data : List UInt8}
    {order : ByteOrder}
    {limit : Nat}
    {v : Variant}
    (hDecode : Variant.decode type data order limit = .ok v) :
    Reachable v
| byteswap
    {v w : Variant}
    (hFrom : v.Reachable)
    (hSwap : v.byteswap = .ok w) :
    Reachable w
| vardict
    {d : Vardict}
    {v : Variant}
    (hValues : ∀ entry ∈ d.entries, entry.2.Reachable)
    (hEnd : d.toVariant = .ok v) :
    Reachable v
| child
    {v w : Variant}
    {index : Nat}
    (hFrom : v.Reachable)
    (hChild : v.child? index = some w) :
    Reachable w

/- Every obtained variant is well-formed. -/
theorem Reachable.wellFormed
    {v : Variant}
    (hReach : v.Reachable) :
    v.WellFormed := by
  induction hReach with
  | construct hMade _ ih =>
      exact wellFormed_of_constructs hMade ih
  | packAs _ hPack ih =>
      rw [wellFormed_iff_wellTyped]
      exact (Conversion.packed_of_packAs ih hPack).1
  | packNext _ hPack ih =>
      rw [wellFormed_iff_wellTyped]
      exact (Conversion.packed_of_packNext ih hPack).wellTyped
  | decode hDecode => exact (fits_of_decode hDecode).wellFormed
  | byteswap _ hSwap _ =>
      exact (fits_of_decode hSwap).wellFormed
  | vardict _ hEnd ih =>
      exact Vardict.wellFormed_of_toVariant ih hEnd
  | child _ hChild ih =>
      rw [child?_eq_getElem?] at hChild
      exact ih.of_mem_children (List.mem_of_getElem? hChild)

end Variant

end GVariant
