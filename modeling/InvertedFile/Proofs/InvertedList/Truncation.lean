import InvertedFile.Proofs.InvertedList.Saving
import InvertedFile.Proofs.InvertedList.Loading

/-!
# A record that is cut short

The image of a list may be cut in the number of records, in a descriptor, in
the ids or in the words. Wherever it is, the reader has been led through the
fields before the cut by what was written, so that nothing but the ending can
stop it, and it makes no list before it has all fields. So the budget has not
been touched when the ending is met.

## Main results

* `exact_readArrays` — the arrays of a record are read without looking further.
* `readRecord_cut` — an image that is cut short ends in the error of the ending.
-/

namespace InvertedFile.InvertedList

open Source

variable {t : ElementType} {i : IdType}

theorem exact_readExtents (rank : Nat) : Exact (readExtents rank) := by
  induction rank with
  | zero => exact exact_pure []
  | succ rank ih => exact (exact_number 4).bind fun _ => ih.bind fun _ => exact_pure _

theorem exact_readDescriptor (role : ArrayRole) (expected : ElementType) (extents : List Nat) :
    Exact (readDescriptor role expected extents) := by
  refine (exact_number 1).bind fun tag => ?_
  dsimp only
  cases ElementType.ofTag? (UInt8.ofNat tag) with
  | none => exact exact_throw _
  | some found =>
      refine (exact_number 1).bind fun rank => (exact_ensure _ _).bind fun _ => ?_
      refine (exact_readExtents rank).bind fun _ => (exact_ensure _ _).bind fun _ => ?_
      exact exact_ensure _ _

theorem exact_readArrays (store : Layout) (length : Nat) :
    Exact (readArrays t i store length) := by
  refine (exact_readDescriptor .indices i.element [length]).bind fun _ => ?_
  refine (exact_words i.element length).bind fun _ => ?_
  refine (exact_readDescriptor .data t (store.extents length).toList).bind fun _ => ?_
  exact (exact_words t (store.extents length).length).bind fun _ => exact_pure _

/-- An image that is cut short is read up to the cut, and nothing has been charged by then. -/
theorem readRecord_cut {l : InvertedList t i} (h : l.WellFormed) {store device : ListSpec}
    (hdevice : store.dim = device.dim) {length : Nat} (hlength : length < countLimit)
    {fields : List Bytes} (himage : IsImage l store.layout length fields) {cut : Bytes}
    (hcut : cut <+: fields.flatten) (hne : cut ≠ fields.flatten) (b : Budget) (ending : Ending) :
    readRecord t i store device { budget := b, stream := { bytes := cut, ending } } =
      .error ending.error { budget := b, stream := { bytes := [], ending } } := by
  have hnumber : ∀ {n : Nat} {cut : Bytes}, n < 256 ^ 4 → cut <+: LittleEndian.encode 4 n →
      cut ≠ LittleEndian.encode 4 n →
      readRecord t i store device { budget := b, stream := { bytes := cut, ending } } =
        .error ending.error { budget := b, stream := { bytes := [], ending } } := by
    intro n cut hn hcut hne
    have hstops := (exact_number 4).stops (reads_number hn) cut ending hcut hne
    rw [readRecord, Action.bind_ok (Action.ensure_ok hdevice _)]
    exact Action.bind_error (Transfer.streamed_error hstops)
  cases himage with
  | empty =>
      rw [List.flatten_cons, List.flatten_nil, List.append_nil] at hcut hne
      exact hnumber (by decide) hcut hne
  | @records _ words hpos hwords =>
      have hids := size_imageIds h length
      rw [flatten_recordFields, hids] at hcut hne
      rcases cut_cases hcut hne with ⟨hfirst, hshort⟩ | ⟨more, rfl, hmore, hshort⟩
      · exact hnumber hlength hfirst hshort
      · have hwordsSize : words.size = (store.layout.extents (l.imageIds length).size).length :=
          hids.symm ▸ hwords.size_eq
        have hreads := reads_arrays (hids.symm ▸ hlength) hwordsSize
        rw [hids] at hreads
        have hstops := (exact_readArrays store.layout length).stops hreads more ending hmore hshort
        rw [readRecord, Action.bind_ok (Action.ensure_ok hdevice _),
          Action.bind_ok (Transfer.streamed_ok (reads_number hlength more ending)),
          if_neg (Nat.ne_of_gt hpos)]
        exact Action.bind_error (Transfer.streamed_error hstops)

end InvertedFile.InvertedList
