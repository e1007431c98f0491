import InvertedFile.Proofs.Index.RoundTrip
import InvertedFile.Proofs.InvertedList.Truncation

/-!
# An image that is cut short

The image of an index is its header and one record for each list. A cut in the
header ends the reading there; a cut behind it leaves the records of some lists
whole, and these lists are read before the reader comes to the cut. So two
things may happen: the budget refuses one of these lists, or the ending is met.
An index does not come of it in either case, and what was read is given back,
list by list, on the way out.

## Main results

* `exact_readHeader` — the header is read without looking further.
* `imageUpTo`, `IsImage.flatten_eq` — the image as a function of the published
  records.
* `readRecords_cut`, `read_cut` — the two ways in which reading ends at a cut.
-/

namespace InvertedFile

namespace Index

variable {t : ElementType} {i : IdType}

/-- The image of an index as far as the records of its first `n` lists. -/
def imageUpTo (x : Index) (s : Store t i) (n : Nat) : Bytes :=
  (headerFields t i x).flatten ++
    ((x.heldLists s).take n).flatMap fun l => InvertedList.recordBytes x.spec.layout l.published

/-- Bytes that the first `n` lists of an index take when they are read. -/
def bytesUpTo (x : Index) (s : Store t i) (n : Nat) : Nat :=
  (((x.heldLists s).take n).map (·.memoryBytes)).sum

theorem bytesUpTo_le (x : Index) (s : Store t i) (n : Nat) :
    x.bytesUpTo s n ≤ x.memoryBytes s :=
  ((List.take_sublist n (x.heldLists s)).map InvertedList.memoryBytes).sum_le_sum
    fun _ _ => Nat.zero_le _

end Index

namespace LoadedIndex

open Index Source

variable {t : ElementType} {i : IdType}

theorem exact_readTag (role : TypeRole) (expected : ElementType) :
    Exact (readTag role expected) :=
  (exact_number 1).bind fun _ => exact_ensure _ _

theorem exact_readHeader : Exact (readHeader t i) := by
  refine (exact_number 4).bind fun _ => (exact_ensure _ _).bind fun _ => ?_
  refine (exact_number 4).bind fun _ => (exact_ensure _ _).bind fun _ => ?_
  refine (exact_readTag .value t).bind fun _ => (exact_readTag .id i.element).bind fun _ => ?_
  refine (exact_number 4).bind fun dim => (exact_number 4).bind fun veclen => ?_
  refine (exact_number 4).bind fun length => (exact_ensure _ _).bind fun _ => ?_
  refine (exact_take length).bind fun text => ?_
  cases IndexParams.ofJson? text with
  | none => exact exact_throw _
  | some params =>
      refine (exact_number 4).bind fun _ => (exact_ensure _ _).bind fun _ => ?_
      cases ListSpec.ofWidths (UInt32.ofNat dim) (UInt32.ofNat veclen) params.growth with
      | error cause => exact exact_throw _
      | ok spec => exact exact_pure _

/-- Records that are cut short are read up to the cut, or up to a list for which there is no room.
Whatever was read is given back. -/
theorem readRecords_cut {spec : ListSpec} {ls : List (InvertedList t i)}
    {records : List (List Bytes)}
    (himages : List.Forall₂ (fun l fields => InvertedList.IsImage l spec.layout l.size fields)
      ls records)
    (hls : ∀ l ∈ ls, l.WellFormed ∧ l.Hosted ∧ l.spec = spec ∧ l.Tight) {cut : Bytes}
    (hcut : cut <+: records.flatten.flatten) (hne : cut ≠ records.flatten.flatten) (b : Budget)
    (ending : Ending) :
    (∃ n, (records.take n).flatten.flatten <+: cut ∧
        ¬ (b.charged ((ls.take n).map (·.memoryBytes)).sum).Sound ∧ ∃ e tr,
          readRecords t i spec ls.length { budget := b, stream := { bytes := cut, ending } } =
            .error e tr ∧ tr.budget = b ∧ e.IsAllocation) ∨
      readRecords t i spec ls.length { budget := b, stream := { bytes := cut, ending } } =
        .error ending.error { budget := b, stream := { bytes := [], ending } } := by
  induction himages generalizing b cut with
  | nil => exact absurd (List.prefix_nil.mp hcut) hne
  | @cons l fields ls records himage _ ih =>
      obtain ⟨hwell, hhosted, rfl, htight⟩ := hls l (List.mem_cons_self ..)
      rw [List.flatten_cons, List.flatten_append] at hcut hne
      rw [List.length_cons, readRecords]
      rcases cut_cases hcut hne with ⟨hfirst, hshort⟩ | ⟨more, rfl, hmore, hshort⟩
      · -- the record of the first list is cut short
        right
        exact Action.bind_error
          (InvertedList.readRecord_cut hwell rfl hwell.size_lt himage hfirst hshort b ending)
      · rcases InvertedList.readRecord_of_image hwell rfl rfl hwell.size_lt himage b more ending
          with ⟨hrefused, e, hread, he⟩ | ⟨-, after, hread, hback⟩
        · -- there is no room for the first list
          left
          refine ⟨1, ?_, fun hroom => ?_, e, _, Action.bind_error hread, rfl, he⟩
          · rw [List.take_succ_cons, List.take_zero, List.flatten_cons, List.flatten_nil,
              List.append_nil]
            exact List.prefix_append _ _
          · rw [List.take_succ_cons, List.take_zero, List.map_cons, List.map_nil,
              List.sum_singleton] at hroom
            exact hrefused (InvertedList.readingGranted_of_room hwell hhosted htight hroom)
        · have hreserved : after.reserved = l.memoryBytes := by
            rw [hback.wellFormed.reserved_eq, (hback.alike hwell htight).memoryBytes_eq]
          rw [Action.bind_ok hread]
          rcases ih (fun l' hl' => hls l' (List.mem_cons_of_mem _ hl')) hmore hshort
            (b.charged after.reserved) with
            ⟨n, hprefix, hroom, e, tr, hrest, hbudget, he⟩ | hrest
          · left
            refine ⟨n + 1, ?_, ?_, e, tr.release after.reserved,
              Action.bind_error (Action.undoing_error.mpr ⟨tr, hrest, rfl⟩), ?_, he⟩
            · rw [List.take_succ_cons, List.flatten_cons, List.flatten_append]
              exact (List.prefix_append_right_inj _).mpr hprefix
            · rwa [List.take_succ_cons, List.map_cons, List.sum_cons, ← hreserved,
                ← Budget.charged_charged]
            · show tr.budget.release after.reserved = b
              rw [hbudget, Budget.release_charged]
          · right
            refine Action.bind_error (Action.undoing_error.mpr ⟨_, hrest, ?_⟩)
            show ({ budget := (b.charged after.reserved).release after.reserved
                    stream := { bytes := [], ending } } : Transfer Source) = _
            rw [Budget.release_charged]

/-- The images of lists are the bytes of their records. -/
theorem flatten_images {store : Layout} {ls : List (InvertedList t i)} {records : List (List Bytes)}
    (himages : List.Forall₂ (fun l fields => InvertedList.IsImage l store l.size fields) ls records)
    (hls : ∀ l ∈ ls, l.WellFormed ∧ store.dim = l.spec.dim) :
    records.flatten.flatten = ls.flatMap fun l => InvertedList.recordBytes store l.published := by
  induction himages with
  | nil => rfl
  | @cons l fields ls records himage _ ih =>
      obtain ⟨hwell, hdim⟩ := hls l (List.mem_cons_self ..)
      rw [List.flatten_cons, List.flatten_append, List.flatMap_cons,
        himage.flatten_eq_published hwell hdim,
        ih fun l' hl' => hls l' (List.mem_cons_of_mem _ hl')]

/-- The image of an index is that of all its lists. -/
theorem image_eq {x : Index} {s : Store t i} {refs : List ListId} {pending : Nat}
    (hx : x.Sound s) (hacc : s.Accounts refs pending) {fields : List Bytes}
    (himage : x.IsImage s fields) : fields.flatten = x.imageUpTo s x.lists := by
  obtain ⟨records, hrecords, rfl⟩ := himage
  have himages := hx.images_heldLists hrecords
  rw [List.flatten_append, imageUpTo, List.take_of_length_le (Nat.le_of_eq hx.length_heldLists),
    flatten_images himages]
  intro l hl
  obtain ⟨hwell, -, hspec, -⟩ := hx.of_mem_heldLists hacc hl
  exact ⟨hwell, by rw [hspec]; rfl⟩

/-- An image that is cut short is read up to the cut, or up to a list for which there is no room.
The budget is as before in either case. -/
theorem read_cut {x : Index} {s : Store t i} {refs : List ListId} {pending : Nat}
    (hx : x.Sound s) (hacc : s.Accounts refs pending) {fields : List Bytes}
    (himage : x.IsImage s fields) {cut : Bytes} (hcut : cut <+: fields.flatten)
    (hne : cut ≠ fields.flatten) (b : Budget) (ending : Ending) :
    (∃ n, x.imageUpTo s n <+: cut ∧ ¬ (b.charged (x.bytesUpTo s n)).Sound ∧ ∃ e tr,
        read t i { budget := b, stream := { bytes := cut, ending } } = .error e tr ∧
          tr.budget = b ∧ e.IsAllocation) ∨
      read t i { budget := b, stream := { bytes := cut, ending } } =
        .error ending.error { budget := b, stream := { bytes := [], ending } } := by
  obtain ⟨records, hrecords, rfl⟩ := himage
  have hheader := reads_header (t := t) (i := i) hx.growth_eq
  have himages := hx.images_heldLists hrecords
  rw [List.flatten_append] at hcut hne
  rcases cut_cases hcut hne with ⟨hfirst, hshort⟩ | ⟨more, rfl, hmore, hshort⟩
  · right
    exact Action.bind_error
      (Transfer.streamed_error (exact_readHeader.stops hheader cut ending hfirst hshort))
  · rw [read, Action.bind_ok (Transfer.streamed_ok (hheader more ending))]
    have hread := readRecords_cut himages (fun l hl => hx.of_mem_heldLists hacc hl) hmore hshort b
      ending
    rw [hx.length_heldLists] at hread
    rcases hread with ⟨n, hprefix, hroom, e, tr, hread, hbudget, he⟩ | hread
    · left
      refine ⟨n, ?_, hroom, e, tr, Action.bind_error hread, hbudget, he⟩
      rw [flatten_images (List.forall₂_take n himages)] at hprefix
      · exact (List.prefix_append_right_inj _).mpr hprefix
      · intro l hl
        obtain ⟨hwell, -, hspec, -⟩ := hx.of_mem_heldLists hacc (List.mem_of_mem_take hl)
        exact ⟨hwell, by rw [hspec]; rfl⟩
    · exact Or.inr (Action.bind_error hread)

end LoadedIndex

end InvertedFile
