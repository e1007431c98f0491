import InvertedFile.Proofs.InvertedList.Accessors
import InvertedFile.Proofs.InvertedList.Atomicity
import InvertedFile.Proofs.Workspace.Chronicle

/-!
# What can be read of an index

The records of an index are read by the label: the list of the label is looked
up, and from there on it is a view of this list that is read, with the bounds
and the refusals of the view. So all that can be read of the lists of an index
comes down to the one sequence of records that a view shows.

## Main results

* `OpenIndex.unpack_cases` — a label has a list that is unpacked, or is refused.
* `reads_show_one_sequence` — the reads of all views and of all indexes.
-/

namespace InvertedFile

variable {t : ElementType} {i : IdType}

/-- A label has a list, or is out of bounds. -/
theorem OpenIndex.unpack_cases {y : OpenIndex t i} {refs : List ListId} (hy : y.Sound refs)
    (label : Nat) :
    (∃ id l, label < y.index.lists ∧ y.index.slots[label]? = some id ∧
      y.store.list? id = some l ∧ l.WellFormed ∧
      ∀ start, y.index.unpack y.store label start = l.view.unpack start) ∨
    (y.index.lists ≤ label ∧ ∀ start out, y.index.unpack y.store label start out =
      .error (.outOfBounds .clusterLabel (label + 1) y.index.lists) out) := by
  by_cases hlabel : label < y.index.lists
  · obtain ⟨id, l, hid, hl, -⟩ := hy.index.listed hlabel
    exact Or.inl ⟨id, l, hlabel, hid, hl, hy.wellFormed hl,
      Index.unpack_of_list (Index.slot_ok hid) hl⟩
  · rw [Nat.not_lt] at hlabel
    have hslot : y.index.slot label =
        .error (.outOfBounds .clusterLabel (label + 1) y.index.lists) := by
      rw [Index.slot, Array.getElem?_eq_none (hy.index.size_slots.symm ▸ hlabel),
        hy.index.size_slots]
    exact Or.inr ⟨hlabel, Index.unpack_of_error hslot⟩

/-- **All reads show one sequence of records.** A view of a well-formed list shows the first
published records of the list: record by record, cut into chunks, side by side in a batch or packed
into groups. The view refuses what it does not cover and nothing else, and what is refused is not
written to. To read from the list of a label of an index is to read from the view of that list. -/
theorem reads_show_one_sequence :
    (∀ v : View t i, v.list.WellFormed → v.size ≤ v.list.size →
      (∃ ids records, v.Shows ids records) ∧ v.Refuses) ∧
    ∀ (y : OpenIndex t i) (refs : List ListId), y.Sound refs → ∀ label,
      (label < y.index.lists → ∃ id l, y.index.slots[label]? = some id ∧
        y.store.list? id = some l ∧ l.WellFormed ∧
        ∀ start, y.index.unpack y.store label start = l.view.unpack start) ∧
      (y.index.lists ≤ label → ∀ start out, y.index.unpack y.store label start out =
        .error (.outOfBounds .clusterLabel (label + 1) y.index.lists) out) := by
  refine ⟨fun v hwell hsize => ?views, fun y refs hy label => ?labels⟩
  case views =>
    exact ⟨View.shows hwell hsize, View.refuses hwell (Nat.le_trans hsize hwell.size_le)⟩
  case labels =>
    rcases OpenIndex.unpack_cases hy label with
      ⟨id, l, hlt, hid, hl, hwell, hunpack⟩ | ⟨hle, hunpack⟩
    · exact ⟨fun _ => ⟨id, l, hid, hl, hwell, hunpack⟩,
        fun hle => absurd hlt (Nat.not_lt.mpr hle)⟩
    · exact ⟨fun hlt => absurd hlt (Nat.not_lt.mpr hle), fun _ => hunpack⟩

namespace Workspace

/-- A view of a list with forty records that was taken when it had thirty-three. -/
def earlierView : View .u8 .u32 where
  list := { InvertedList.staleTail with size := 40 }
  size := 33

theorem wellFormed_earlierView : earlierView.list.WellFormed :=
  (InvertedList.Evolves.of_size InvertedList.staleTail (by decide) (by decide)).wellFormed
    InvertedList.wellFormed_staleTail

/-- The record behind the complete group is cut into chunks and unpacked after the last one of the
group, and the next record is not there. The index that has taken three rows is unpacked by its two
labels. -/
theorem reads_of_earlierView :
    (∃ flat last, earlierView.record 32 = .ok flat ∧ earlierView.record 31 = .ok last ∧
      earlierView.chunk 32 1 = .ok (flat.extract 2 4) ∧
      earlierView.unpack 31 (Array.replicate 12 0) = .ok () (last ++ flat) ∧
      earlierView.record 33 = .error (.outOfBounds .publishedRecords 34 33)) ∧
    ∃ x, takenThree.indexes.find? "x" = some x ∧
      (∃ id l, x.slots[1]? = some id ∧ takenThree.store.list? id = some l ∧
        x.unpack takenThree.store 1 0 = l.view.unpack 0) ∧
      x.unpack takenThree.store 2 0 #[] = .error (.outOfBounds .clusterLabel 3 2) #[] := by
  constructor
  · obtain ⟨⟨ids, records, hshows⟩, hrefuses⟩ :=
      (reads_show_one_sequence (t := .u8) (i := .u32)).1 earlierView
        wellFormed_earlierView (by decide)
    have hsize : records.size = 33 := hshows.size_records
    have hflat : records[32]? = some records[32] := Array.getElem?_eq_getElem _
    have hlast : records[31]? = some records[31] := Array.getElem?_eq_getElem _
    refine ⟨records[32], records[31], hshows.record_eq 32 _ hflat, hshows.record_eq 31 _ hlast,
      hshows.chunk_eq 32 _ hflat 1 (by decide), ?_,
      (hrefuses.record_eq_error 33 _).mpr ⟨by decide, rfl⟩⟩
    have hunpack := (hshows.unpack_eq 31 2 (Array.replicate 12 0) (by decide) Array.size_replicate).1
    have hpair : records.extract 31 (31 + 2) = #[records[31], records[32]] := by
      apply Array.ext_getElem?
      rintro (_ | _ | k)
      · rw [Array.getElem?_extract, if_pos (by omega)]
        exact hlast
      · rw [Array.getElem?_extract, if_pos (by omega)]
        exact hflat
      · rw [Array.getElem?_extract, if_neg (by omega)]
        rfl
    have hflatten : #[records[31], records[32]].flatten = records[31] ++ records[32] := by
      rw [← Array.toList_inj]
      simp
    rw [hpair, hflatten] at hunpack
    exact hunpack
  · obtain ⟨x, hx⟩ := chronicle_takenThree.follows
    obtain ⟨refs, hsound⟩ := hx.sound
    have hlists : x.lists = 2 := by
      rw [Index.lists, hx.params_eq]
      rfl
    have hreads := (reads_show_one_sequence (t := .u8) (i := .i32)).2 _ refs hsound
    obtain ⟨id, l, hid, hl, -, hunpack⟩ := (hreads 1).1 (hlists.symm ▸ by decide)
    refine ⟨x, hx.find?_eq, ⟨id, l, hid, hl, hunpack 0⟩, ?_⟩
    have hrefused := (hreads 2).2 (hlists.symm ▸ Nat.le_refl 2) 0 #[]
    rw [hlists] at hrefused
    exact hrefused

end Workspace

end InvertedFile
