import InvertedFile.Proofs.InvertedList.Canonical
import InvertedFile.Proofs.Store.Resized

/-!
# Stored bytes through a resize

A list may come to its records in many ways: it was filled at once or grew in
steps, it was cut in place and filled again, it was copied into another layout
with the slots of the last group carried along. All of that is history that a
stored list does not tell.

## Main results

* `resize_resized` — what a holder has after a resize.
* `stored_bytes_canonical` — what is written of a list is fixed by what it
  publishes, and a resize that keeps all records does not change it.
-/

namespace InvertedFile.Store

open InvertedList (fourColumns single)

variable {t : ElementType} {i : IdType}

/-- After a resize its holder has a list that publishes the records that were kept. -/
theorem resize_resized {s s' : Store t i} {id new : ListId} {h : Holding t i}
    (hfind : s.find? id = some h) (hwell : h.list.WellFormed) {spec : ListSpec}
    {records used : Nat} (hresize : resize id spec records used s = .ok new s') :
    ∃ list, s'.list? new = some list ∧ spec.dim = h.list.spec.dim ∧
      h.list.Resized spec records (min used records) list := by
  rcases resize_cases hfind hwell spec records used with
    ⟨e, he, -⟩ | ⟨hdim, hused, ⟨hroom, hlayout, hall, hstay⟩ | ⟨hroom, hlayout, -, -, hcut⟩ |
      ⟨-, capacity, after, hcapacity, -, hreplaced, hcopied⟩⟩
  · rw [he] at hresize
    cases hresize
  · rw [hstay] at hresize
    cases hresize
    refine ⟨h.list, list?_of_find? hfind, hdim, hwell, hlayout.symm, hroom, hall.symm, ?_⟩
    rw [hall, ← InvertedList.length_published hwell, List.take_length]
  · rw [hcut] at hresize
    cases hresize
    have hkeep : min used records ≤ h.list.size := Nat.le_trans (Nat.min_le_left _ _) hused
    exact ⟨_, list?_of_find? (find?_update_self s _ hfind), hdim,
      InvertedList.wellFormed_cut hwell hkeep, hlayout.symm, hroom, rfl,
      InvertedList.published_cut hwell hkeep⟩
  · rw [hreplaced] at hresize
    cases hresize
    exact ⟨after, list?_replaced_nextId hfind after, hdim,
      hcopied.resized hwell hdim (Nat.le_trans (Nat.min_le_left _ _) hused)
        (Nat.min_le_right _ _) hcapacity⟩

/-- **Stored bytes depend on published records only.** A list with the same published records and
the same record width, in whatever layout, with whatever capacity and whatever in its unused slots,
is stored by the same action, and whenever both are written, be it out of different budgets and into
different sinks, the bytes are the same. They are the bytes of the published records as far as these
are wanted. A resize that keeps all records, to whatever layout and capacity, leaves a list that is
stored as the old one was. -/
theorem stored_bytes_canonical {l : InvertedList t i} (hl : l.WellFormed) (store : ListSpec)
    (length : Option UInt32) :
    (∀ l' : InvertedList t i, l'.WellFormed → l'.spec.dim = l.spec.dim →
      l'.published = l.published →
        l'.writeRecord store length = l.writeRecord store length ∧
        ∀ tr out tr' out', l.writeRecord store length tr = .ok () out →
          l'.writeRecord store length tr' = .ok () out' →
            ∃ record, out.stream.written = tr.stream.written ++ record ∧
              out'.stream.written = tr'.stream.written ++ record) ∧
    (∀ tr out, l.writeRecord store length tr = .ok () out →
      out.stream.written = tr.stream.written ++
        InvertedList.recordBytes store.layout (l.padded (l.imageLength length))) ∧
    ∀ (s : Store t i) id h spec records new s', s.find? id = some h → h.list = l →
      l.size ≤ records → resize id spec records l.size s = .ok new s' →
        ∃ list, s'.list? new = some list ∧ list.published = l.published ∧
          list.writeRecord store length = l.writeRecord store length := by
  have hwritten : ∀ tr out, l.writeRecord store length tr = .ok () out →
      out.stream.written = tr.stream.written ++
        InvertedList.recordBytes store.layout (l.padded (l.imageLength length)) :=
    fun tr out hwrite => InvertedList.written_of_writeRecord hl hwrite
  refine ⟨?twoRuns, hwritten, ?resize⟩
  case twoRuns =>
    intro l' hl' hdim hpublished
    have hsame := InvertedList.writeRecord_congr hl hl' hdim hpublished store length
    refine ⟨hsame, fun tr out tr' out' hwrite hwrite' => ?_⟩
    rw [hsame] at hwrite'
    exact ⟨_, hwritten tr out hwrite, hwritten tr' out' hwrite'⟩
  case resize =>
    rintro s id h spec records new s' hfind rfl hrecords hresize
    obtain ⟨list, hlist, hdim, hresized⟩ := resize_resized hfind hl hresize
    have hpublished : list.published = h.list.published := by
      rw [hresized.published_eq, Nat.min_eq_left hrecords, ← InvertedList.length_published hl,
        List.take_length]
    have hlistDim : list.spec.dim = h.list.spec.dim :=
      (congrArg Layout.dim hresized.layout_eq).trans hdim
    exact ⟨list, hlist, hpublished, InvertedList.writeRecord_congr hl hresized.wellFormed hlistDim
      hpublished store length⟩

/-- The list of one record in one chunk, with room for more, and an older record behind it that is
not published. -/
def staleSingle : InvertedList .u8 .i32 where
  spec := fourColumns 2 (by decide) .doubling
  capacity := 64
  data := .mk ([1, 2, 3, 4, 9, 9, 9, 9] ++ List.replicate 248 7)
  ids := .mk ([7, 5] ++ List.replicate 62 (Id.invalid .i32))
  size := 1
  reserved := 512

set_option maxRecDepth 4000 in
/-- The older record is not stored, and neither does it show that a list has moved to another layout
with more room. -/
theorem stored_bytes_canonical_stale :
    single.WellFormed ∧ staleSingle.WellFormed ∧
      (∃ out, single.writeRecord (fourColumns 1 (by decide) .steady) (some 3)
          { budget := .new none, stream := .empty none } = .ok () out ∧
        out.stream.written = InvertedList.recordBytes
          (fourColumns 1 (by decide) .steady).layout (single.padded 3)) ∧
      staleSingle.writeRecord (fourColumns 1 (by decide) .steady) (some 3) =
        single.writeRecord (fourColumns 1 (by decide) .steady) (some 3) ∧
      ∃ s' list,
        resize ⟨0⟩ (fourColumns 2 (by decide) .doubling) 40 1 sharedSingle =
          .ok ⟨1⟩ s' ∧
        s'.list? ⟨1⟩ = some list ∧
        list.writeRecord (fourColumns 1 (by decide) .steady) (some 3) =
          single.writeRecord (fourColumns 1 (by decide) .steady) (some 3) := by
  have hsingle : single.WellFormed :=
    ⟨Or.inr ⟨1, rfl⟩, by decide +kernel, by decide +kernel, by decide, by decide +kernel⟩
  have hstale : staleSingle.WellFormed :=
    ⟨Or.inr ⟨40, rfl⟩, by decide +kernel, by decide +kernel, by decide, by decide +kernel⟩
  have hpublished : staleSingle.published = single.published := by decide +kernel
  have hwrite : single.writeRecord (fourColumns 1 (by decide) .steady) (some 3)
      { budget := .new none, stream := .empty none } = .ok ()
        (Action.final (single.writeRecord (fourColumns 1 (by decide) .steady) (some 3))
          { budget := .new none, stream := .empty none }) := rfl
  have hfind : sharedSingle.find? ⟨0⟩ =
      some { list := single, holders := 2, writing := false } := rfl
  have hresize : resize ⟨0⟩ (fourColumns 2 (by decide) .doubling) 40 1 sharedSingle =
      .ok ⟨1⟩ (Action.final
        (resize ⟨0⟩ (fourColumns 2 (by decide) .doubling) 40 1) sharedSingle) := rfl
  obtain ⟨htwoRuns, hwritten, hresized⟩ := stored_bytes_canonical hsingle
    (fourColumns 1 (by decide) .steady) (some 3)
  obtain ⟨list, hlist, -, hsame⟩ := hresized _ _ _ _ 40 _ _ hfind rfl (by decide) hresize
  exact ⟨hsingle, hstale, ⟨_, hwrite, hwritten _ _ hwrite⟩,
    (htwoRuns staleSingle hstale rfl hpublished).1, _, list, hresize, hlist, hsame⟩

end InvertedFile.Store
