import InvertedFile.Proofs.Index.Scheduling
import InvertedFile.Proofs.Interleave.Scheduling
import InvertedFile.Proofs.Workspace.Extension

/-!
# Work in any order

Three loops of the library may be shared out among workers: the records that
a writer packs, the groups that a batch is packed by, and the lists that an
extension writes to. Each of them is a list of tasks, and here the tasks are
run in an order of somebody else's choosing.

For a buffer the finest tasks are the copies of single chunks, so that an
order of these is also how records and groups run through each other. For an
extension of an index that was reached, the tasks are the portions of the
batch, once room has been found for all of them.

## Main results

* `schedules_agree` — no order of the tasks changes what they leave.
-/

namespace InvertedFile.Workspace

open InvertedFile.Action

/-- **The order of the work does not matter.** Let a batch of whole records fit a buffer of the
extents of a layout. Packing it by copies of chunks in any order, by its records in any order, by
the groups it reaches into in any order, by the checked loop over groups and by the writer of a
list with this buffer leaves one buffer. The reason is that what a copy stores, and where, does
not depend on what is in the buffer, and that different copies store to runs that do not overlap,
each in the block of its group. Let room be found for all portions of a batch for an index that
was reached. They go to different lists under different labels, and when they are written, in any
order, the index, the lists and their sizes, the holders and the budget end up the same: as the
extension leaves them, when the lists that were held for it are let go. -/
theorem schedules_agree :
    (∀ (t : ElementType) (layout : Layout) (rows start n : Nat) (codes data : Array (Word t)),
      let e := layout.extents rows
      data.size = e.length → codes.size = n * layout.dim → start + n ≤ e.rows →
        (∃ data', Interleave.PackedInAnyOrder e start n codes data data') ∧
          Interleave.CopiesApart e start n codes data) ∧
    ∀ (t : ElementType) (i : IdType) (limit : Option Nat) (w : Workspace t i) (name : String)
      (x : Index), Reached limit w → w.indexes.find? name = some x →
      ∀ (assigner : Assigner t) (vectors : Array (Word t)) (given : Option (Array (Id i)))
        (portions : List (Index.Portion t i)) (staged : List (Index.Staged t i)) (s : Store t i),
        Index.plan x.dim (x.sizes w.store) x.slots.size assigner vectors given = .ok portions →
        Index.stageAll x portions w.store = .ok staged s →
          (staged.map (·.list)).Nodup ∧ (staged.map (·.portion.label)).Nodup ∧
          ∃ y : OpenIndex t i,
            (∀ order : List (Index.Staged t i), order.Perm staged →
              order.forM Index.place { index := x, store := s } = .ok () y) ∧
            Index.extend assigner vectors given { index := x, store := w.store } =
              .ok () { y with store := y.store.releaseAll (staged.map (·.list)) } := by
  refine ⟨?buffers, ?lists⟩
  case buffers =>
    intro t layout rows start n codes data e hsize hcodes hroom
    have hpos : 0 < e.veclen := layout.veclen_pos
    have hwidth : e.dim = layout.dim := layout.dim_extents rows
    rw [← hwidth] at hcodes
    exact ⟨Interleave.packedInAnyOrder hpos (hwidth ▸ layout.dim_pos) hsize hcodes hroom,
      Interleave.copiesApart hpos hsize hcodes hroom⟩
  case lists =>
    intro t i limit w name x hw hname assigner vectors given portions staged s hplan hstage
    obtain ⟨held, hsound⟩ := hw.sound
    have hx := hsound.index name x hname
    have hacc := hsound.accounts_index hname
    obtain ⟨hvalid, hnodup⟩ := Index.valid_of_plan hx hacc hplan
    have hstaged := Index.stagedAll_of_ok hx hacc hvalid hnodup hstage
    have hlabels := hstaged.nodup_labels hnodup
    have htakes := Index.StagedAll.takes hx hacc hstaged hvalid
    obtain ⟨x', s', hplace, -⟩ :=
      Index.forM_place_ok hstaged.accounts hlabels hstaged.nodup htakes
    refine ⟨hstaged.nodup, hlabels, { index := x', store := s' }, fun order hperm => ?_, ?_⟩
    · rw [Index.forM_place_perm hstaged.accounts hlabels hstaged.nodup htakes hperm, hplace]
    · rw [Index.extend_eq, bind_ok (ofExcept_ok hplan _), bind_ok (Index.stored_ok hstage)]
      exact closing_ok.mpr ⟨_, hplace, rfl⟩

/-- The portions of three rows, of which the first and the last go to the list that has a record. -/
def bothPortions : List (Index.Portion .u8 .i32) :=
  (Index.plan 1 ((twoLists 0 2).sizes oneRecord.store) 2 (Assigner.precomputed #[1, 0, 1])
    #[8, 9, 10] none).toOption.getD []

/-- A batch on either side of the border between two groups, packed from its last copy to its first
and with the later group first; and a batch for two lists, one of which has to be made, whose second
portion is written first. -/
theorem schedules_agree_backwards :
    (∃ data',
      Interleave.pack (Interleave.pairs.extents 33) 31 Interleave.twelve
        Interleave.almostGroup.data = .ok () data' ∧
      (Interleave.chunkTasks 6 2 2).reverse.forM
        (Interleave.copyChunk 6 2 31 Interleave.twelve) Interleave.almostGroup.data =
          .ok () data' ∧
      [1, 0].forM (Interleave.packGroup (Interleave.pairs.extents 33) Interleave.twelve 31 33)
        Interleave.almostGroup.data = .ok () data') ∧
    ∃ x portions staged s y, oneRecord.indexes.find? "x" = some x ∧
      Index.plan x.dim (x.sizes oneRecord.store) x.slots.size (Assigner.precomputed #[1, 0, 1])
        #[8, 9, 10] none = .ok portions ∧
      Index.stageAll x portions oneRecord.store = .ok staged s ∧ portions.length = 2 ∧
      staged.reverse.forM Index.place { index := x, store := s } = .ok () y ∧
      staged.forM Index.place { index := x, store := s } = .ok () y := by
  obtain ⟨hbuffers, hlists⟩ := schedules_agree
  constructor
  · have hsize : Interleave.almostGroup.data.size = (Interleave.pairs.extents 33).length :=
      Array.size_replicate
    obtain ⟨⟨data', hany⟩, -⟩ := hbuffers .u8 Interleave.pairs 33 31 2 Interleave.twelve _ hsize
      (by decide) (by decide)
    exact ⟨data', hany.checked, hany.copies _ (List.reverse_perm _),
      hany.groups [1, 0] (by decide)⟩
  · have hname : oneRecord.indexes.find? "x" = some (twoLists 0 2) := by
      decide +kernel
    have hreached : Reached none oneRecord := (Reached.new.perform _).perform _
    have hplan : Index.plan 1 ((twoLists 0 2).sizes oneRecord.store) 2
        (Assigner.precomputed #[1, 0, 1]) #[8, 9, 10] none = .ok bothPortions := by
      have hplanned : (Index.plan (t := .u8) (i := .i32) 1
          ((twoLists 0 2).sizes oneRecord.store) 2 (Assigner.precomputed #[1, 0, 1]) #[8, 9, 10]
          none).isOk := by
        decide +kernel
      unfold bothPortions
      revert hplanned
      cases Index.plan (t := .u8) (i := .i32) 1 ((twoLists 0 2).sizes oneRecord.store) 2
        (Assigner.precomputed #[1, 0, 1]) #[8, 9, 10] none with
      | ok portions => exact fun _ => rfl
      | error e => exact fun hplanned => nomatch hplanned
    have hfound : (failure? (Index.stageAll (twoLists 0 2) bothPortions)
        oneRecord.store).isNone := by
      decide +kernel
    obtain ⟨staged, hstage⟩ := exists_ok_of_failure? (Option.isNone_iff_eq_none.mp hfound)
    obtain ⟨-, -, y, hany, -⟩ :=
      hlists .u8 .i32 none oneRecord "x" _ hreached hname _ _ _ _ _ _ hplan hstage
    exact ⟨twoLists 0 2, bothPortions, staged, _, y, hname, hplan, hstage, by decide +kernel,
      hany _ (List.reverse_perm staged), hany _ (.refl staged)⟩

end InvertedFile.Workspace
