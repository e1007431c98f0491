import InvertedFile.Proofs.Index.Batching
import InvertedFile.Proofs.Workspace.Extension

/-!
# Batches do not matter

To add two batches to an index that was reached comes to the same as to add
their vectors as one batch, with the labels of both and with the ids of both
or without any. More generally, what an index is after any number of batches
depends on their rows and not on where a batch ends. The lists of the two
runs have been moved at different times and have other names in the store; in
spec, size, capacity, bytes, ids and columns they are the same.

## Main results

* `batching_does_not_matter` — batches come to their rows, and those with the
  same rows leave indexes that look alike and are stored alike.
-/

namespace InvertedFile.Workspace

open InvertedFile.Action

variable {t : ElementType} {i : IdType}

/-- Two batches come to the same as one with the vectors, the labels and the ids of both. Any number
of batches come to their rows, dealt out by label behind what the lists held; so any two ways to cut
rows into batches come to the same, an empty batch among them or none at all. That they come to the
same means that for each label the lists have the same spec, size, capacity and bytes and the same
ids and columns, and that whatever is written of the one index is written of the other. -/
theorem batching_does_not_matter {limit : Option Nat} {w : Workspace t i} (hw : Reached limit w)
    {name : String} {x : Index} (hname : w.indexes.find? name = some x) :
    (∀ (a b c : Batch t i) (y z z' : OpenIndex t i), Batch.Joined x.dim a b c →
      a.add { index := x, store := w.store } = .ok () y → b.add y = .ok () z →
      c.add { index := x, store := w.store } = .ok () z' →
        z.Alike z' ∧ z'.index.write z'.store = z.index.write z.store) ∧
    (∀ (bs : List (Batch t i)) (z : OpenIndex t i),
      Batch.addAll bs { index := x, store := w.store } = .ok () z →
        OpenIndex.Grown { index := x, store := w.store } (bs.flatMap (Batch.rows x.dim)) z) ∧
    ∀ (bs cs : List (Batch t i)) (z z' : OpenIndex t i),
      bs.flatMap (Batch.rows x.dim) = cs.flatMap (Batch.rows x.dim) →
      Batch.addAll bs { index := x, store := w.store } = .ok () z →
      Batch.addAll cs { index := x, store := w.store } = .ok () z' →
        z.Alike z' ∧ z'.index.write z'.store = z.index.write z.store := by
  obtain ⟨held, hsound⟩ := hw.sound
  have hx : OpenIndex.Sound { index := x, store := w.store } _ :=
    ⟨hsound.index name x hname, hsound.accounts_index hname⟩
  refine ⟨?joined, fun bs z hb => (OpenIndex.grown_addAll hx hb).2, ?cut⟩
  case joined =>
    intro a b c y z z' hjoined ha hb hc
    obtain ⟨hz, hz', halike⟩ := OpenIndex.alike_of_joined hx hjoined ha hb hc
    exact ⟨halike, halike.write_eq hz hz'⟩
  case cut =>
    intro bs cs z z' hrows hb hc
    obtain ⟨hz, hz', halike⟩ := OpenIndex.alike_of_rows hx hrows hb hc
    exact ⟨halike, halike.write_eq hz hz'⟩

/-- Rows of one column for the second list, without ids. -/
def forSecond (columns : List (Word .u8)) : Batch .u8 .i32 where
  assigner := Assigner.precomputed (Array.replicate columns.length 1)
  vectors := columns.toArray
  ids := none

/-- Thirty-two rows and then as many again, or all of them at once, or four, none and the others.
The list of one record, which has room for thirty-two, is moved twice on the first way and once on
the second, and in the end it holds sixty-five. -/
theorem batching_oneRecord : ∃ x y z z' z'', oneRecord.indexes.find? "x" = some x ∧
    (forSecond (.replicate 32 8)).add { index := x, store := oneRecord.store } = .ok () y ∧
    (forSecond (.replicate 32 9)).add y = .ok () z ∧
    (forSecond (.replicate 32 8 ++ .replicate 32 9)).add
        { index := x, store := oneRecord.store } = .ok () z' ∧
    Batch.addAll
        [forSecond (.replicate 4 8), forSecond [],
          forSecond (.replicate 28 8 ++ .replicate 32 9)]
        { index := x, store := oneRecord.store } = .ok () z'' ∧
      z.Alike z' ∧ z'.index.write z'.store = z.index.write z.store ∧
      z''.index.size z''.store = 65 ∧
      z'.Alike z'' ∧ z''.index.write z''.store = z'.index.write z'.store := by
  let x : OpenIndex .u8 .i32 := { index := twoLists 0 2, store := oneRecord.store }
  have hname : oneRecord.indexes.find? "x" = some (twoLists 0 2) := by
    decide +kernel
  have hfirst : (forSecond (.replicate 32 8)).add x =
      .ok () (final (forSecond (.replicate 32 8)).add x) := by
    apply eq_ok_of_failure?
    decide +kernel
  have hsecond : (forSecond (.replicate 32 9)).add (final (forSecond (.replicate 32 8)).add x) =
      .ok () (final (forSecond (.replicate 32 9)).add
        (final (forSecond (.replicate 32 8)).add x)) := by
    apply eq_ok_of_failure?
    decide +kernel
  have hboth : (forSecond (.replicate 32 8 ++ .replicate 32 9)).add x =
      .ok () (final (forSecond (.replicate 32 8 ++ .replicate 32 9)).add x) := by
    apply eq_ok_of_failure?
    decide +kernel
  have hcut : Batch.addAll
        [forSecond (.replicate 4 8), forSecond [],
          forSecond (.replicate 28 8 ++ .replicate 32 9)] x =
      .ok () (final (Batch.addAll
        [forSecond (.replicate 4 8), forSecond [],
          forSecond (.replicate 28 8 ++ .replicate 32 9)]) x) := by
    apply eq_ok_of_failure?
    decide +kernel
  have hjoined : Batch.Joined 1 (forSecond (.replicate 32 8)) (forSecond (.replicate 32 9))
      (forSecond (.replicate 32 8 ++ .replicate 32 9)) :=
    ⟨by decide +kernel, by decide +kernel, Or.inr ⟨rfl, rfl, rfl⟩⟩
  have hreached : Reached none oneRecord := (Reached.new.perform _).perform _
  obtain ⟨htwo, hrun, hany⟩ := batching_does_not_matter hreached hname
  obtain ⟨halike, hsame⟩ := htwo _ _ _ _ _ _ hjoined hfirst hsecond hboth
  have hone := (congrFun (Batch.addAll_singleton _) x).trans hboth
  obtain ⟨halike', hsame'⟩ := hany _ _ _ _ (by decide +kernel) hone hcut
  refine ⟨twoLists 0 2, _, _, _, _, hname, hfirst, hsecond, hboth, hcut, halike, hsame, ?_, halike',
    hsame'⟩
  rw [(hrun _ _ hcut).size_eq]
  decide +kernel

end InvertedFile.Workspace
