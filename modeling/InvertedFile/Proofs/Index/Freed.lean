import InvertedFile.Proofs.Index.Reset

/-!
# What a reset gives back

An index that lets go of its lists drops those that nobody else holds, and
their bytes are free again. A list that has other holders stays, with one
holder less.

A reset lets go of the same lists, one by one, and between them it takes in
empty ones, which need no bytes. The empty lists get names of their own behind
all names there are. So under the old names there is after a reset what there
would be if the index had been closed, and as many bytes are in use.

## Main results

* `find?_releaseAll`, `inUse_releaseAll` — what is left of lists that are let
  go of.
* `reset_close` — a reset gives back what closing the index does.
-/

namespace InvertedFile

variable {t : ElementType} {i : IdType}

namespace Store

/-- The bytes of those of several lists that have one holder. -/
def soleBytes (s : Store t i) (ids : List ListId) : Nat :=
  (((ids.filterMap s.find?).filter fun h => h.holders ≤ 1).map (·.list.memoryBytes)).sum

theorem soleBytes_cons {s : Store t i} {id : ListId} {holding : Holding t i} {ids : List ListId}
    (hfind : s.find? id = some holding) : s.soleBytes (id :: ids) =
      (if holding.holders ≤ 1 then holding.list.memoryBytes else 0) + s.soleBytes ids := by
  unfold soleBytes
  rw [List.filterMap_cons_some hfind, List.filter_cons]
  by_cases hlast : holding.holders ≤ 1
  · rw [if_pos (decide_eq_true hlast), if_pos hlast, List.map_cons, List.sum_cons]
  · rw [if_neg (by simpa using hlast), if_neg hlast, Nat.zero_add]

/-- What is left of different lists that are let go of, and of all others. -/
theorem find?_releaseAll {s : Store t i} {ids : List ListId} (h : ids.Nodup) {id : ListId}
    {holding : Holding t i} (hfind : s.find? id = some holding) :
    (s.releaseAll ids).find? id = if id ∈ ids then letGo holding else some holding := by
  have hother : ∀ {s : Store t i} {ids : List ListId}, id ∉ ids →
      (s.releaseAll ids).find? id = s.find? id := by
    intro s ids hnot
    induction ids generalizing s with
    | nil => rfl
    | cons other rest ih =>
        rw [List.mem_cons, not_or] at hnot
        exact (ih hnot.2).trans (find?_release_ne s hnot.1)
  induction ids generalizing s with
  | nil => exact hfind
  | cons other rest ih =>
      obtain ⟨hnot, hrest⟩ := List.nodup_cons.mp h
      by_cases heq : id = other
      · subst heq
        rw [if_pos (List.mem_cons_self ..)]
        exact (hother hnot).trans (find?_release_self hfind)
      · have hstay := ih hrest ((find?_release_ne s heq).trans hfind)
        have hmem : id ∈ other :: rest ↔ id ∈ rest := by
          rw [List.mem_cons, or_iff_right heq]
        rw [if_congr hmem rfl rfl]
        exact hstay

/-- The bytes of the lists that are dropped are free again. -/
theorem inUse_releaseAll {s : Store t i} {ids refs : List ListId} {pending : Nat}
    (h : s.Accounts (ids ++ refs) pending) (hnodup : ids.Nodup) :
    (s.releaseAll ids).budget.inUse + s.soleBytes ids = s.budget.inUse := by
  induction ids generalizing s with
  | nil => rfl
  | cons id rest ih =>
      obtain ⟨hnot, hrest⟩ := List.nodup_cons.mp hnodup
      obtain ⟨holding, hfind⟩ := h.found (List.mem_cons_self ..)
      have hbytes := (h.wellFormed hfind).reserved_eq
      have hle := h.reserved_le hfind
      have hothers : rest.filterMap (s.release id).find? = rest.filterMap s.find? := by
        apply List.filterMap_congr
        intro other hother
        exact find?_release_ne s fun heq => hnot (heq ▸ hother)
      have hfreed := ih (Accounts.release h) hrest
      rw [soleBytes, hothers, ← soleBytes] at hfreed
      change ((s.release id).releaseAll rest).budget.inUse + _ = _
      rw [soleBytes_cons hfind]
      by_cases hlast : holding.holders ≤ 1
      · rw [release_last hfind hlast] at hfreed ⊢
        rw [if_pos hlast]
        change _ = s.budget.inUse - holding.list.reserved at hfreed
        omega
      · rw [release_shared hfind hlast] at hfreed ⊢
        rw [if_neg hlast, Nat.zero_add]
        exact hfreed

end Store

namespace Index

/-- How far a reset has come: the lists of the first labels are let go of, those of the others are
still there, and no name has been given out twice. -/
structure LetGoTo (x : Index) (s : Store t i) (labels : Nat) (y : OpenIndex t i) : Prop where
  ahead : ∀ label : Nat, labels ≤ label → y.index.slots[label]? = x.slots[label]?
  size_le : s.lists.size ≤ y.store.lists.size
  same : Store.SameBelow s.lists.size (s.releaseAll (x.slots.toList.take labels)) y.store

theorem letGoTo_step {x : Index} {s : Store t i} (hx : x.Sound s) {label : Nat}
    {y : OpenIndex t i} (hlt : label < x.slots.size) (h : LetGoTo x s label y) :
    ∃ y', (do
        let id ← stored (Store.insert (.empty t i x.spec))
        replaceSlot label id : Action (OpenIndex t i) Unit) y = .ok () y' ∧
      LetGoTo x s (label + 1) y' := by
  have hold : x.slots[label]? = some x.slots[label] := Array.getElem?_eq_getElem hlt
  have hslot : y.index.slots[label]? = some x.slots[label] :=
    (h.ahead label (Nat.le_refl label)).trans hold
  obtain ⟨l, hl, -⟩ := hx.list label _ hold
  obtain ⟨holding, hfind, -⟩ := Store.list?_eq_some_iff.mp hl
  have htaken : (x.slots.toList.take (label + 1)) =
      x.slots.toList.take label ++ [x.slots[label]] := by
    rw [List.take_add_one, Array.getElem?_toList, hold]
    rfl
  refine ⟨_, resetLabel_eq hslot x.spec, ⟨?_, ?_, ?_⟩⟩
  · intro other hother
    have hlt' : label < y.index.slots.size := (Array.getElem?_eq_some_iff.mp hslot).1
    have hne : other ≠ label := by omega
    rw [getElem?_withSlot hlt', if_neg hne, h.ahead other (by omega)]
  · rw [Store.size_lists_release]
    exact Nat.le_trans h.size_le (Array.size_push _ ▸ Nat.le_succ _)
  · rw [htaken, Store.releaseAll, List.foldl_append]
    exact (h.same.pushed h.size_le _).release _ (Store.lt_size_of_find? hfind)

/-- A reset gives back what closing the index does. -/
theorem reset_close {x : Index} {s : Store t i} (hx : x.Sound s) {y : OpenIndex t i}
    (hreset : reset { index := x, store := s } = .ok () y) :
    Store.SameBelow s.lists.size (x.close s) y.store := by
  obtain ⟨z, hrun, hdone⟩ := Action.forM_range_ok (LetGoTo x s)
    (f := fun label => do
      let id ← stored (Store.insert (.empty t i x.spec))
      replaceSlot label id)
    (n := x.slots.size) (s := { index := x, store := s })
    ⟨fun _ _ => rfl, Nat.le_refl _, rfl, fun _ _ => rfl⟩
    fun label y hlt h => letGoTo_step hx hlt h
  have hsame : z = y := by
    have hreset' : reset { index := x, store := s } = .ok () z := hrun
    rw [hreset] at hreset'
    cases hreset'
    rfl
  have htake : x.slots.toList.take x.slots.size = x.slots.toList :=
    List.take_of_length_le (Nat.le_of_eq Array.length_toList)
  rw [← hsame, close, ← htake]
  exact hdone.same

end Index

end InvertedFile
