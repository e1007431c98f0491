import Mathlib.Algebra.Ring.Nat
import InvertedFile.Proofs.InvertedList.Creation
import InvertedFile.Store.Basic

/-!
# The places of a store

Every operation of a store changes what is in one place, and perhaps the
budget. For each of them there is a pair of lemmas here: what is in that place
afterwards, and that every other place is as it was.

A list that is taken in gets a place behind all others. So its name is new,
and nothing that was in the store before is at that place.

## Main results

* `find?_hold_self`, `find?_release_self`, `find?_pushed_self` — the place that
  an operation changes.
* `listBytes_update`, `listBytes_pushed` — the bytes of all lists together.
-/

namespace InvertedFile.Store

variable {t : ElementType} {i : IdType}

theorem find?_eq_some_iff {s : Store t i} {id : ListId} {h : Holding t i} :
    s.find? id = some h ↔ s.lists[id.number]? = some (some h) := by
  simp [find?, Option.join_eq_some_iff]

theorem list?_eq_some_iff {s : Store t i} {id : ListId} {l : InvertedList t i} :
    s.list? id = some l ↔ ∃ h, s.find? id = some h ∧ h.list = l := by
  simp [list?]

theorem list?_of_find? {s : Store t i} {id : ListId} {h : Holding t i}
    (hfind : s.find? id = some h) : s.list? id = some h.list := by
  rw [list?, hfind]
  rfl

theorem list?_congr {s s' : Store t i} {id : ListId} (h : s'.find? id = s.find? id) :
    s'.list? id = s.list? id := by
  rw [list?, list?, h]

theorem holding_ok {s : Store t i} {id : ListId} {h : Holding t i} (hfind : s.find? id = some h) :
    holding id s = .ok h s := by
  rw [holding, Action.bind_ok (Action.get_ok s), hfind]
  rfl

theorem holding_error {s : Store t i} {id : ListId} (hfind : s.find? id = none) :
    holding id s = .error (.fault .unknownList) s := by
  rw [holding, Action.bind_ok (Action.get_ok s), hfind]
  rfl

/-! ## Changing one list -/

theorem update_update (s : Store t i) (id : ListId) (h h' : Option (Holding t i)) :
    (s.update id h).update id h' = s.update id h' := by
  simp only [update, Array.setIfInBounds_setIfInBounds]

theorem update_self {s : Store t i} {id : ListId} {h : Holding t i} (hfind : s.find? id = some h) :
    s.update id (some h) = s := by
  have hlists : s.lists.setIfInBounds id.number (some h) = s.lists := by
    apply Array.ext_getElem?
    intro k
    rw [Array.getElem?_setIfInBounds]
    split
    · next heq =>
        subst heq
        rw [find?_eq_some_iff.mp hfind, if_pos]
        exact (Array.getElem?_eq_some_iff.mp (find?_eq_some_iff.mp hfind)).1
    · rfl
  rw [update, hlists]

section OnList

variable {α : Type} {s : Store t i} {id : ListId} {h : Holding t i}
  {act : Action (InvertedList t i) α} {l : InvertedList t i}

theorem onList_ok {a : α} (hfind : s.find? id = some h) (hact : act h.list = .ok a l) :
    onList id act s = .ok a (s.update id (some { h with list := l })) := by
  simp only [onList, hfind, hact]

theorem onList_error {e : Error} (hfind : s.find? id = some h) (hact : act h.list = .error e l) :
    onList id act s = .error e (s.update id (some { h with list := l })) := by
  simp only [onList, hfind, hact]

variable (act) in
theorem onList_none (hfind : s.find? id = none) :
    onList id act s = .error (.fault .unknownList) s := by
  rw [onList, hfind]

end OnList

/-! ## Holding and letting go -/

theorem hold_of_find? {s : Store t i} {id : ListId} {h : Holding t i}
    (hfind : s.find? id = some h) :
    s.hold id = s.update id (some { h with holders := h.holders + 1 }) := by
  rw [hold, hfind]

theorem find?_hold_self {s : Store t i} {id : ListId} {h : Holding t i}
    (hfind : s.find? id = some h) :
    (s.hold id).find? id = some { h with holders := h.holders + 1 } := by
  rw [hold_of_find? hfind, find?_update_self s _ hfind]

theorem find?_hold_ne (s : Store t i) {id other : ListId} (hne : other ≠ id) :
    (s.hold id).find? other = s.find? other := by
  unfold hold
  split
  · rfl
  · exact find?_update_ne s _ hne

theorem list?_hold (s : Store t i) (id other : ListId) :
    (s.hold id).list? other = s.list? other := by
  by_cases heq : other = id
  · subst heq
    cases hfind : s.find? other with
    | none => rw [hold, hfind]
    | some h => rw [list?_of_find? (find?_hold_self hfind), list?_of_find? hfind]
  · exact list?_congr (find?_hold_ne s heq)

@[simp]
theorem budget_hold (s : Store t i) (id : ListId) : (s.hold id).budget = s.budget := by
  unfold hold
  split <;> rfl

theorem release_last {s : Store t i} {id : ListId} {h : Holding t i} (hfind : s.find? id = some h)
    (hlast : h.holders ≤ 1) :
    s.release id = { s.update id none with budget := s.budget.release h.list.reserved } := by
  rw [release, hfind]
  exact if_pos hlast

theorem release_shared {s : Store t i} {id : ListId} {h : Holding t i}
    (hfind : s.find? id = some h) (hshared : ¬ h.holders ≤ 1) :
    s.release id = s.update id (some { h with holders := h.holders - 1 }) := by
  rw [release, hfind]
  exact if_neg hshared

theorem find?_release_last {s : Store t i} {id : ListId} {h : Holding t i}
    (hfind : s.find? id = some h) (hlast : h.holders ≤ 1) : (s.release id).find? id = none := by
  rw [release_last hfind hlast]
  exact find?_update_self s none hfind

theorem find?_release_shared {s : Store t i} {id : ListId} {h : Holding t i}
    (hfind : s.find? id = some h) (hshared : ¬ h.holders ≤ 1) :
    (s.release id).find? id = some { h with holders := h.holders - 1 } := by
  rw [release_shared hfind hshared, find?_update_self s _ hfind]

/-- What there is of a list when one of its holders has let go. -/
def letGo (h : Holding t i) : Option (Holding t i) :=
  if h.holders ≤ 1 then none else some { h with holders := h.holders - 1 }

theorem find?_release_self {s : Store t i} {id : ListId} {h : Holding t i}
    (hfind : s.find? id = some h) : (s.release id).find? id = letGo h := by
  unfold letGo
  by_cases hlast : h.holders ≤ 1
  · rw [if_pos hlast, find?_release_last hfind hlast]
  · rw [if_neg hlast, find?_release_shared hfind hlast]

theorem size_lists_release (s : Store t i) (id : ListId) :
    (s.release id).lists.size = s.lists.size := by
  unfold release
  split
  · rfl
  · split <;> exact Array.size_setIfInBounds

@[simp]
theorem limit_release (s : Store t i) (id : ListId) :
    (s.release id).budget.limit = s.budget.limit := by
  unfold release
  split
  · rfl
  · split <;> rfl

@[simp]
theorem limit_releaseAll (s : Store t i) (ids : List ListId) :
    (s.releaseAll ids).budget.limit = s.budget.limit := by
  induction ids generalizing s with
  | nil => rfl
  | cons id rest ih => exact (ih (s.release id)).trans (limit_release s id)

theorem find?_release_ne (s : Store t i) {id other : ListId} (hne : other ≠ id) :
    (s.release id).find? other = s.find? other := by
  unfold release
  split
  · rfl
  · split
    · exact find?_update_ne s none hne
    · exact find?_update_ne s _ hne

/-! ## Taking in -/

/-- The name of the next list that is taken in. -/
def nextId (s : Store t i) : ListId where
  number := s.lists.size

/-- A store against whose budget more bytes are charged. -/
def charged (s : Store t i) (bytes : Nat) : Store t i :=
  { s with budget := s.budget.charged bytes }

/-- A store with one list more, which has one holder. -/
def pushed (s : Store t i) (list : InvertedList t i) : Store t i :=
  { s with lists := s.lists.push (some { list, holders := 1, writing := false }) }

theorem insert_ok (s : Store t i) (list : InvertedList t i) :
    insert list s = .ok s.nextId (s.pushed list) := rfl

theorem find?_nextId (s : Store t i) : s.find? s.nextId = none := by
  simp [find?, nextId]

theorem lt_size_of_find? {s : Store t i} {id : ListId} {h : Holding t i}
    (hfind : s.find? id = some h) : id.number < s.lists.size := by
  by_contra hge
  rw [find?, Array.getElem?_eq_none (Nat.not_lt.mp hge)] at hfind
  cases hfind

theorem ne_nextId {s : Store t i} {id : ListId} {h : Holding t i} (hfind : s.find? id = some h) :
    id ≠ s.nextId := by
  rintro rfl
  rw [find?_nextId] at hfind
  cases hfind

theorem find?_pushed_self (s : Store t i) (list : InvertedList t i) :
    (s.pushed list).find? s.nextId = some { list, holders := 1, writing := false } := by
  simp [find?, pushed, nextId]

theorem find?_pushed_ne (s : Store t i) (list : InvertedList t i) {id : ListId}
    (hne : id ≠ s.nextId) : (s.pushed list).find? id = s.find? id := by
  have hnumber : id.number ≠ s.lists.size := fun heq => hne (by
    cases id
    exact congrArg ListId.mk heq)
  rw [find?, find?, pushed, Array.getElem?_push, if_neg hnumber]

/-! ## The bytes of all lists -/

/-- Bytes charged for what is in a place. -/
def placeBytes : Option (Holding t i) → Nat
  | none => 0
  | some h => h.list.reserved

/-- Bytes charged for all lists together. -/
def listBytes (s : Store t i) : Nat :=
  (s.lists.toList.map placeBytes).sum

private theorem sum_map_set {α : Type} (f : α → Nat) {xs : List α} {k : Nat} {a : α} (b : α)
    (h : xs[k]? = some a) : ((xs.set k b).map f).sum + f a = (xs.map f).sum + f b := by
  induction xs generalizing k with
  | nil => simp at h
  | cons x rest ih =>
      cases k with
      | zero =>
          simp only [List.getElem?_cons_zero, Option.some.injEq] at h
          subst h
          simp only [List.set_cons_zero, List.map_cons, List.sum_cons]
          omega
      | succ k =>
          have hrest := ih (List.getElem?_cons_succ ▸ h)
          simp only [List.set_cons_succ, List.map_cons, List.sum_cons]
          omega

theorem listBytes_update {s : Store t i} {id : ListId} {old : Holding t i}
    (hfind : s.find? id = some old) (h : Option (Holding t i)) :
    (s.update id h).listBytes + old.list.reserved = s.listBytes + placeBytes h := by
  have hplace : s.lists.toList[id.number]? = some (some old) := by
    rw [Array.getElem?_toList]
    exact find?_eq_some_iff.mp hfind
  rw [listBytes, listBytes, update, Array.toList_setIfInBounds]
  exact sum_map_set placeBytes h hplace

theorem listBytes_pushed (s : Store t i) (list : InvertedList t i) :
    (s.pushed list).listBytes = s.listBytes + list.reserved := by
  simp [listBytes, pushed, placeBytes]

private theorem listBytes_eq_sum_range {s : Store t i} {n : Nat} (hn : s.lists.size ≤ n) :
    s.listBytes = ((List.range n).map fun k => placeBytes (s.find? ⟨k⟩)).sum := by
  obtain ⟨more, rfl⟩ := Nat.exists_eq_add_of_le hn
  induction more with
  | zero =>
      have hmap : s.lists.toList.map placeBytes =
          (List.range s.lists.size).map fun k => placeBytes (s.find? ⟨k⟩) := by
        apply List.ext_getElem?
        intro k
        rw [List.getElem?_map, List.getElem?_map, Array.getElem?_toList]
        by_cases hk : k < s.lists.size
        · simp [hk, find?]
        · simp [hk]
      rw [listBytes, hmap]
      rfl
  | succ more ih =>
      have hbeyond : s.find? ⟨s.lists.size + more⟩ = none := by
        simp [find?]
      rw [ih (Nat.le_add_right _ _), ← Nat.add_assoc, List.range_succ]
      simp [hbeyond, placeBytes]

/-- Stores with the same lists take the same bytes. -/
theorem listBytes_congr {s s' : Store t i} (h : ∀ id, s'.find? id = s.find? id) :
    s'.listBytes = s.listBytes := by
  rw [listBytes_eq_sum_range (Nat.le_max_left s'.lists.size s.lists.size),
    listBytes_eq_sum_range (Nat.le_max_right s'.lists.size s.lists.size)]
  congr 1
  apply List.map_congr_left
  intro k _
  rw [h]

/-- A list takes a part of the bytes of all lists. -/
theorem reserved_le_listBytes {s : Store t i} {id : ListId} {h : Holding t i}
    (hfind : s.find? id = some h) : h.list.reserved ≤ s.listBytes := by
  have hsum := listBytes_update hfind none
  simp only [placeBytes] at hsum
  omega

/-- A store without some of its lists has the bytes of the others. -/
private theorem sum_reserved_add (s : Store t i) {ids : List ListId} (h : ids.Nodup) :
    ∃ rest : Store t i,
      ((ids.filterMap s.list?).map (·.reserved)).sum + rest.listBytes = s.listBytes ∧
      ∀ id, rest.find? id = if id ∈ ids then none else s.find? id := by
  induction ids generalizing s with
  | nil => exact ⟨s, Nat.zero_add _, fun _ => rfl⟩
  | cons id rest ih =>
      rw [List.nodup_cons] at h
      cases hfind : s.find? id with
      | none =>
          have hnone : s.list? id = none := by rw [list?, hfind]; rfl
          obtain ⟨others, hsum, hothers⟩ := ih s h.2
          refine ⟨others, ?_, fun other => ?_⟩
          · rw [List.filterMap_cons_none hnone, hsum]
          · by_cases heq : other = id
            · rw [heq, hothers, if_neg h.1, hfind, if_pos (List.mem_cons_self ..)]
            · simp [hothers, heq]
      | some holding =>
          -- without the first list, the others are as they were
          have hother : rest.filterMap (s.update id none).list? = rest.filterMap s.list? := by
            apply List.filterMap_congr
            intro other hother
            have hne : other ≠ id := fun heq => h.1 (heq ▸ hother)
            exact list?_congr (find?_update_ne s none hne)
          have hbytes := listBytes_update hfind none
          obtain ⟨others, hsum, hothers⟩ := ih (s.update id none) h.2
          refine ⟨others, ?_, fun other => ?_⟩
          · rw [hother] at hsum
            rw [List.filterMap_cons_some (list?_of_find? hfind), List.map_cons, List.sum_cons]
            simp only [placeBytes] at hbytes
            omega
          · by_cases heq : other = id
            · rw [heq, hothers, if_neg h.1, find?_update_self s none hfind,
                if_pos (List.mem_cons_self ..)]
            · simp [hothers, heq, find?_update_ne s none heq]

/-- Different lists take a part of the bytes of all lists. -/
theorem sum_reserved_le (s : Store t i) {ids : List ListId} (h : ids.Nodup) :
    ((ids.filterMap s.list?).map (·.reserved)).sum ≤ s.listBytes := by
  obtain ⟨rest, hsum, -⟩ := sum_reserved_add s h
  omega

/-- Lists among which all lists are take the bytes of all lists. -/
theorem sum_reserved_eq (s : Store t i) {ids : List ListId} (h : ids.Nodup)
    (hall : ∀ id, (s.find? id).isSome → id ∈ ids) :
    ((ids.filterMap s.list?).map (·.reserved)).sum = s.listBytes := by
  obtain ⟨rest, hsum, hrest⟩ := sum_reserved_add s h
  have hempty : ∀ id, rest.find? id = none := by
    intro id
    rw [hrest]
    split
    · rfl
    · next hnot => exact Option.not_isSome_iff_eq_none.mp fun hsome => hnot (hall id hsome)
  have hzero : rest.listBytes = 0 := by
    rw [listBytes_eq_sum_range (Nat.le_refl _)]
    simp [hempty, placeBytes]
  omega

end InvertedFile.Store
