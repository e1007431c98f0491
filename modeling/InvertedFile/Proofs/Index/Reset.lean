import Mathlib.Data.List.Nodup
import InvertedFile.Proofs.Index.Placing

/-!
# Indexes come, are reset and go

An index comes into a store with the lists it was loaded or made with, one
after the other. A reset puts an empty list in the place of each of them. An
index that goes lets go of all its lists. What these have in common is that
references change hands and no list is written, so that everybody else finds
his lists as they were.

## Main results

* `install_ok` — the lists of an index are taken in.
* `reset_ok` — a reset succeeds, and every list is empty afterwards.
-/

namespace InvertedFile

variable {t : ElementType} {i : IdType}

namespace Store

/-- Lists are taken in one after the other. -/
theorem insertAll_ok {s : Store t i} {refs : List ListId} {pending : Nat}
    {lists : List (InvertedList t i)}
    (h : s.Accounts refs (pending + (lists.map (·.reserved)).sum))
    (hgood : ∀ l ∈ lists, l.WellFormed ∧ l.Hosted) :
    ∃ ids s', lists.mapM Store.insert s = .ok ids s' ∧ s'.Accounts (ids ++ refs) pending ∧
      Leaves refs s s' ∧ s'.budget = s.budget ∧ ids.Nodup ∧
      (∀ id ∈ ids, s.find? id = none) ∧
      ∀ k : Nat, ids[k]?.bind s'.list? = lists[k]? := by
  induction lists generalizing s refs with
  | nil =>
      refine ⟨[], s, rfl, h, Leaves.refl refs s, rfl, List.nodup_nil, ?_, fun _ => rfl⟩
      intro id hid
      cases hid
  | cons l rest ih =>
      rw [List.map_cons, List.sum_cons] at h
      obtain ⟨hwell, hhosted⟩ := hgood l (List.mem_cons_self ..)
      have hhead : s.Accounts refs (pending + (rest.map (·.reserved)).sum + l.reserved) := by
        rwa [Nat.add_assoc, Nat.add_comm _ l.reserved]
      have hpushed := hhead.pushed hwell hhosted
      obtain ⟨ids, s', hrun, hacc, hleaves, hbudget, hnodup, hnew, hlist⟩ :=
        ih hpushed fun l' hl' => hgood l' (List.mem_cons_of_mem l hl')
      have hself : (s.pushed l).list? s.nextId = some l :=
        list?_of_find? (find?_pushed_self s l)
      have hnot : s.nextId ∉ ids := by
        intro hmem
        have hnone := hnew _ hmem
        rw [find?_pushed_self] at hnone
        cases hnone
      refine ⟨s.nextId :: ids, s', ?_, ?_, ?_, hbudget, List.nodup_cons.mpr ⟨hnot, hnodup⟩, ?_, ?_⟩
      · rw [List.mapM_cons, Action.bind_ok (insert_ok s l), Action.bind_ok hrun]
        rfl
      · exact hacc.congr fun id => List.perm_middle.symm.count_eq id
      · exact (Leaves.of_pushed hhead l).trans
          (hleaves.mono fun id hid => List.mem_cons_of_mem _ hid)
      · intro id hid
        rcases List.mem_cons.mp hid with rfl | hid
        · exact find?_nextId s
        · have hne : id ≠ s.nextId := fun heq => hnot (heq ▸ hid)
          rw [← find?_pushed_ne s l hne]
          exact hnew id hid
      · intro k
        cases k with
        | zero =>
            show s'.list? s.nextId = some l
            rw [hleaves _ (List.mem_cons_self ..), hself]
        | succ k => exact hlist k

end Store

/-! ## An index comes -/

/-- The lists of an index that is in no store yet: as many as there are labels, each with the spec
of the index and with no more room than it needs. -/
structure LoadedIndex.Sound (x : LoadedIndex t i) : Prop where
  length_lists : x.lists.length = x.params.lists.toNat
  growth_eq : x.spec.growth = x.params.growth
  list : ∀ l ∈ x.lists, l.spec = x.spec ∧ l.Tight ∧ l.WellFormed ∧ l.Hosted

/-- The lists of an index are taken in. -/
theorem LoadedIndex.install_ok {x : LoadedIndex t i} (hx : x.Sound) {s : Store t i}
    {refs : List ListId} {pending : Nat}
    (h : s.Accounts refs (pending + (x.lists.map (·.reserved)).sum)) :
    ∃ index s', x.install s = .ok index s' ∧ index.params = x.params ∧ index.spec = x.spec ∧
      s'.Accounts (index.slots.toList ++ refs) pending ∧ Store.Leaves refs s s' ∧
      s'.budget = s.budget ∧ index.Sound s' ∧
      ∀ label : Nat, index.slots[label]?.bind s'.list? = x.lists[label]? := by
  obtain ⟨ids, s', hrun, hacc, hleaves, hbudget, hnodup, -, hlist⟩ :=
    Store.insertAll_ok h fun l hl => (hx.list l hl).2.2
  have hlist' : ∀ label : Nat, ids.toArray[label]?.bind s'.list? = x.lists[label]? := by
    intro label
    rw [List.getElem?_toArray]
    exact hlist label
  have hfound : ∀ id ∈ ids, ∃ l, s'.list? id = some l := by
    intro id hid
    obtain ⟨holding, hfind⟩ := hacc.found (List.mem_append_left refs hid)
    exact ⟨holding.list, Store.list?_of_find? hfind⟩
  have hlength : ids.length = x.lists.length := by
    apply Nat.le_antisymm
    · by_contra hlt
      have hget := hlist x.lists.length
      obtain ⟨l, hl⟩ := hfound _ (List.getElem_mem (Nat.not_le.mp hlt))
      rw [List.getElem?_eq_getElem (Nat.not_le.mp hlt), List.getElem?_eq_none (Nat.le_refl _),
        Option.bind_some, hl] at hget
      cases hget
    · by_contra hlt
      have hget := hlist ids.length
      rw [List.getElem?_eq_none (Nat.le_refl _),
        List.getElem?_eq_getElem (Nat.not_le.mp hlt)] at hget
      cases hget
  refine ⟨{ params := x.params, spec := x.spec, slots := ids.toArray }, s', ?_, rfl, rfl, hacc,
    hleaves, hbudget, ⟨?_, hx.growth_eq, hnodup, ?_⟩, hlist'⟩
  · rw [install, Action.bind_ok hrun]
    rfl
  · rw [List.size_toArray, hlength, hx.length_lists]
    rfl
  · intro label id hid
    have hmem : id ∈ ids := by
      rw [List.getElem?_toArray] at hid
      exact List.mem_of_getElem? hid
    obtain ⟨l, hl⟩ := hfound id hmem
    have hget := hlist' label
    rw [hid, Option.bind_some, hl] at hget
    obtain ⟨hspec, htight, -⟩ := hx.list l (List.mem_of_getElem? hget.symm)
    exact ⟨l, hl, hspec, htight⟩

/-! ## A reset -/

namespace Index

theorem nodup_withSlot {x : Index} {label : Nat} {old id : ListId} (hx : x.slots.toList.Nodup)
    (hslot : x.slots[label]? = some old) (hnew : id ∉ x.slots.toList) :
    (x.withSlot label id).slots.toList.Nodup := by
  rw [List.nodup_iff_count_le_one] at hx ⊢
  intro other
  have hcount := count_withSlot hslot id other
  have hle := hx other
  rw [List.count_cons, List.count_cons] at hcount
  by_cases heq : id = other
  · subst heq
    have hzero := List.count_eq_zero.mpr hnew
    rw [beq_self_eq_true, if_pos rfl] at hcount
    omega
  · rw [beq_eq_false_iff_ne.mpr heq] at hcount
    simp only [Bool.false_eq_true, if_false] at hcount
    omega

/-- How an index and its store look when the lists of the first labels are replaced by empty
ones. -/
structure ResetTo (x : Index) (s : Store t i) (refs : List ListId) (labels : Nat)
    (y : OpenIndex t i) : Prop where
  params_eq : y.index.params = x.params
  spec_eq : y.index.spec = x.spec
  size_slots : y.index.slots.size = x.slots.size
  nodup : y.index.slots.toList.Nodup
  accounts : y.store.Accounts (y.index.slots.toList ++ refs) 0
  leaves : Store.Leaves refs s y.store
  list : ∀ label < labels, y.index.slots[label]?.bind y.store.list? = some (.empty t i x.spec)
  limit_eq : y.store.budget.limit = s.budget.limit

/-- The list of a label is replaced by an empty one. -/
theorem resetLabel_eq {y : OpenIndex t i} {label : Nat} {old : ListId}
    (hslot : y.index.slots[label]? = some old) (spec : ListSpec) :
    (do
        let id ← stored (Store.insert (.empty t i spec))
        replaceSlot label id : Action (OpenIndex t i) Unit) y =
      .ok () { index := y.index.withSlot label y.store.nextId
               store := (y.store.pushed (.empty t i spec)).release old } := by
  rw [Action.bind_ok (stored_ok (Store.insert_ok y.store _))]
  exact replaceSlot_ok (x := ⟨y.index, y.store.pushed (.empty t i spec)⟩) hslot _

/-- References change hands when a list that is taken in gets the label of another one. -/
theorem accounts_swapped {y : OpenIndex t i} {refs : List ListId} {label : Nat} {old : ListId}
    {l : InvertedList t i} (hacc : y.store.Accounts (y.index.slots.toList ++ refs) l.reserved)
    (hwell : l.WellFormed) (hhosted : l.Hosted) (hslot : y.index.slots[label]? = some old) :
    (y.store.pushed l).Accounts
      (old :: ((y.index.withSlot label y.store.nextId).slots.toList ++ refs)) 0 := by
  have hpushed := (Nat.zero_add l.reserved ▸ hacc).pushed hwell hhosted
  apply hpushed.congr
  intro other
  have hcount := count_withSlot hslot y.store.nextId other
  simp only [List.count_cons, List.count_append] at hcount ⊢
  omega

/-- What the labels have when one of them has got a list that was taken in. -/
theorem list_swapped {y : OpenIndex t i} {refs : List ListId} {label : Nat} {old : ListId}
    {l : InvertedList t i} {pending : Nat}
    (hacc : y.store.Accounts (y.index.slots.toList ++ refs) pending)
    (hswap : (y.store.pushed l).Accounts
      (old :: ((y.index.withSlot label y.store.nextId).slots.toList ++ refs)) 0)
    (hlt : label < y.index.slots.size) (other : Nat) :
    (y.index.withSlot label y.store.nextId).slots[other]?.bind
        ((y.store.pushed l).release old).list? =
      if other = label then some l else y.index.slots[other]?.bind y.store.list? := by
  have hget := getElem?_withSlot hlt y.store.nextId other
  have hstays : ∀ id, (y.index.withSlot label y.store.nextId).slots[other]? = some id →
      ((y.store.pushed l).release old).list? id = (y.store.pushed l).list? id :=
    fun id hid => Store.Leaves.of_release hswap id (List.mem_append_left refs (mem_of_slot hid))
  by_cases heq : other = label
  · rw [if_pos heq] at hget ⊢
    rw [hget, Option.bind_some, hstays _ hget]
    exact Store.list?_of_find? (Store.find?_pushed_self y.store l)
  · rw [if_neg heq] at hget ⊢
    cases hslot : y.index.slots[other]? with
    | none => rw [hget, hslot, Option.bind_none, Option.bind_none]
    | some id =>
        rw [hslot] at hget
        rw [hget, Option.bind_some, Option.bind_some, hstays id hget]
        exact Store.Leaves.of_pushed hacc l id (List.mem_append_left refs (mem_of_slot hslot))

theorem resetLabel_ok {x : Index} {s : Store t i} {refs : List ListId} {label : Nat}
    {y : OpenIndex t i} (h : ResetTo x s refs label y) (hlt : label < x.slots.size) :
    ∃ y', (do
        let id ← stored (Store.insert (.empty t i x.spec))
        replaceSlot label id : Action (OpenIndex t i) Unit) y = .ok () y' ∧
      ResetTo x s refs (label + 1) y' := by
  have hlt' : label < y.index.slots.size := h.size_slots.symm ▸ hlt
  have hslot : y.index.slots[label]? = some y.index.slots[label] := Array.getElem?_eq_getElem hlt'
  have hnew : y.store.nextId ∉ y.index.slots.toList :=
    fun hmem => h.accounts.nextId_notMem (List.mem_append_left refs hmem)
  have hswap := accounts_swapped (l := .empty t i x.spec) h.accounts
    (InvertedList.wellFormed_empty x.spec) (InvertedList.hosted_empty x.spec) hslot
  refine ⟨{
    index := y.index.withSlot label y.store.nextId
    store := (y.store.pushed (.empty t i x.spec)).release y.index.slots[label] },
    resetLabel_eq hslot x.spec, h.params_eq, h.spec_eq,
    Array.size_setIfInBounds.trans h.size_slots, nodup_withSlot h.nodup hslot hnew,
    hswap.release, ?_, ?_, (Store.limit_release _ _).trans h.limit_eq⟩
  · refine h.leaves.trans (Store.Leaves.trans (b := y.store.pushed (.empty t i x.spec)) ?_ ?_)
    · exact (Store.Leaves.of_pushed h.accounts _).mono fun id hid => List.mem_append_right _ hid
    · exact (Store.Leaves.of_release hswap).mono fun id hid => List.mem_append_right _ hid
  · intro other hother
    rw [list_swapped h.accounts hswap hlt']
    by_cases heq : other = label
    · rw [if_pos heq]
    · rw [if_neg heq]
      exact h.list other (by omega)

/-- A reset succeeds, and every list is empty afterwards. -/
theorem reset_ok {x : Index} {s : Store t i} {refs : List ListId} (hx : x.Sound s)
    (hacc : s.Accounts (x.slots.toList ++ refs) 0) :
    ∃ x' s', reset { index := x, store := s } = .ok () { index := x', store := s' } ∧
      x'.Sound s' ∧ ResetTo x s refs x.slots.size { index := x', store := s' } := by
  obtain ⟨⟨x', s'⟩, hrun, hreset⟩ := Action.forM_range_ok (ResetTo x s refs)
    (f := fun label => do
      let id ← stored (Store.insert (.empty t i x.spec))
      replaceSlot label id)
    (n := x.slots.size) (s := { index := x, store := s })
    ⟨rfl, rfl, rfl, hx.nodup, hacc, Store.Leaves.refl refs s,
      fun label hlt => absurd hlt (Nat.not_lt_zero label), rfl⟩
    fun label y hlt h => resetLabel_ok h hlt
  refine ⟨x', s', hrun, ⟨?_, ?_, hreset.nodup, ?_⟩, hreset⟩
  · rw [hreset.size_slots, hx.size_slots, lists, lists, hreset.params_eq]
  · rw [hreset.spec_eq, hreset.params_eq]
    exact hx.growth_eq
  · intro label id hid
    have hlt : label < x.slots.size :=
      hreset.size_slots ▸ (Array.getElem?_eq_some_iff.mp hid).1
    have hlist := hreset.list label hlt
    rw [hid, Option.bind_some] at hlist
    exact ⟨_, hlist, hreset.spec_eq.symm, InvertedList.tight_empty x.spec⟩

end Index

end InvertedFile
