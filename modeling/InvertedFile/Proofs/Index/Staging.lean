import InvertedFile.Proofs.Index.Batch
import InvertedFile.Proofs.Index.Sound
import InvertedFile.Proofs.Store.Resize

/-!
# Room for a batch

Before a row is written every list that receives rows is given room for them.
A list that has the room is held once more; for one that has not, a new list
is made with a copy of its records. Neither changes what anybody sees: the
lists that are referred to are as they were, and the new lists are in no
index.

What has been staged can be given up again, and then the store is the one it
was, down to the bytes in use and the counts. So a refusal, for whichever of
the lists, leaves nothing behind.

## Main results

* `StagedOne.notMem` — no list is staged for two portions.
* `stage_cases`, `stageAll_cases` — room is found for all portions, or the
  store is as before.
-/

namespace InvertedFile.Index

variable {t : ElementType} {i : IdType}

/-- A staged list has room for its portion. It is the list of the label, where that has the room;
and otherwise a new one with the same records, of the capacity that their number with the portion
asks for. -/
def Ready (x : Index) (s s' : Store t i) (st : Staged t i) : Prop :=
  ∃ old l, x.slots[st.portion.label]? = some old ∧ s.list? old = some l ∧
    ((st.list = old ∧ l.size + st.portion.ids.size ≤ l.capacity) ∨
      (s.list? st.list = none ∧ l.capacity < l.size + st.portion.ids.size ∧
        ∃ capacity after,
          x.spec.growth.capacity? (l.size + st.portion.ids.size) = some capacity ∧
          s'.list? st.list = some after ∧
          l.Copied (.blank t i x.spec capacity) l.size after))

section Undo

variable {s : Store t i} {id : ListId} {h : Holding t i}

/-- A new list that is given up again leaves no trace, and neither does the holder that was counted
while it was made. -/
theorem release_replaced_hold (hfind : s.find? id = some h) (hheld : 0 < h.holders)
    (list : InvertedList t i) :
    Store.Same s (((s.hold id).replaced id list).release s.nextId) := by
  let pushed := ((s.hold id).charged list.reserved).pushed list
  have hnext : ((s.hold id).charged list.reserved).nextId = s.nextId := by
    rw [Store.hold_of_find? hfind]
    exact congrArg ListId.mk Array.size_setIfInBounds
  have hne : id ≠ s.nextId := Store.ne_nextId hfind
  have hold : pushed.find? id = some { h with holders := h.holders + 1 } := by
    rw [Store.find?_pushed_ne _ _ (hnext ▸ hne)]
    exact Store.find?_hold_self hfind
  have hshared : ¬ h.holders + 1 ≤ 1 := by omega
  have hnew : (pushed.release id).find? s.nextId =
      some { list, holders := 1, writing := false } := by
    rw [Store.find?_release_ne _ (Ne.symm hne), ← hnext]
    exact Store.find?_pushed_self _ list
  constructor
  · rw [Store.replaced, Store.release_last hnew (Nat.le_refl 1), Store.release_shared hold hshared]
    show ((s.hold id).budget.charged list.reserved).release list.reserved = s.budget
    rw [Store.budget_hold, Budget.release_charged]
  · intro other
    by_cases hself : other = s.nextId
    · subst hself
      rw [Store.replaced, Store.find?_release_last hnew (Nat.le_refl 1), Store.find?_nextId]
    · rw [Store.find?_release_ne _ hself, Store.replaced]
      by_cases heq : other = id
      · subst heq
        rw [Store.find?_release_shared hold hshared, hfind]
        rfl
      · rw [Store.find?_release_ne _ heq, Store.find?_pushed_ne _ _ (hnext ▸ hself)]
        exact Store.find?_hold_ne s heq

end Undo

variable {x : Index} {s : Store t i} {refs : List ListId} {pending : Nat}

/-- What a portion comes to that room is found for: the list can be given up again, and nobody sees
anything of it. -/
structure StagedOne (x : Index) (s : Store t i) (refs : List ListId) (pending : Nat)
    (p : Portion t i) (st : Staged t i) (s' : Store t i) : Prop where
  portion_eq : st.portion = p
  accounts : s'.Accounts (st.list :: refs) pending
  leaves : Store.Leaves refs s s'
  ready : Ready x s s' st
  undone : Store.Same s (s'.release st.list)
  limit_eq : s'.budget.limit = s.budget.limit

/-- The list of a label is held while room is made in it. -/
theorem stage_eq {p : Portion t i} {old : ListId} (hslot : x.slots[p.label]? = some old)
    {h : Holding t i} (hfind : s.find? old = some h) :
    stage x p s = (Action.undoing (Store.release old) (do
      let list ← Store.resize old x.spec (h.list.size + p.ids.size) h.list.size
      return { portion := p, list }) : Action (Store t i) (Staged t i)) (s.hold old) := by
  rw [stage, Action.bind_ok (Action.ofExcept_ok (slot_ok hslot) s),
    Action.bind_ok (Store.holding_ok hfind)]
  rfl

/-- Room is found for a portion, or the store is as before. -/
theorem stage_cases (hx : x.Sound s) (hacc : s.Accounts refs pending) {p : Portion t i}
    {old : ListId} (hslot : x.slots[p.label]? = some old) (hmem : old ∈ refs) :
    (∃ e s', stage x p s = .error e s' ∧ Store.Same s s' ∧ e.IsAllocation) ∨
      ∃ st s', stage x p s = .ok st s' ∧ StagedOne x s refs pending p st s' := by
  obtain ⟨h, hfind⟩ := hacc.found hmem
  have hheld := hacc.holders_pos hfind
  have hwell := hacc.wellFormed hfind
  have hlist := Store.list?_of_find? hfind
  obtain ⟨hspec, -⟩ := hx.spec_tight hslot hlist
  have haccHold := hacc.hold hmem
  have hfindHold := Store.find?_hold_self hfind
  have hopen := stage_eq hslot hfind
  have hkeep : min h.list.size (h.list.size + p.ids.size) = h.list.size :=
    Nat.min_eq_left (Nat.le_add_right _ _)
  rcases Store.resize_cases hfindHold hwell x.spec (h.list.size + p.ids.size) h.list.size with
    ⟨e, hresize, hwhy⟩ | ⟨-, -, ⟨hroom, -, -, hstay⟩ | ⟨-, -, hcut, -⟩ |
      ⟨hwhy, capacity, after, hcapacity, hgranted, hreplaced, hcopied⟩⟩
  · -- the resize is refused, and the holder that was counted goes again
    left
    refine ⟨e, (s.hold old).release old, ?_, Store.Same.release_hold hfind hheld, ?_⟩
    · rw [hopen]
      exact Action.undoing_error.mpr ⟨_, Action.bind_error hresize, rfl⟩
    · rcases hwhy with hdim | hused | ⟨-, he, -⟩
      · exact absurd (congrArg ListSpec.dim hspec.symm) hdim
      · exact absurd hused (Nat.lt_irrefl _)
      · exact he
  · right
    refine ⟨{ portion := p, list := old }, s.hold old, ?_, rfl, haccHold, ?_, ?_, ?_, ?_⟩
    · rw [hopen]
      exact Action.undoing_ok.mpr (Action.bind_ok hstay)
    · exact Store.Leaves.of_hold refs s old
    · exact ⟨old, h.list, hslot, hlist, Or.inl ⟨rfl, hroom⟩⟩
    · exact Store.Same.release_hold hfind hheld
    · rw [Store.budget_hold]
  · exact absurd hkeep hcut
  · right
    have hgrow : h.list.capacity < h.list.size + p.ids.size := by
      rcases hwhy with hfits | ⟨hcut, -⟩
      · by_contra hroom
        exact hfits ⟨Nat.not_lt.mp hroom, congrArg ListSpec.layout hspec.symm⟩
      · exact absurd hkeep hcut
    have hnext : (s.hold old).nextId = s.nextId := by
      rw [Store.hold_of_find? hfind]
      exact congrArg ListId.mk Array.size_setIfInBounds
    have hfits : min h.list.size (h.list.size + p.ids.size) ≤ capacity :=
      Nat.le_trans (Nat.min_le_right _ _) (Growth.le_capacity hcapacity)
    obtain ⟨haccNew, hleaves⟩ := haccHold.replaced hcapacity hgranted hcopied hfits
    rw [hkeep] at hcopied
    rw [hnext] at hreplaced haccNew
    refine ⟨{ portion := p, list := s.nextId }, (s.hold old).replaced old after, ?_, rfl, haccNew,
      ?_, ?_, ?_, ?_⟩
    · rw [hopen]
      exact Action.undoing_ok.mpr (Action.bind_ok hreplaced)
    · exact (Store.Leaves.of_hold refs s old).trans hleaves
    · refine ⟨old, h.list, hslot, hlist, Or.inr ⟨?_, hgrow, capacity, after, hcapacity, ?_, hcopied⟩⟩
      · rw [Store.list?, Store.find?_nextId]
        rfl
      · have hne : s.nextId ≠ old := Ne.symm (Store.ne_nextId hfind)
        rw [Store.replaced, Store.list?_congr (Store.find?_release_ne _ hne), ← hnext]
        exact Store.list?_of_find? (Store.find?_pushed_self _ after)
    · exact release_replaced_hold hfind hheld after
    · rw [Store.limit_replaced, Store.budget_hold]

/-- What the portions of a batch come to when room is found for all of them. -/
structure StagedAll (x : Index) (s : Store t i) (refs : List ListId) (pending : Nat)
    (ps : List (Portion t i)) (staged : List (Staged t i)) (s' : Store t i) : Prop where
  portions_eq : staged.map (·.portion) = ps
  accounts : s'.Accounts (staged.map (·.list) ++ refs) pending
  leaves : Store.Leaves refs s s'
  nodup : (staged.map (·.list)).Nodup
  ready : ∀ st ∈ staged, Ready x s s' st
  limit_eq : s'.budget.limit = s.budget.limit

theorem Ready.mono {s₁ s₂ : Store t i} {st : Staged t i} (h : Ready x s s₁ st)
    (hleaves : s₂.list? st.list = s₁.list? st.list) : Ready x s s₂ st := by
  obtain ⟨old, l, hold, hl, hstay | ⟨hnew, hgrow, capacity, after, hcapacity, hafter, hcopied⟩⟩ := h
  · exact ⟨old, l, hold, hl, Or.inl hstay⟩
  · exact ⟨old, l, hold, hl,
      Or.inr ⟨hnew, hgrow, capacity, after, hcapacity, hleaves.trans hafter, hcopied⟩⟩

/-- What is ready for a store is ready for the store from before another portion was staged. -/
theorem Ready.of_leaves {s₁ s₂ : Store t i} {st : Staged t i} (hacc : s.Accounts refs pending)
    (hslots : ∀ id ∈ x.slots.toList, id ∈ refs) (hleaves : Store.Leaves refs s s₁)
    (h : Ready x s₁ s₂ st) : Ready x s s₂ st := by
  obtain ⟨old, l, hold, hl, hcases⟩ := h
  have hmem : old ∈ refs := hslots old (mem_of_slot hold)
  refine ⟨old, l, hold, (hleaves old hmem).symm.trans hl, ?_⟩
  rcases hcases with hstay | ⟨hnew, hgrow, hrest⟩
  · exact Or.inl hstay
  · refine Or.inr ⟨?_, hgrow, hrest⟩
    cases hfound : s.list? st.list with
    | none => rfl
    | some l' =>
        obtain ⟨h', hfind', -⟩ := Store.list?_eq_some_iff.mp hfound
        have hsame := hleaves st.list (hacc.mem hfind')
        rw [hnew, hfound] at hsame
        cases hsame

section Cons

variable {p : Portion t i} {ps : List (Portion t i)} {st : Staged t i} {staged : List (Staged t i)}
  {s₁ s₂ : Store t i}

/-- The list that was staged first is not staged again: a later one is another slot's list, or new
to a store that has the first one. -/
theorem StagedOne.notMem (hone : StagedOne x s refs pending p st s₁)
    (hall : StagedAll x s₁ (st.list :: refs) pending ps staged s₂) (hx : x.Sound s)
    (hacc : s.Accounts refs pending) (hslots : ∀ id ∈ x.slots.toList, id ∈ refs)
    (hfresh : p.label ∉ ps.map Portion.label) : st.list ∉ staged.map (·.list) := by
  intro hdup
  obtain ⟨st', hst', heq⟩ := List.mem_map.mp hdup
  obtain ⟨old', l', hold', -, ⟨hstay', -⟩ | ⟨hnew', -⟩⟩ := hall.ready st' hst'
  · obtain ⟨old, l, hold, -, ⟨hstay, -⟩ | ⟨hnew, -⟩⟩ := hone.ready
    · have holds : old' = old := by rw [← hstay', heq, hstay]
      rw [holds] at hold'
      have hlabel := hx.slot_inj hold hold'
      apply hfresh
      rw [← hone.portion_eq, hlabel, ← hall.portions_eq, List.map_map]
      exact List.mem_map.mpr ⟨st', hst', rfl⟩
    · obtain ⟨h, hfind⟩ :=
        hacc.found (hslots old' (mem_of_slot hold'))
      rw [← heq, hstay', Store.list?_of_find? hfind] at hnew
      cases hnew
  · obtain ⟨h, hfind⟩ := hone.accounts.found (List.mem_cons_self ..)
    rw [heq, Store.list?_of_find? hfind] at hnew'
    cases hnew'

/-- Room that is found for one portion, and then for others, is found for all of them. -/
theorem StagedOne.cons (hone : StagedOne x s refs pending p st s₁)
    (hall : StagedAll x s₁ (st.list :: refs) pending ps staged s₂) (hx : x.Sound s)
    (hacc : s.Accounts refs pending) (hslots : ∀ id ∈ x.slots.toList, id ∈ refs)
    (hfresh : p.label ∉ ps.map Portion.label) :
    StagedAll x s refs pending (p :: ps) (st :: staged) s₂ where
  portions_eq := by rw [List.map_cons, hone.portion_eq, hall.portions_eq]
  accounts := hall.accounts.congr fun id => List.perm_middle.symm.count_eq id
  leaves := hone.leaves.trans (hall.leaves.mono fun id hid => List.mem_cons_of_mem _ hid)
  nodup := List.nodup_cons.mpr ⟨hone.notMem hall hx hacc hslots hfresh, hall.nodup⟩
  ready := by
    intro st' hst'
    rcases List.mem_cons.mp hst' with rfl | hst'
    · exact hone.ready.mono (hall.leaves _ (List.mem_cons_self ..))
    · exact (hall.ready st' hst').of_leaves hacc hslots hone.leaves
  limit_eq := hall.limit_eq.trans hone.limit_eq

end Cons

/-- Room is found for all portions, or the store is as before. -/
theorem stageAll_cases (hx : x.Sound s) (hacc : s.Accounts refs pending)
    (hslots : ∀ id ∈ x.slots.toList, id ∈ refs) {ps : List (Portion t i)}
    (hlabels : ∀ p ∈ ps, p.label < x.slots.size) (hnodup : (ps.map Portion.label).Nodup) :
    (∃ e s', stageAll x ps s = .error e s' ∧ Store.Same s s' ∧ e.IsAllocation) ∨
      ∃ staged s', stageAll x ps s = .ok staged s' ∧
        StagedAll x s refs pending ps staged s' := by
  induction ps generalizing s refs with
  | nil =>
      right
      exact ⟨[], s, rfl, rfl, hacc, Store.Leaves.refl refs s, List.nodup_nil,
        (fun st hst => nomatch hst), rfl⟩
  | cons p rest ih =>
      rw [List.map_cons, List.nodup_cons] at hnodup
      have hlt := hlabels p (List.mem_cons_self ..)
      have hslot : x.slots[p.label]? = some x.slots[p.label] := Array.getElem?_eq_getElem hlt
      have hmem : x.slots[p.label] ∈ refs := hslots _ (mem_of_slot hslot)
      rcases stage_cases hx hacc hslot hmem with
        ⟨e, s', hstage, hsame, he⟩ | ⟨st, s₁, hstage, hone⟩
      · exact Or.inl ⟨e, s', Action.bind_error hstage, hsame, he⟩
      have hx₁ : x.Sound s₁ := hx.keeps hacc (hone.leaves.mono hslots).keeps
      have hslots₁ : ∀ id ∈ x.slots.toList, id ∈ st.list :: refs :=
        fun id hid => List.mem_cons_of_mem _ (hslots id hid)
      rcases ih hx₁ hone.accounts hslots₁ (fun q hq => hlabels q (List.mem_cons_of_mem p hq))
        hnodup.2 with ⟨e, s', hrest, hsame, he⟩ | ⟨staged, s₂, hrest, hall⟩
      · -- the rest is refused, and the list that was staged first is given up
        left
        refine ⟨e, s'.release st.list, ?_, hone.undone.trans (hsame.release st.list), he⟩
        rw [stageAll, Action.bind_ok hstage]
        exact Action.bind_error (Action.undoing_error.mpr ⟨s', hrest, rfl⟩)
      · right
        refine ⟨st :: staged, s₂, ?_, hone.cons hall hx hacc hslots hnodup.1⟩
        rw [stageAll, Action.bind_ok hstage, Action.bind_ok (Action.undoing_ok.mpr hrest)]
        rfl

end InvertedFile.Index
