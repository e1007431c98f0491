import Mathlib.Data.List.Perm.Basic
import InvertedFile.Proofs.Index.Extend

/-!
# Orders of writing portions

When room has been found for all portions of a batch, each portion is written
by a task of its own: it appends to the list that is staged for it, and gives
that list its label. The staged lists are different lists and the labels are
different labels, so no task looks at what another one writes.

That the order of the tasks does not matter is read off what a run of them
comes to. The lists, the counts of their holders and the slots are known from
`Placed` and from the accounts, whatever the order, and a store is nothing
more than that, once it is known that tasks take in no list and leave every
writer where it is.

## Main results

* `Store.SamePlaces` — no list is taken in, and no writer is taken or put back.
* `Store.eq_of_accounts` — two stores with the same lists, held alike, are one
  store.
* `forM_place_perm` — portions are written in any order with the same outcome.
-/

namespace InvertedFile

variable {t : ElementType} {i : IdType}

namespace Store

/-- A store with the places of another one. What is still there has its writer where it was. -/
structure SamePlaces (s s' : Store t i) : Prop where
  size_eq : s'.lists.size = s.lists.size
  writing_eq : ∀ id h', s'.find? id = some h' →
    ∃ h, s.find? id = some h ∧ h'.writing = h.writing

namespace SamePlaces

variable {s s' : Store t i}

theorem refl (s : Store t i) : SamePlaces s s :=
  ⟨rfl, fun _ h hfind => ⟨h, hfind, rfl⟩⟩

theorem trans {a b c : Store t i} (hab : SamePlaces a b) (hbc : SamePlaces b c) :
    SamePlaces a c where
  size_eq := hbc.size_eq.trans hab.size_eq
  writing_eq := by
    intro id h'' hfind''
    obtain ⟨h', hfind', hwriting'⟩ := hbc.writing_eq id h'' hfind''
    obtain ⟨h, hfind, hwriting⟩ := hab.writing_eq id h' hfind'
    exact ⟨h, hfind, hwriting'.trans hwriting⟩

/-- What is in one place is changed, or goes. -/
theorem of_place {id : ListId} {old : Holding t i} (hfind : s.find? id = some old)
    (hsize : s'.lists.size = s.lists.size)
    (hself : ∀ new, s'.find? id = some new → new.writing = old.writing)
    (hother : ∀ other ≠ id, s'.find? other = s.find? other) : SamePlaces s s' where
  size_eq := hsize
  writing_eq := by
    intro other new hnew
    by_cases heq : other = id
    · subst heq
      exact ⟨old, hfind, hself new hnew⟩
    · rw [hother other heq] at hnew
      exact ⟨new, hnew, rfl⟩

theorem update {id : ListId} {old new : Holding t i} (hfind : s.find? id = some old)
    (hwriting : new.writing = old.writing) : SamePlaces s (s.update id (some new)) := by
  apply of_place hfind
  · exact Array.size_setIfInBounds
  · intro h hself
    rw [find?_update_self s _ hfind] at hself
    cases hself
    exact hwriting
  · exact fun other hne => find?_update_ne s _ hne

theorem hold (s : Store t i) (id : ListId) : SamePlaces s (s.hold id) := by
  cases hfind : s.find? id with
  | none =>
      rw [Store.hold, hfind]
      exact refl s
  | some h =>
      rw [hold_of_find? hfind]
      exact update hfind rfl

theorem release (s : Store t i) (id : ListId) : SamePlaces s (s.release id) := by
  cases hfind : s.find? id with
  | none =>
      rw [Store.release, hfind]
      exact refl s
  | some h =>
      apply of_place hfind
      · exact size_lists_release s id
      · intro new hnew
        rw [find?_release_self hfind, letGo] at hnew
        split at hnew <;> cases hnew
        rfl
      · exact fun other hne => find?_release_ne s hne

theorem onList {α : Type} {id : ListId} {act : Action (InvertedList t i) α} {a : α}
    (h : Store.onList id act s = .ok a s') : SamePlaces s s' := by
  cases hfind : s.find? id with
  | none =>
      rw [Store.onList, hfind] at h
      cases h
  | some holding =>
      rw [Store.onList, hfind] at h
      simp only at h
      cases hact : act holding.list with
      | error e l =>
          rw [hact] at h
          cases h
      | ok b l =>
          rw [hact] at h
          cases h
          exact update hfind rfl

end SamePlaces

/-- Stores that have the places of one store, the same lists and the same references to them differ
in nothing. -/
theorem eq_of_accounts {s s₁ s₂ : Store t i} {refs : List ListId} (h₁ : SamePlaces s s₁)
    (h₂ : SamePlaces s s₂) (hacc₁ : s₁.Accounts refs 0) (hacc₂ : s₂.Accounts refs 0)
    (hlimit : s₁.budget.limit = s₂.budget.limit) (hlist : ∀ id, s₁.list? id = s₂.list? id) :
    s₁ = s₂ := by
  have hfind : ∀ id, s₁.find? id = s₂.find? id := by
    intro id
    have hsame := hlist id
    cases hfind₁ : s₁.find? id with
    | none =>
        cases hfind₂ : s₂.find? id with
        | none => rfl
        | some holding₂ =>
            rw [list?_of_find? hfind₂, list?, hfind₁] at hsame
            cases hsame
    | some holding₁ =>
        rw [list?_of_find? hfind₁] at hsame
        obtain ⟨holding₂, hfind₂, hlist₂⟩ := list?_eq_some_iff.mp hsame.symm
        have hholders : holding₁.holders = holding₂.holders :=
          (hacc₁.holders_eq hfind₁).trans (hacc₂.holders_eq hfind₂).symm
        obtain ⟨old, hold, hwriting₁⟩ := h₁.writing_eq id holding₁ hfind₁
        obtain ⟨old', hold', hwriting₂⟩ := h₂.writing_eq id holding₂ hfind₂
        obtain rfl : old = old' := Option.some.inj (hold.symm.trans hold')
        rw [hfind₂]
        congr 1
        cases holding₁
        cases holding₂
        simp_all
  have hinUse : s₁.budget.inUse = s₂.budget.inUse := by
    rw [hacc₁.inUse_eq, hacc₂.inUse_eq, listBytes_congr hfind]
  have hplaces : s₁.lists = s₂.lists := by
    apply Array.ext
    · rw [h₁.size_eq, h₂.size_eq]
    · intro k hk₁ hk₂
      have hplace := hfind ⟨k⟩
      simpa [find?, hk₁, hk₂] using hplace
  obtain ⟨⟨limit₁, inUse₁⟩, lists₁⟩ := s₁
  obtain ⟨⟨limit₂, inUse₂⟩, lists₂⟩ := s₂
  simp_all

end Store

namespace Index

/-- Writing a portion takes in no list, and leaves every writer where it is. -/
theorem samePlaces_place {st : Staged t i} {y y' : OpenIndex t i}
    (h : place st y = .ok () y') : Store.SamePlaces y.store y'.store := by
  rw [place, Store.withWriter_onList] at h
  obtain ⟨size, y₁, happend, hrest⟩ := Action.bind_eq_ok.mp h
  obtain ⟨_, y₂, hhold, hreplace⟩ := Action.bind_eq_ok.mp hrest
  obtain ⟨_, y₃, hget, hslot⟩ := Action.bind_eq_ok.mp hreplace
  obtain ⟨old, y₄, hold, hswap⟩ := Action.bind_eq_ok.mp hslot
  obtain ⟨-, rfl⟩ := Action.ofExcept_eq_ok.mp hold
  cases hhold
  cases hget
  cases hswap
  have hwritten : Store.SamePlaces y.store y₁.store := by
    cases hrun : Store.onList st.list
      (InvertedList.append st.portion.codes st.portion.ids) y.store with
    | error e s =>
        rw [stored_error hrun] at happend
        cases happend
    | ok a s =>
        rw [stored_ok hrun] at happend
        cases happend
        exact .onList hrun
  exact (hwritten.trans (.hold y₁.store st.list)).trans (.release _ old)

theorem samePlaces_forM_place {staged : List (Staged t i)} {y y' : OpenIndex t i}
    (h : staged.forM place y = .ok () y') : Store.SamePlaces y.store y'.store := by
  induction staged generalizing y with
  | nil =>
      cases h
      exact .refl _
  | cons st rest ih =>
      obtain ⟨_, y₁, hplace, hrest⟩ := Action.bind_eq_ok.mp h
      exact (samePlaces_place hplace).trans (ih hrest)

/-- Two lists that have taken the same portion as the same list hold the same. -/
theorem Taken.unique {s₁ s₂ : Store t i} {st : Staged t i} {l : InvertedList t i}
    (h₁ : Taken s₁ st l) (h₂ : Taken s₂ st l) : s₁.list? st.list = s₂.list? st.list := by
  obtain ⟨data₁, hlist₁, hpacked₁⟩ := h₁
  obtain ⟨data₂, hlist₂, hpacked₂⟩ := h₂
  have hdata := hpacked₁.eq l.spec.layout.veclen_pos l.spec.layout.veclen_dvd_dim
    l.spec.layout.dim_pos hpacked₂
  rw [hlist₁, hlist₂, hdata]

section Orders

variable {x x₁ x₂ : Index} {s s₁ s₂ : Store t i} {refs : List ListId}
  {staged order : List (Staged t i)}

/-- Portions that have been written in two orders have given every label the same list. -/
theorem Placed.index_unique (h₁ : Placed x s refs staged x₁ s₁)
    (h₂ : Placed x s refs order x₂ s₂) (hperm : order.Perm staged) : x₁ = x₂ := by
  have hslot : ∀ label : Nat, x₁.slots[label]? = x₂.slots[label]? := by
    intro label
    by_cases hmem : label ∈ staged.map (·.portion.label)
    · obtain ⟨st, hst, rfl⟩ := List.mem_map.mp hmem
      rw [h₁.slot st hst, h₂.slot st (hperm.mem_iff.mpr hst)]
    · have hmem' : label ∉ order.map (·.portion.label) := fun h =>
        hmem ((hperm.map _).mem_iff.mp h)
      rw [h₁.slot_other label hmem, h₂.slot_other label hmem']
  have hslots : x₁.slots = x₂.slots := Array.ext_getElem? hslot
  have hparams : x₁.params = x₂.params := h₁.params_eq.trans h₂.params_eq.symm
  have hspec : x₁.spec = x₂.spec := h₁.spec_eq.trans h₂.spec_eq.symm
  cases x₁
  cases x₂
  simp_all

/-- Portions that have been written in two orders have left the same lists. -/
theorem Placed.list?_unique (h₁ : Placed x s refs staged x₁ s₁) (h₂ : Placed x s refs order x₁ s₂)
    (hperm : order.Perm staged) (htakes : ∀ st ∈ staged, ∃ l, Takes s st l)
    (hacc₁ : s₁.Accounts (staged.map (·.list) ++ (x₁.slots.toList ++ refs)) 0)
    (hacc₂ : s₂.Accounts (staged.map (·.list) ++ (x₁.slots.toList ++ refs)) 0) (id : ListId) :
    s₁.list? id = s₂.list? id := by
  by_cases hstaged : id ∈ staged.map (·.list)
  · obtain ⟨st, hst, rfl⟩ := List.mem_map.mp hstaged
    obtain ⟨l, hl⟩ := htakes st hst
    exact (h₁.taken st hst l hl).unique (h₂.taken st (hperm.mem_iff.mpr hst) l hl)
  have horder : id ∉ order.map (·.list) := fun h => hstaged ((hperm.map _).mem_iff.mp h)
  by_cases hother : id ∈ x₁.slots.toList ++ refs
  · rw [h₁.list_other id hother hstaged, h₂.list_other id hother horder]
  · -- nobody refers to the list, so that there is none
    have hnone : ∀ {s' : Store t i},
        s'.Accounts (staged.map (·.list) ++ (x₁.slots.toList ++ refs)) 0 → s'.list? id = none := by
      intro s' hacc
      cases hfind : s'.find? id with
      | none => rw [Store.list?, hfind]; rfl
      | some holding =>
          exact absurd (hacc.mem hfind) fun h => (List.mem_append.mp h).elim hstaged hother
    rw [hnone hacc₁, hnone hacc₂]

/-- Portions that have room are written in any order, with one outcome. -/
theorem forM_place_perm
    (hacc : s.Accounts (staged.map (·.list) ++ (x.slots.toList ++ refs)) 0)
    (hlabels : (staged.map (·.portion.label)).Nodup) (hlists : (staged.map (·.list)).Nodup)
    (htakes : ∀ st ∈ staged, st.portion.label < x.slots.size ∧ ∃ l, Takes s st l)
    (hperm : order.Perm staged) :
    order.forM place { index := x, store := s } =
      staged.forM place { index := x, store := s } := by
  have hcount : ∀ (slots : List ListId) (id : ListId),
      (order.map (·.list) ++ (slots ++ refs)).count id =
        (staged.map (·.list) ++ (slots ++ refs)).count id :=
    fun slots id => ((hperm.map _).append_right _).count_eq id
  obtain ⟨x₁, s₁, hrun₁, hacc₁, hplaced₁⟩ := forM_place_ok hacc hlabels hlists htakes
  obtain ⟨x₂, s₂, hrun₂, hacc₂, hplaced₂⟩ := forM_place_ok (hacc.congr (hcount _))
    ((hperm.map _).nodup_iff.mpr hlabels) ((hperm.map _).nodup_iff.mpr hlists)
    fun st hst => htakes st (hperm.mem_iff.mp hst)
  obtain rfl := hplaced₁.index_unique hplaced₂ hperm
  have hacc₂' := hacc₂.congr fun id => (hcount x₁.slots.toList id).symm
  have hstore : s₁ = s₂ := by
    apply Store.eq_of_accounts (samePlaces_forM_place hrun₁) (samePlaces_forM_place hrun₂) hacc₁
      hacc₂'
    · exact hplaced₁.limit_eq.trans hplaced₂.limit_eq.symm
    · exact hplaced₁.list?_unique hplaced₂ hperm (fun st hst => (htakes st hst).2) hacc₁ hacc₂'
  rw [hrun₁, hrun₂, hstore]

end Orders

end Index

end InvertedFile
