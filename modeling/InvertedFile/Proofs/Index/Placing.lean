import InvertedFile.Proofs.Index.Staging

/-!
# Writing a batch

When every list has room, the portions are written one after the other: each
is appended to its staged list, and the list is given its label. None of this
can fail. The append has a list with room for it, and a label has a list that
can be let go.

The lists of other labels are not touched by the writing of a portion, which
is why the portions do not get in each other's way: their lists are distinct.

## Main results

* `place_ok` — a portion is written.
* `placeAll_ok` — all portions are written, and every other list is as before.
-/

namespace InvertedFile.Index

variable {t : ElementType} {i : IdType}

/-- An index in which a label has another list. -/
def withSlot (x : Index) (label : Nat) (id : ListId) : Index :=
  { x with slots := x.slots.setIfInBounds label id }

theorem getElem?_withSlot {x : Index} {label : Nat} (h : label < x.slots.size) (id : ListId)
    (other : Nat) :
    (x.withSlot label id).slots[other]? = if other = label then some id else x.slots[other]? := by
  rw [withSlot, Array.getElem?_setIfInBounds]
  by_cases heq : label = other
  · subst heq
    rw [if_pos rfl, if_pos rfl, if_pos h]
  · rw [if_neg heq, if_neg (Ne.symm heq)]

theorem count_withSlot {x : Index} {label : Nat} {old : ListId}
    (h : x.slots[label]? = some old) (id other : ListId) :
    (old :: (x.withSlot label id).slots.toList).count other =
      (id :: x.slots.toList).count other := by
  obtain ⟨hlt, hget⟩ := Array.getElem?_eq_some_iff.mp h
  have hlength : label < x.slots.toList.length := by rwa [Array.length_toList]
  have hmem : old ∈ x.slots.toList := mem_of_slot h
  rw [withSlot, Array.toList_setIfInBounds, List.count_cons, List.count_cons,
    List.count_set hlength, Array.getElem_toList, hget]
  by_cases heq : old = other
  · have hpos : 0 < x.slots.toList.count other := List.count_pos_iff.mpr (heq ▸ hmem)
    simp only [heq, beq_self_eq_true, if_true]
    omega
  · simp only [beq_eq_false_iff_ne.mpr heq, Bool.false_eq_true, if_false]
    omega

/-- The list that is staged for a portion can take it. -/
def Takes (s : Store t i) (st : Staged t i) (l : InvertedList t i) : Prop :=
  s.list? st.list = some l ∧ st.portion.codes.size = st.portion.ids.size * l.spec.dim ∧
    l.size + st.portion.ids.size ≤ l.capacity

/-- The list that was staged for a portion has taken it. -/
def Taken (s' : Store t i) (st : Staged t i) (l : InvertedList t i) : Prop :=
  ∃ data, s'.list? st.list = some (l.appended data st.portion.ids) ∧
    Interleave.Packed l.spec.dim l.spec.veclen l.size st.portion.ids.size st.portion.codes l.data
      data

theorem stored_ok {α : Type} {act : Action (Store t i) α} {x : OpenIndex t i} {s : Store t i}
    {a : α} (h : act x.store = .ok a s) : stored act x = .ok a { x with store := s } := by
  obtain ⟨index, store⟩ := x
  simp only [stored, h]

theorem stored_error {α : Type} {act : Action (Store t i) α} {x : OpenIndex t i} {s : Store t i}
    {e : Error} (h : act x.store = .error e s) :
    stored act x = .error e { x with store := s } := by
  obtain ⟨index, store⟩ := x
  simp only [stored, h]

theorem replaceSlot_ok {x : OpenIndex t i} {label : Nat} {old : ListId}
    (h : x.index.slots[label]? = some old) (id : ListId) :
    replaceSlot label id x =
      .ok () { index := x.index.withSlot label id, store := x.store.release old } := by
  change (Action.ofExcept (x.index.slot label) >>= _) x = _
  rw [Action.bind_ok (Action.ofExcept_ok (slot_ok h) x)]
  rfl

section Place

variable {x : Index} {s : Store t i} {refs : List ListId}

/-- A portion is written. The list it goes to gets the label, and its records stand behind those
that were there. -/
theorem place_ok {st : Staged t i} {l : InvertedList t i}
    (hacc : s.Accounts (st.list :: (x.slots.toList ++ refs)) 0)
    (hlabel : st.portion.label < x.slots.size) (htakes : Takes s st l) :
    ∃ s', place st { index := x, store := s } =
        .ok () { index := x.withSlot st.portion.label st.list, store := s' } ∧
      s'.Accounts (st.list :: ((x.withSlot st.portion.label st.list).slots.toList ++ refs)) 0 ∧
      Taken s' st l ∧
      (∀ id ∈ (x.withSlot st.portion.label st.list).slots.toList ++ refs, id ≠ st.list →
        s'.list? id = s.list? id) ∧
      s'.budget.limit = s.budget.limit := by
  obtain ⟨hl, hcodes, hroom⟩ := htakes
  obtain ⟨h, hfind, rfl⟩ := Store.list?_eq_some_iff.mp hl
  have hwell := hacc.wellFormed hfind
  have hhosted := hacc.hosted hfind
  obtain ⟨data, happend, hpacked⟩ := InvertedList.append_ok hwell hcodes hroom
  have hevolves := InvertedList.Evolves.of_appended hroom hpacked
  let written := s.update st.list (some { h with list := h.list.appended data st.portion.ids })
  have haccWritten : written.Accounts (st.list :: (x.slots.toList ++ refs)) 0 :=
    hacc.update hfind (hevolves.wellFormed hwell)
      (hhosted.congr hevolves.size_data hevolves.size_ids) rfl hevolves.reserved_eq
  have hfindWritten : written.find? st.list =
      some { h with list := h.list.appended data st.portion.ids } :=
    Store.find?_update_self s _ hfind
  have haccHeld := haccWritten.hold (List.mem_cons_self ..)
  have hslot : x.slots[st.portion.label]? = some x.slots[st.portion.label] :=
    Array.getElem?_eq_getElem hlabel
  -- the reference that the label had is let go, and the one to the staged list takes its place
  have haccSwap : (written.hold st.list).Accounts (x.slots[st.portion.label] :: st.list ::
      ((x.withSlot st.portion.label st.list).slots.toList ++ refs)) 0 := by
    apply haccHeld.congr
    intro other
    have hcount := count_withSlot hslot st.list other
    simp only [List.count_cons, List.count_append] at hcount ⊢
    omega
  have hleaves := Store.Leaves.of_release haccSwap
  refine ⟨(written.hold st.list).release x.slots[st.portion.label], ?_, haccSwap.release, ?_, ?_,
    ?_⟩
  · rw [place, Store.withWriter_onList,
      Action.bind_ok (stored_ok (Store.onList_ok hfind happend))]
    exact replaceSlot_ok (x := ⟨x, written.hold st.list⟩) hslot st.list
  · refine ⟨data, ?_, hpacked⟩
    rw [hleaves _ (List.mem_cons_self ..), Store.list?_hold, Store.list?_of_find? hfindWritten]
  · intro id hid hne
    rw [hleaves _ (List.mem_cons_of_mem _ hid), Store.list?_hold]
    exact Store.list?_congr (Store.find?_update_ne s _ hne)
  · rw [Store.limit_release, Store.budget_hold]
    rfl

end Place

/-- How an index and its store look when all portions have been written. -/
structure Placed (x : Index) (s : Store t i) (refs : List ListId) (staged : List (Staged t i))
    (x' : Index) (s' : Store t i) : Prop where
  params_eq : x'.params = x.params
  spec_eq : x'.spec = x.spec
  size_slots : x'.slots.size = x.slots.size
  slot : ∀ st ∈ staged, x'.slots[st.portion.label]? = some st.list
  slot_other : ∀ label, label ∉ staged.map (·.portion.label) →
    x'.slots[label]? = x.slots[label]?
  taken : ∀ st ∈ staged, ∀ l, Takes s st l → Taken s' st l
  list_other : ∀ id ∈ x'.slots.toList ++ refs, id ∉ staged.map (·.list) →
    s'.list? id = s.list? id
  limit_eq : s'.budget.limit = s.budget.limit

theorem Placed.mem_slots {x x' : Index} {s s' : Store t i} {refs : List ListId}
    {staged : List (Staged t i)} (h : Placed x s refs staged x' s') {id : ListId}
    (hid : id ∈ x'.slots.toList) : id ∈ staged.map (·.list) ∨ id ∈ x.slots.toList := by
  obtain ⟨label, hlabel⟩ := mem_slots_iff.mp hid
  by_cases hmem : label ∈ staged.map (·.portion.label)
  · obtain ⟨st, hst, rfl⟩ := List.mem_map.mp hmem
    rw [h.slot st hst, Option.some.injEq] at hlabel
    exact Or.inl (List.mem_map.mpr ⟨st, hst, hlabel⟩)
  · rw [h.slot_other label hmem] at hlabel
    exact Or.inr (mem_of_slot hlabel)

theorem Takes.congr {s s' : Store t i} {st : Staged t i} {l : InvertedList t i}
    (h : Takes s st l) (hsame : s'.list? st.list = s.list? st.list) : Takes s' st l :=
  ⟨hsame.trans h.1, h.2⟩

/-- The lists that are referred to when the portions have been written are kept. -/
theorem Placed.keeps {x x' : Index} {s s' : Store t i} {refs : List ListId}
    {staged : List (Staged t i)} (h : Placed x s refs staged x' s')
    (htakes : ∀ st ∈ staged, ∃ l, Takes s st l) :
    Store.Keeps (x'.slots.toList ++ refs) s s' := by
  intro id hid l hl
  by_cases hmem : id ∈ staged.map (·.list)
  · obtain ⟨st, hst, rfl⟩ := List.mem_map.mp hmem
    obtain ⟨l₁, hl₁⟩ := htakes st hst
    have hsame : l₁ = l := Option.some.inj (hl₁.1.symm.trans hl)
    subst hsame
    obtain ⟨data, hdata, hpacked⟩ := h.taken st hst l₁ hl₁
    exact ⟨_, hdata, InvertedList.Evolves.of_appended hl₁.2.2 hpacked⟩
  · exact ⟨l, (h.list_other id hid hmem).trans hl, .refl l⟩

/-- A portion that has been written, and then the others, are all portions. For the others, the
reference to the first one's list is somebody else's. -/
theorem Placed.cons {x x' : Index} {s s₁ s' : Store t i} {refs : List ListId} {st : Staged t i}
    {rest : List (Staged t i)} {l : InvertedList t i} (hlabel : st.portion.label < x.slots.size)
    (hfresh : st.portion.label ∉ rest.map (·.portion.label)) (hnew : st.list ∉ rest.map (·.list))
    (htakes : Takes s st l) (htaken : Taken s₁ st l)
    (hkept : ∀ st' ∈ rest, s₁.list? st'.list = s.list? st'.list)
    (hother : ∀ id ∈ (x.withSlot st.portion.label st.list).slots.toList ++ refs, id ≠ st.list →
      s₁.list? id = s.list? id)
    (hlimit : s₁.budget.limit = s.budget.limit)
    (h : Placed (x.withSlot st.portion.label st.list) s₁ (st.list :: refs) rest x' s') :
    Placed x s refs (st :: rest) x' s' where
  params_eq := h.params_eq
  spec_eq := h.spec_eq
  size_slots := h.size_slots.trans Array.size_setIfInBounds
  slot := by
    intro st' hst'
    rcases List.mem_cons.mp hst' with rfl | hst'
    · rw [h.slot_other _ hfresh, getElem?_withSlot hlabel, if_pos rfl]
    · exact h.slot st' hst'
  slot_other := by
    intro label hlabel'
    rw [List.map_cons, List.mem_cons, not_or] at hlabel'
    rw [h.slot_other label hlabel'.2, getElem?_withSlot hlabel, if_neg hlabel'.1]
  taken := by
    intro st' hst' l' htakes'
    rcases List.mem_cons.mp hst' with rfl | hst'
    · -- the later portions leave the first one's list alone
      have hsame : l' = l := Option.some.inj (htakes'.1.symm.trans htakes.1)
      subst hsame
      obtain ⟨data, hdata, hpacked⟩ := htaken
      refine ⟨data, ?_, hpacked⟩
      rw [h.list_other _ (List.mem_append_right _ (List.mem_cons_self ..)) hnew, hdata]
    · exact h.taken st' hst' l' (htakes'.congr (hkept st' hst'))
  list_other := by
    intro id hid hnot
    rw [List.map_cons, List.mem_cons, not_or] at hnot
    rcases List.mem_append.mp hid with hslot | hrefs
    · rw [h.list_other id (List.mem_append_left _ hslot) hnot.2]
      exact hother id (List.mem_append_left _ ((h.mem_slots hslot).resolve_left hnot.2)) hnot.1
    · rw [h.list_other id (List.mem_append_right _ (List.mem_cons_of_mem _ hrefs)) hnot.2]
      exact hother id (List.mem_append_right _ hrefs) hnot.1
  limit_eq := h.limit_eq.trans hlimit

/-- All portions are written, one after the other. -/
theorem forM_place_ok {x : Index} {s : Store t i} {refs : List ListId}
    {staged : List (Staged t i)}
    (hacc : s.Accounts (staged.map (·.list) ++ (x.slots.toList ++ refs)) 0)
    (hlabels : (staged.map (·.portion.label)).Nodup) (hlists : (staged.map (·.list)).Nodup)
    (htakes : ∀ st ∈ staged, st.portion.label < x.slots.size ∧ ∃ l, Takes s st l) :
    ∃ x' s', staged.forM place { index := x, store := s } =
        .ok () { index := x', store := s' } ∧
      s'.Accounts (staged.map (·.list) ++ (x'.slots.toList ++ refs)) 0 ∧
      Placed x s refs staged x' s' := by
  induction staged generalizing x s refs with
  | nil =>
      refine ⟨x, s, rfl, hacc, rfl, rfl, rfl, ?_, fun _ _ => rfl, ?_, fun _ _ _ => rfl, rfl⟩
      · exact fun st hst => nomatch hst
      · exact fun st hst => nomatch hst
  | cons st rest ih =>
      rw [List.map_cons, List.nodup_cons] at hlabels hlists
      obtain ⟨hlabel, l, hl⟩ := htakes st (List.mem_cons_self ..)
      -- for the first portion, the references to the other staged lists are somebody else's
      have hacc₀ : s.Accounts
          (st.list :: (x.slots.toList ++ (rest.map (·.list) ++ refs))) 0 := by
        apply hacc.congr
        intro other
        simp only [List.map_cons, List.count_cons, List.count_append]
        omega
      obtain ⟨s₁, hplace, hacc₁, htaken, hother, hlimit⟩ := place_ok hacc₀ hlabel hl
      have hacc₂ : s₁.Accounts (rest.map (·.list) ++
          ((x.withSlot st.portion.label st.list).slots.toList ++ (st.list :: refs))) 0 := by
        apply hacc₁.congr
        intro other
        simp only [List.count_cons, List.count_append]
        omega
      have hkept : ∀ st' ∈ rest, s₁.list? st'.list = s.list? st'.list := by
        intro st' hst'
        have hmem : st'.list ∈ rest.map (·.list) := List.mem_map.mpr ⟨st', hst', rfl⟩
        apply hother
        · exact List.mem_append_right _ (List.mem_append_left _ hmem)
        · exact fun heq => hlists.1 (heq ▸ hmem)
      have hothers : ∀ id ∈ (x.withSlot st.portion.label st.list).slots.toList ++ refs,
          id ≠ st.list → s₁.list? id = s.list? id := by
        intro id hid
        rcases List.mem_append.mp hid with hslot | hrefs
        · exact hother id (List.mem_append_left _ hslot)
        · exact hother id (List.mem_append_right _ (List.mem_append_right _ hrefs))
      obtain ⟨x', s', hrest, hacc', hplaced⟩ := ih hacc₂ hlabels.2 hlists.2 fun st' hst' => by
        obtain ⟨hlt, l', hl'⟩ := htakes st' (List.mem_cons_of_mem st hst')
        have hsize : (x.withSlot st.portion.label st.list).slots.size = x.slots.size :=
          Array.size_setIfInBounds
        exact ⟨hsize.symm ▸ hlt, l', hl'.congr (hkept st' hst')⟩
      refine ⟨x', s', ?_, ?_, hplaced.cons hlabel hlabels.1 hlists.1 hl htaken hkept hothers hlimit⟩
      · change (place st >>= fun _ => rest.forM place) _ = _
        rw [Action.bind_ok hplace]
        exact hrest
      · apply hacc'.congr
        intro other
        simp only [List.map_cons, List.count_cons, List.count_append]
        omega

/-- References that go do not harm the others. -/
theorem releaseAll_accounts {s : Store t i} {ids refs : List ListId}
    (h : s.Accounts (ids ++ refs) 0) :
    (s.releaseAll ids).Accounts refs 0 ∧ Store.Leaves refs s (s.releaseAll ids) := by
  induction ids generalizing s with
  | nil => exact ⟨h, Store.Leaves.refl refs s⟩
  | cons id rest ih =>
      have hrelease := Store.Leaves.of_release h
      obtain ⟨hacc, hleaves⟩ := ih (Store.Accounts.release h)
      refine ⟨hacc, ?_⟩
      exact (hrelease.mono fun other hother => List.mem_append_right rest hother).trans hleaves

/-- All portions are written and the lists that were held for them are let go. -/
theorem placeAll_ok {x : Index} {s : Store t i} {refs : List ListId}
    {staged : List (Staged t i)}
    (hacc : s.Accounts (staged.map (·.list) ++ (x.slots.toList ++ refs)) 0)
    (hlabels : (staged.map (·.portion.label)).Nodup) (hlists : (staged.map (·.list)).Nodup)
    (htakes : ∀ st ∈ staged, st.portion.label < x.slots.size ∧ ∃ l, Takes s st l) :
    ∃ x' s', placeAll staged { index := x, store := s } =
        .ok () { index := x', store := s' } ∧
      s'.Accounts (x'.slots.toList ++ refs) 0 ∧ Placed x s refs staged x' s' := by
  obtain ⟨x', s₁, hforM, hacc₁, hplaced⟩ := forM_place_ok hacc hlabels hlists htakes
  obtain ⟨hacc', hleaves⟩ := releaseAll_accounts hacc₁
  refine ⟨x', s₁.releaseAll (staged.map (·.list)), ?_, hacc', ?_⟩
  · exact Action.closing_ok.mpr ⟨_, hforM, rfl⟩
  · have hslot : ∀ st ∈ staged, st.list ∈ x'.slots.toList ++ refs := by
      intro st hst
      exact List.mem_append_left _ (mem_of_slot (hplaced.slot st hst))
    exact
      { params_eq := hplaced.params_eq
        spec_eq := hplaced.spec_eq
        size_slots := hplaced.size_slots
        slot := hplaced.slot
        slot_other := hplaced.slot_other
        taken := fun st hst l hl => by
          obtain ⟨data, hdata, hpacked⟩ := hplaced.taken st hst l hl
          exact ⟨data, (hleaves _ (hslot st hst)).trans hdata, hpacked⟩
        list_other := fun id hid hnot => by
          rw [hleaves id hid]
          exact hplaced.list_other id hid hnot
        limit_eq := (Store.limit_releaseAll _ _).trans hplaced.limit_eq }

end InvertedFile.Index
