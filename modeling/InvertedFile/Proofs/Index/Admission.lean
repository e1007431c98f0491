import InvertedFile.Proofs.InvertedList.Admission
import InvertedFile.Proofs.Index.Agreement
import InvertedFile.Proofs.Index.Freed

/-!
# Which batches a budget admits

Room for a batch is found list by list, and until all of it is found nothing
is let go: a list that is to be replaced stays charged until the batch has
been written. So charges only add up, and whether all of them are granted
does not depend on the order of the labels. It depends on their sum.

A list that has the room costs nothing. One that has not is outgrown, and
costs the bytes of the list that is to take its place. When the batch has been
written the bytes of an outgrown list are free again, unless somebody else
holds it.

## Main results

* `stageAll_admits` — room is found for all portions exactly when the new lists
  are admitted together.
* `perm_of_placed` — the references that change hands.
* `extend_admits`, `exists_extend_ok_iff`, `inUse_extend` — when a batch is taken,
  and what is in use then.
-/

namespace InvertedFile.Index

open InvertedFile.InvertedList

variable {t : ElementType} {i : IdType}

/-- A list without the room that is asked of it, and the size it would come to. -/
structure Outgrown where
  list : ListId
  size : Nat
  deriving DecidableEq

/-- The list of a label, if it has no room for so many rows more. -/
def outgrown? (x : Index) (s : Store t i) (label rows : Nat) : Option Outgrown := do
  let list ← x.slots[label]?
  let l ← s.list? list
  if l.size + rows ≤ l.capacity then none else some { list, size := l.size + rows }

/-- The lists that have no room for the rows of their labels. -/
def outgrown (x : Index) (s : Store t i) (labels : Array Nat) : List Outgrown :=
  (List.range x.lists).filterMap fun label => x.outgrown? s label (rowsOf labels label).length

/-- The list of the label of a portion, if it has no room for the portion. -/
def outgrownBy (x : Index) (s : Store t i) (p : Portion t i) : Option Outgrown :=
  x.outgrown? s p.label p.ids.size

variable {x x' : Index} {s s₁ s' : Store t i} {refs : List ListId} {pending : Nat}

theorem outgrown?_eq {label : Nat} {id : ListId} {l : InvertedList t i}
    (hid : x.slots[label]? = some id) (hl : s.list? id = some l) (rows : Nat) :
    x.outgrown? s label rows =
      if l.size + rows ≤ l.capacity then none else some ⟨id, l.size + rows⟩ := by
  simp [outgrown?, hid, hl]

/-- The lists that are outgrown, and the sizes they would come to. -/
theorem mem_outgrown_iff (hx : x.Sound s) {labels : Array Nat} {o : Outgrown} :
    o ∈ x.outgrown s labels ↔ ∃ label < x.lists, ∃ id l, x.slots[label]? = some id ∧
      s.list? id = some l ∧ l.capacity < l.size + (rowsOf labels label).length ∧
      o = ⟨id, l.size + (rowsOf labels label).length⟩ := by
  unfold outgrown
  rw [List.mem_filterMap]
  constructor
  · rintro ⟨label, hlabel, ho⟩
    have hlt := List.mem_range.mp hlabel
    obtain ⟨id, l, hid, hl, -⟩ := hx.listed hlt
    rw [outgrown?_eq hid hl] at ho
    split at ho
    · cases ho
    · next hgrow =>
        cases ho
        exact ⟨label, hlt, id, l, hid, hl, Nat.not_le.mp hgrow, rfl⟩
  · rintro ⟨label, hlt, id, l, hid, hl, hgrow, rfl⟩
    refine ⟨label, List.mem_range.mpr hlt, ?_⟩
    rw [outgrown?_eq hid hl, if_neg (Nat.not_le.mpr hgrow)]

/-- What is outgrown is a matter of the lists of the index. -/
theorem outgrown?_leaves (hleaves : Store.Leaves x.slots.toList s s₁) (label rows : Nat) :
    x.outgrown? s₁ label rows = x.outgrown? s label rows := by
  cases hid : x.slots[label]? with
  | none => simp [outgrown?, hid]
  | some id => simp [outgrown?, hid, hleaves id (mem_of_slot hid)]

/-- The lists that a batch does not fit into are those that a portion of it does not fit into. -/
theorem outgrown_eq_portions (hx : x.Sound s) (hacc : s.Accounts refs pending)
    {vectors : Array (Word t)} {ids : Array (Id i)} {labels : Array Nat}
    (hvectors : vectors.size = labels.size * x.dim) (hids : ids.size = labels.size) :
    x.outgrown s labels =
      (portionsOf x.slots.size x.dim vectors ids labels).filterMap (x.outgrownBy s) := by
  rw [outgrown, portionsOf, ← hx.size_slots, List.filterMap_map, List.filterMap_filter]
  apply List.filterMap_congr
  intro label hlabel
  by_cases hrows : rowsOf labels label = []
  · -- a list has room for what is in it
    obtain ⟨id, l, hid, hl, -⟩ := hx.listed (hx.lt_size.mp (List.mem_range.mp hlabel))
    have hfits : l.size + (rowsOf labels label).length ≤ l.capacity := by
      rw [hrows]
      exact (hacc.wellFormed_list hl).size_le
    rw [outgrown?_eq hid hl, if_pos hfits, if_neg (by simpa using hrows)]
  · have hcount : (portion x.dim vectors ids label (rowsOf labels label)).ids.size =
        (rowsOf labels label).length :=
      (batch_gathered hvectors hids label fun _ => lt_of_mem_rowsOf).2.1
    rw [if_pos (by simpa using hrows)]
    show _ = x.outgrown? s label _
    rw [hcount]

/-! ## Room for a batch -/

/-- A portion that room was found for has cost what its list was missing. -/
theorem StagedOne.admits {p : Portion t i} {st : Staged t i}
    (hone : StagedOne x s refs pending p st s₁) (hacc : s.Accounts refs pending) :
    ∃ bytes, Admits t i s.budget x.spec ((x.outgrownBy s p).toList.map (·.size)) bytes ∧
      s₁.budget = s.budget.charged bytes := by
  obtain ⟨h, hfind⟩ := hone.accounts.found (List.mem_cons_self ..)
  have hwell := hone.accounts.wellFormed hfind
  have hsound : s₁.budget.Sound := hone.accounts.budget
  obtain ⟨old, l, hslot, hl, hcases⟩ := hone.ready
  rw [hone.portion_eq] at hslot hcases
  rw [outgrownBy, outgrown?_eq hslot hl]
  rcases hcases with ⟨hstay, hroom⟩ | ⟨hnew, hgrow, capacity, after, hcapacity, hafter, hcopied⟩
  · have hfound : s.find? st.list ≠ none := by
      intro hnone
      rw [hstay] at hnone
      rw [Store.list?, hnone] at hl
      cases hl
    have hbudget : s₁.budget = s.budget := hone.undone.budget_eq_of_found hfind hfound
    rw [if_pos hroom]
    exact ⟨0, admits_nil hacc.budget, hbudget⟩
  · have hnone : s.find? st.list = none := by
      rw [Store.list?, Option.map_eq_none_iff] at hnew
      exact hnew
    have hlist : h.list = after :=
      Option.some.inj ((Store.list?_of_find? hfind).symm.trans hafter)
    have hspec : h.list.spec = x.spec := hlist ▸ hcopied.spec_eq
    have hcap : h.list.capacity = capacity := hlist ▸ hcopied.capacity_eq
    have hbytes : h.list.reserved = (blank t i x.spec capacity).reserved :=
      hlist ▸ hcopied.reserved_eq
    have hbudget := hone.undone.budget_eq_of_new hone.accounts hfind hnone
    have hhost : HostGives t i x.spec capacity := by
      rw [← hspec, ← hcap]
      exact .of_hosted hwell (hone.accounts.hosted hfind)
    rw [hbytes] at hbudget
    rw [hbudget] at hsound
    rw [if_neg (Nat.not_le.mpr hgrow)]
    refine ⟨_, admits_singleton_iff.mpr ⟨capacity, hcapacity, ?_, rfl⟩, hbudget⟩
    rw [granted_iff hcapacity, ← reserved_blank hcapacity]
    exact ⟨hhost, hsound⟩

/-- Room is found for a portion whose list can be made. -/
theorem failure?_stage_of_admits (hx : x.Sound s) (hacc : s.Accounts refs pending)
    {p : Portion t i} {id : ListId} (hid : x.slots[p.label]? = some id) {bytes : Nat}
    (h : Admits t i s.budget x.spec ((x.outgrownBy s p).toList.map (·.size)) bytes) :
    Action.failure? (stage x p) s = none := by
  obtain ⟨l, hl, -⟩ := hx.list p.label id hid
  rw [failure?_stage hx hacc hid hl]
  by_cases hroom : l.size + p.ids.size ≤ l.capacity
  · rw [if_pos hroom]
  · rw [outgrownBy, outgrown?_eq hid hl, if_neg hroom] at h
    obtain ⟨capacity, hcapacity, hgranted, -⟩ := admits_singleton_iff.mp h
    rw [if_neg hroom]
    exact Action.failure?_of_ok (create_ok_iff.mpr ⟨capacity, hcapacity, hgranted, rfl, rfl⟩)

/-- Room is found for a portion exactly when a list that it misses is admitted. -/
theorem stage_admits (hx : x.Sound s) (hacc : s.Accounts refs pending)
    (hslots : ∀ id ∈ x.slots.toList, id ∈ refs) {p : Portion t i}
    (hlabel : p.label < x.slots.size) :
    (∃ st s₁ bytes, stage x p s = .ok st s₁ ∧ StagedOne x s refs pending p st s₁ ∧
      Admits t i s.budget x.spec ((x.outgrownBy s p).toList.map (·.size)) bytes ∧
      s₁.budget = s.budget.charged bytes) ∨
    ∃ e s₁, stage x p s = .error e s₁ ∧ ∀ bytes,
      ¬ Admits t i s.budget x.spec ((x.outgrownBy s p).toList.map (·.size)) bytes := by
  have hid : x.slots[p.label]? = some x.slots[p.label] := Array.getElem?_eq_getElem hlabel
  rcases stage_cases hx hacc hid (hslots _ (mem_of_slot hid)) with
    ⟨e, s₁, hstage, -⟩ | ⟨st, s₁, hstage, hone⟩
  · refine Or.inr ⟨e, s₁, hstage, fun bytes h => ?_⟩
    have hnone := failure?_stage_of_admits hx hacc hid h
    rw [Action.failure?_of_error hstage] at hnone
    cases hnone
  · obtain ⟨bytes, hadmits, hbudget⟩ := hone.admits hacc
    exact Or.inl ⟨st, s₁, bytes, hstage, hone, hadmits, hbudget⟩

/-- Room is found for all portions exactly when the lists that they miss are admitted together. -/
theorem stageAll_admits (hx : x.Sound s) (hacc : s.Accounts refs pending)
    (hslots : ∀ id ∈ x.slots.toList, id ∈ refs) {ps : List (Portion t i)}
    (hlabels : ∀ p ∈ ps, p.label < x.slots.size) :
    (∃ staged s₁ bytes, stageAll x ps s = .ok staged s₁ ∧
      Admits t i s.budget x.spec ((ps.filterMap (x.outgrownBy s)).map (·.size)) bytes ∧
      s₁.budget = s.budget.charged bytes) ∨
    ∃ e s₁, stageAll x ps s = .error e s₁ ∧ ∀ bytes,
      ¬ Admits t i s.budget x.spec ((ps.filterMap (x.outgrownBy s)).map (·.size)) bytes := by
  induction ps generalizing s refs with
  | nil => exact Or.inl ⟨[], s, 0, rfl, admits_nil hacc.budget, rfl⟩
  | cons p rest ih =>
      have hsplit : (p :: rest).filterMap (x.outgrownBy s) =
          (x.outgrownBy s p).toList ++ rest.filterMap (x.outgrownBy s) := by
        rw [List.filterMap_cons]
        cases x.outgrownBy s p <;> rfl
      rw [hsplit, List.map_append]
      rcases stage_admits hx hacc hslots (hlabels p (List.mem_cons_self ..)) with
        ⟨st, s₁, m, hstage, hone, hm, hcharged⟩ | ⟨e, s₁, hstage, hrefused⟩
      · -- what the others miss is not a matter of the first portion
        have hleaves := hone.leaves.mono hslots
        have hothers : x.outgrownBy s₁ = x.outgrownBy s :=
          funext fun q => outgrown?_leaves hleaves q.label q.ids.size
        rcases ih (hx.keeps hacc hleaves.keeps) hone.accounts
          (fun id hid => List.mem_cons_of_mem _ (hslots id hid))
          (fun q hq => hlabels q (List.mem_cons_of_mem p hq)) with
          ⟨staged, s₂, n, hrest, hn, hcharged'⟩ | ⟨e, s₂, hrest, hrefused⟩
        · rw [hothers, hcharged] at hn
          have hboth := Admits.append_iff.mpr ⟨m, n, hm, hn, rfl⟩
          refine Or.inl ⟨st :: staged, s₂, m + n, ?_, hboth, ?_⟩
          · rw [stageAll, Action.bind_ok hstage, Action.bind_ok (Action.undoing_ok.mpr hrest)]
            rfl
          · rw [hcharged', hcharged, Budget.charged_charged]
        · refine Or.inr ⟨e, s₂.release st.list, ?_, fun bytes h => ?_⟩
          · rw [stageAll, Action.bind_ok hstage]
            exact Action.bind_error (Action.undoing_error.mpr ⟨s₂, hrest, rfl⟩)
          · obtain ⟨m', n, hm', hn, -⟩ := Admits.append_iff.mp h
            rw [hm'.unique hm, ← hcharged, ← hothers] at hn
            exact hrefused n hn
      · refine Or.inr ⟨e, s₁, Action.bind_error hstage, fun bytes h => ?_⟩
        obtain ⟨m, n, hm, -⟩ := Admits.append_iff.mp h
        exact hrefused m hm

/-! ## What is in use afterwards -/

/-- The list that the label of a staged portion has before the portion is written. -/
def replacedBy (x : Index) (st : Staged t i) : Option ListId :=
  x.slots[st.portion.label]?

private theorem toList_eq_filterMap (slots : Array ListId) :
    slots.toList = (List.range slots.size).filterMap fun label => slots[label]? := by
  have hsome : (List.range slots.size).map (fun label => slots[label]?) =
      slots.toList.map some := by
    apply List.ext_getElem?
    intro label
    by_cases hlt : label < slots.size <;> simp [hlt]
  calc
    slots.toList = (slots.toList.map some).filterMap id := by simp [List.filterMap_map]
    _ = ((List.range slots.size).map fun label => slots[label]?).filterMap id := by rw [hsome]
    _ = (List.range slots.size).filterMap fun label => slots[label]? := List.filterMap_map

/-- While the portions of a batch are written the references to the staged lists and those to the
lists they replace change hands. -/
theorem perm_of_placed {staged : List (Staged t i)} (hplaced : Placed x s refs staged x' s')
    (hnodup : (staged.map (·.portion.label)).Nodup)
    (hlabels : ∀ st ∈ staged, st.portion.label < x.slots.size) :
    (staged.map (·.list) ++ x.slots.toList).Perm
      (staged.filterMap x.replacedBy ++ x'.slots.toList) := by
  let labels := staged.map (·.portion.label)
  have hsub : labels ⊆ List.range x.slots.size := by
    intro label hlabel
    obtain ⟨st, hst, rfl⟩ := List.mem_map.mp hlabel
    exact List.mem_range.mpr (hlabels st hst)
  -- the labels that nothing is staged for have the lists they had
  obtain ⟨_, hperm, hsublist⟩ := List.subperm_of_subset hnodup hsub
  obtain ⟨others, hrest⟩ := hsublist.exists_perm_append
  have hall : (List.range x.slots.size).Perm (labels ++ others) :=
    hrest.trans (hperm.append_right others)
  have hdisjoint := List.disjoint_of_nodup_append (hall.nodup_iff.mp List.nodup_range)
  have hstaged : labels.filterMap (fun label => x'.slots[label]?) = staged.map (·.list) := by
    rw [List.filterMap_map, ← List.filterMap_eq_map]
    exact List.filterMap_congr fun st hst => hplaced.slot st hst
  have hothers : others.filterMap (fun label => x'.slots[label]?) =
      others.filterMap fun label => x.slots[label]? :=
    List.filterMap_congr fun label hlabel =>
      hplaced.slot_other label fun hmem => hdisjoint hmem hlabel
  have hold : x.slots.toList.Perm (staged.filterMap x.replacedBy ++
      others.filterMap fun label => x.slots[label]?) := by
    rw [toList_eq_filterMap]
    have hmapped := hall.filterMap fun label => x.slots[label]?
    rwa [List.filterMap_append, List.filterMap_map] at hmapped
  have hnew : x'.slots.toList.Perm (staged.map (·.list) ++
      others.filterMap fun label => x.slots[label]?) := by
    rw [toList_eq_filterMap, hplaced.size_slots]
    have hmapped := hall.filterMap fun label => x'.slots[label]?
    rwa [List.filterMap_append, hstaged, hothers] at hmapped
  calc
    (staged.map (·.list) ++ x.slots.toList).Perm
        (staged.map (·.list) ++ (staged.filterMap x.replacedBy ++ _)) := hold.append_left _
    List.Perm _ (staged.filterMap x.replacedBy ++ (staged.map (·.list) ++ _)) :=
      List.perm_append_comm_assoc _ _ _
    List.Perm _ (staged.filterMap x.replacedBy ++ x'.slots.toList) := hnew.symm.append_left _

/-- What becomes of the list of a label when the label gets the list that is staged for it. If the
portion fits, the list is itself the staged one, so that it stays; and otherwise it is held as it
was before any list was staged. -/
def Retires (x : Index) (s s₁ : Store t i) (st : Staged t i) : Prop :=
  ∃ old h, x.replacedBy st = some old ∧ s₁.find? old = some h ∧
    ((x.outgrownBy s st.portion = none ∧ ¬ h.holders ≤ 1) ∨
      ∃ size h₀, x.outgrownBy s st.portion = some ⟨old, size⟩ ∧ s.find? old = some h₀ ∧
        h₀.holders = h.holders ∧ h₀.list = h.list)

section Written

variable {ps : List (Portion t i)} {staged : List (Staged t i)}

/-- A list that is outgrown is nobody's staged list. -/
theorem StagedAll.notMem_of_outgrown {old : ListId} {l : InvertedList t i} {st : Staged t i}
    (hstaged : StagedAll x s refs pending ps staged s₁) (hx : x.Sound s)
    (hnodup : (ps.map Portion.label).Nodup) (hst : st ∈ staged)
    (hslot : x.slots[st.portion.label]? = some old) (hl : s.list? old = some l)
    (hnew : s.list? st.list = none) : old ∉ staged.map (·.list) := by
  intro hdup
  obtain ⟨st', hst', rfl⟩ := List.mem_map.mp hdup
  obtain ⟨old', l', hslot', -, ⟨hstay', -⟩ | ⟨hnew', -⟩⟩ := hstaged.ready st' hst'
  · rw [hstay'] at hslot hl
    have hlabel := hx.slot_inj hslot hslot'
    have hsame := List.inj_on_of_nodup_map (hstaged.nodup_labels hnodup) hst hst' hlabel
    rw [hsame, hstay', hl] at hnew
    cases hnew
  · rw [hl] at hnew'
    cases hnew'

theorem StagedAll.retires (hstaged : StagedAll x s refs pending ps staged s₁) (hx : x.Sound s)
    (hacc : s.Accounts refs pending) (hslots : ∀ id ∈ x.slots.toList, id ∈ refs)
    (hnodup : (ps.map Portion.label).Nodup) {st : Staged t i} (hst : st ∈ staged) :
    Retires x s s₁ st := by
  obtain ⟨old, l, hslot, hl, hcases⟩ := hstaged.ready st hst
  have hmem : old ∈ refs := hslots old (mem_of_slot hslot)
  obtain ⟨h, hfind⟩ := hstaged.accounts.found (List.mem_append_right (staged.map (·.list)) hmem)
  have hcount := hstaged.accounts.holders_eq hfind
  rw [List.count_append] at hcount
  refine ⟨old, h, hslot, hfind, ?_⟩
  rw [outgrownBy, outgrown?_eq hslot hl]
  rcases hcases with ⟨hstay, hroom⟩ | ⟨hnew, hgrow, -⟩
  · have hself : 0 < (staged.map (·.list)).count old :=
      List.count_pos_iff.mpr (List.mem_map.mpr ⟨st, hst, hstay⟩)
    have hheld : 0 < refs.count old := List.count_pos_iff.mpr hmem
    rw [if_pos hroom]
    exact Or.inl ⟨rfl, by omega⟩
  · have hother := hstaged.notMem_of_outgrown hx hnodup hst hslot hl hnew
    obtain ⟨h₀, hfind₀, hlist₀⟩ := Store.list?_eq_some_iff.mp hl
    have hkept := hstaged.leaves old hmem
    rw [Store.list?_of_find? hfind, hl, Option.some.injEq] at hkept
    have hholders : h₀.holders = h.holders := by
      rw [hcount, List.count_eq_zero.mpr hother, Nat.zero_add, hacc.holders_eq hfind₀]
    rw [if_neg (Nat.not_le.mpr hgrow)]
    exact Or.inr ⟨_, h₀, rfl, hfind₀, hholders, hlist₀.trans hkept.symm⟩

/-- Of the lists that labels had, those that are outgrown are let go of as they were before. -/
theorem soleBytes_replaced (h : ∀ st ∈ staged, Retires x s s₁ st) :
    s₁.soleBytes (staged.filterMap x.replacedBy) =
      s.soleBytes (((staged.map (·.portion)).filterMap (x.outgrownBy s)).map (·.list)) := by
  induction staged with
  | nil => rfl
  | cons st rest ih =>
      have hrest := ih fun st' hst' => h st' (List.mem_cons_of_mem st hst')
      obtain ⟨old, holding, hold, hfind, hcases⟩ := h st (List.mem_cons_self ..)
      rw [List.filterMap_cons_some hold, Store.soleBytes_cons hfind, hrest, List.map_cons]
      rcases hcases with ⟨hfits, hheld⟩ | ⟨size, h₀, hgrown, hfind₀, hholders, hlist⟩
      · rw [List.filterMap_cons_none hfits, if_neg hheld, Nat.zero_add]
      · rw [List.filterMap_cons_some hgrown, List.map_cons, Store.soleBytes_cons hfind₀, hholders,
          hlist]

/-- When the portions have been written, what was in use with the new lists is in use, without the
outgrown lists that nobody else holds. -/
theorem inUse_of_placed (hx : x.Sound s) (hacc : s.Accounts (x.slots.toList ++ refs) 0)
    (hstaged : StagedAll x s (x.slots.toList ++ refs) 0 ps staged s₁)
    (hvalid : ∀ p ∈ ps, p.Valid x.dim x.slots.size) (hnodup : (ps.map Portion.label).Nodup)
    (hacc' : s'.Accounts (x'.slots.toList ++ refs) 0) (hplaced : Placed x s₁ refs staged x' s') :
    s'.budget.inUse + s.soleBytes ((ps.filterMap (x.outgrownBy s)).map (·.list)) =
      s₁.budget.inUse := by
  have hslots : ∀ id ∈ x.slots.toList, id ∈ x.slots.toList ++ refs :=
    fun id hid => List.mem_append_left refs hid
  have htakes := StagedAll.takes hx hacc hstaged hvalid
  have hperm := perm_of_placed hplaced (hstaged.nodup_labels hnodup) fun st hst => (htakes st hst).1
  -- the store in which the replaced lists are let go of and nothing has been written
  have hswapped : s₁.Accounts (staged.filterMap x.replacedBy ++ (x'.slots.toList ++ refs)) 0 := by
    apply hstaged.accounts.congr
    intro id
    rw [← List.append_assoc, ← List.append_assoc]
    exact (hperm.append_right refs).symm.count_eq id
  obtain ⟨haccLeft, hleaves⟩ := releaseAll_accounts hswapped
  have hkeeps : Store.Keeps (x'.slots.toList ++ refs)
      (s₁.releaseAll (staged.filterMap x.replacedBy)) s' := by
    have hback : Store.Leaves (x'.slots.toList ++ refs)
        (s₁.releaseAll (staged.filterMap x.replacedBy)) s₁ :=
      fun id hid => (hleaves id hid).symm
    exact hback.keeps.trans (hplaced.keeps fun st hst => (htakes st hst).2)
  have hreplaced : (staged.filterMap x.replacedBy).Nodup := by
    have hnames := (hstaged.nodup_labels hnodup).filterMap (f := fun label => x.slots[label]?)
      fun label other id hlabel hother => hx.slot_inj hlabel hother
    rwa [List.filterMap_map] at hnames
  have hfreed := Store.inUse_releaseAll hswapped hreplaced
  rw [soleBytes_replaced fun st hst => hstaged.retires hx hacc hslots hnodup hst,
    hstaged.portions_eq] at hfreed
  rw [haccLeft.inUse_keeps hacc' hkeeps, hfreed]

end Written

section Accepted

variable {assigner : Assigner t} {vectors : Array (Word t)} {given : Option (Array (Id i))}
  {ids : Array (Id i)} {labels : Array Nat}

/-- A batch whose arguments are accepted is taken exactly when new lists for what is outgrown are
admitted together. The bytes in use are then those before and those of the new lists, without those
of the outgrown lists that nobody else holds. -/
theorem extend_admits (hx : x.Sound s) (hacc : s.Accounts (x.slots.toList ++ refs) 0)
    (haccepted : Accepted x.dim (x.sizes s) x.lists assigner vectors given ids labels) :
    (∃ y bytes, extend assigner vectors given { index := x, store := s } = .ok () y ∧
      Admits t i s.budget x.spec ((x.outgrown s labels).map (·.size)) bytes ∧
      y.store.budget.inUse + s.soleBytes ((x.outgrown s labels).map (·.list)) =
        s.budget.inUse + bytes) ∨
    ∃ e y, extend assigner vectors given { index := x, store := s } = .error e y ∧
      ∀ bytes, ¬ Admits t i s.budget x.spec ((x.outgrown s labels).map (·.size)) bytes := by
  have hplan : plan x.dim (x.sizes s) x.slots.size assigner vectors given =
      .ok (portionsOf x.slots.size x.dim vectors ids labels) :=
    (plan_sizes_eq_ok_iff hx hacc).mpr ⟨ids, labels, hx.size_slots ▸ haccepted, rfl⟩
  obtain ⟨hvalid, hnodup⟩ := valid_of_plan hx hacc hplan
  rw [outgrown_eq_portions hx hacc haccepted.size_vectors haccepted.size_ids, extend_eq,
    Action.bind_ok (Action.ofExcept_ok hplan _)]
  rcases stageAll_admits hx hacc (fun id hid => List.mem_append_left refs hid)
    (fun p hp => (hvalid p hp).label_lt) with
    ⟨staged, s₁, bytes, hstage, hadmits, hcharged⟩ | ⟨e, s₁, hstage, hrefused⟩
  · left
    have hstaged := stagedAll_of_ok hx hacc hvalid hnodup hstage
    obtain ⟨x', s', hplace, hacc', hplaced⟩ := placeAll_of_stageAll hx hacc hstaged hvalid hnodup
    refine ⟨{ index := x', store := s' }, bytes, ?_, hadmits, ?_⟩
    · rw [Action.bind_ok (stored_ok hstage)]
      exact hplace
    · rw [inUse_of_placed hx hacc hstaged hvalid hnodup hacc' hplaced, hcharged]
      rfl
  · exact Or.inr ⟨e, _, Action.bind_error (stored_error hstage), hrefused⟩

/-- The first half of `extend_admits`: when a batch is taken. -/
theorem exists_extend_ok_iff (hx : x.Sound s) (hacc : s.Accounts (x.slots.toList ++ refs) 0)
    (haccepted : Accepted x.dim (x.sizes s) x.lists assigner vectors given ids labels) :
    (∃ y, extend assigner vectors given { index := x, store := s } = .ok () y) ↔
      ∃ bytes, Admits t i s.budget x.spec ((x.outgrown s labels).map (·.size)) bytes := by
  rcases extend_admits hx hacc haccepted with ⟨y, bytes, hok, hadmits, -⟩ | ⟨e, y, herror, hrefused⟩
  · exact ⟨fun _ => ⟨bytes, hadmits⟩, fun _ => ⟨y, hok⟩⟩
  · constructor
    · rintro ⟨z, hok⟩
      cases herror.symm.trans hok
    · rintro ⟨bytes, hadmits⟩
      exact absurd hadmits (hrefused bytes)

/-- The second half of `extend_admits`: what is in use when a batch has been taken. -/
theorem inUse_extend (hx : x.Sound s) (hacc : s.Accounts (x.slots.toList ++ refs) 0)
    (haccepted : Accepted x.dim (x.sizes s) x.lists assigner vectors given ids labels)
    {y : OpenIndex t i} {bytes : Nat}
    (hok : extend assigner vectors given { index := x, store := s } = .ok () y)
    (hbytes : newBytes? t i x.spec ((x.outgrown s labels).map (·.size)) = some bytes) :
    y.store.budget.inUse + s.soleBytes ((x.outgrown s labels).map (·.list)) =
      s.budget.inUse + bytes := by
  rcases extend_admits hx hacc haccepted with ⟨z, bytes', hok', hadmits, hafter⟩ | ⟨e, z, herror, -⟩
  · cases hok'.symm.trans hok
    cases hadmits.bytes_eq.symm.trans hbytes
    exact hafter
  · cases herror.symm.trans hok

end Accepted

end InvertedFile.Index
