import Mathlib.Data.List.Nodup
import InvertedFile.Proofs.Index.Placing

/-!
# How an extension ends

An extension is a plan, room for all portions and the writing. The plan may
refuse the batch and room may be refused, and then nothing has changed. Once
room has been found the extension succeeds, and what each list holds is what
it held with the rows of its label behind, in the order of the batch.

## Main results

* `placeAll_of_stageAll` — what stands behind the search for room cannot fail.
* `Extended.size_eq` — the index grows by the rows of the batch.
* `extend_cases` — an extension changes nothing, or every list receives the
  rows of its label.
-/

namespace InvertedFile.Index

variable {t : ElementType} {i : IdType}

/-- The list `l'` under the name `id'` is the list `l` under the name `id` with more records. Where
they fit they are written in place; and otherwise into a new list, of the capacity that their
number asks for. A list that receives nothing is not touched. -/
structure Receives (s : Store t i) (id : ListId) (l : InvertedList t i)
    (records : List (Id i × List (Word t))) (id' : ListId) (l' : InvertedList t i) : Prop where
  spec_eq : l'.spec = l.spec
  published_eq : l'.published = l.published ++ records
  size_eq : l'.size = l.size + records.length
  untouched : records = [] → id' = id ∧ l' = l
  in_place : l.size + records.length ≤ l.capacity → id' = id ∧ l'.capacity = l.capacity
  grown : l.capacity < l.size + records.length →
    s.list? id' = none ∧ l.spec.growth.capacity? (l.size + records.length) = some l'.capacity

/-- Every list has received the rows of its label. -/
structure Extended (x : Index) (s : Store t i) (vectors : Array (Word t)) (ids : Array (Id i))
    (labels : Array Nat) (x' : Index) (s' : Store t i) : Prop where
  params_eq : x'.params = x.params
  spec_eq : x'.spec = x.spec
  size_slots : x'.slots.size = x.slots.size
  list : ∀ (label : Nat) (id : ListId) (l : InvertedList t i),
    x.slots[label]? = some id → s.list? id = some l →
    ∃ id' l', x'.slots[label]? = some id' ∧ s'.list? id' = some l' ∧
      Receives s id l (received x.dim vectors ids labels label) id' l'
  limit_eq : s'.budget.limit = s.budget.limit

private theorem eq_map_range (xs : List Nat) :
    xs = (List.range xs.length).map fun k => xs[k]?.getD 0 := by
  apply List.ext_getElem
  · simp
  · intro k hk _
    simp [hk]

/-- The index has grown by the rows of the batch. -/
theorem Extended.size_eq {x x' : Index} {s s' : Store t i} {vectors : Array (Word t)}
    {ids : Array (Id i)} {labels : Array Nat} (h : Extended x s vectors ids labels x' s')
    (hx : x.Sound s) (hvectors : vectors.size = labels.size * x.dim)
    (hids : ids.size = labels.size) (hlabels : ∀ label ∈ labels, label < x.slots.size) :
    x'.size s' = x.size s + labels.size := by
  have hold : x.sizes s =
      (List.range x.slots.size).map fun label => ((x.sizes s)[label]?).getD 0 := by
    rw [← length_sizes x s]
    exact eq_map_range (x.sizes s)
  have hnew : x'.sizes s' = (List.range x.slots.size).map fun label =>
      ((x.sizes s)[label]?).getD 0 + (rowsOf labels label).length := by
    apply List.ext_getElem?
    intro label
    rw [List.getElem?_map]
    by_cases hlt : label < x.slots.size
    · have hid := Array.getElem?_eq_getElem hlt
      obtain ⟨l, hl, -⟩ := hx.list label _ hid
      obtain ⟨id', l', hid', hl', hreceives⟩ := h.list label _ l hid hl
      rw [getElem?_sizes hid' hl', List.getElem?_range hlt, Option.map_some,
        getElem?_sizes hid hl, hreceives.size_eq, length_received hvectors hids]
      rfl
    · have hsize : x'.slots.size ≤ label := by
        rw [h.size_slots]
        omega
      rw [List.getElem?_eq_none (by rwa [length_sizes]), List.getElem?_eq_none]
      · rfl
      · rw [List.length_range]
        omega
  show (x'.sizes s').sum = (x.sizes s).sum + labels.size
  rw [hnew, List.sum_map_add, ← hold, sum_length_rowsOf hlabels]

section

variable {x : Index} {s s₁ : Store t i} {refs : List ListId}

theorem size_lt_of_mem_sizes (hx : x.Sound s) {pending : Nat} (hacc : s.Accounts refs pending) :
    ∀ size ∈ x.sizes s, size < countLimit := by
  intro size hsize
  obtain ⟨id, hid, rfl⟩ := List.mem_map.mp hsize
  obtain ⟨label, hlabel⟩ := mem_slots_iff.mp hid
  obtain ⟨l, hl, -⟩ := hx.list label id hlabel
  rw [hl]
  exact (hacc.wellFormed_list hl).size_lt

/-- A batch is planned for the lists of an index exactly when it is accepted. -/
theorem plan_sizes_eq_ok_iff (hx : x.Sound s) {pending : Nat} (hacc : s.Accounts refs pending)
    {assigner : Assigner t} {vectors : Array (Word t)} {given : Option (Array (Id i))}
    {ps : List (Portion t i)} :
    plan x.dim (x.sizes s) x.slots.size assigner vectors given = .ok ps ↔
      ∃ ids labels, Accepted x.dim (x.sizes s) x.slots.size assigner vectors given ids labels ∧
        ps = portionsOf x.slots.size x.dim vectors ids labels :=
  plan_eq_ok_iff x.spec.layout.dim_pos (x.length_sizes s) (size_lt_of_mem_sizes hx hacc)

/-- The portions of a plan are for lists that are there, each for another one. -/
theorem valid_of_plan (hx : x.Sound s) {pending : Nat} (hacc : s.Accounts refs pending)
    {assigner : Assigner t} {vectors : Array (Word t)} {given : Option (Array (Id i))}
    {ps : List (Portion t i)}
    (hplan : plan x.dim (x.sizes s) x.slots.size assigner vectors given = .ok ps) :
    (∀ p ∈ ps, p.Valid x.dim x.slots.size) ∧ (ps.map Portion.label).Nodup := by
  obtain ⟨ids, labels, haccepted, rfl⟩ := (plan_sizes_eq_ok_iff hx hacc).mp hplan
  exact ⟨fun p hp => valid_of_mem_portionsOf haccepted.size_vectors haccepted.size_ids hp,
    nodup_labels_portionsOf x.slots.size x.dim vectors ids labels⟩

/-- The list that is staged for a portion, as it is before the portion is written. -/
structure Awaits (x : Index) (s s₁ : Store t i) (st : Staged t i) (old : ListId)
    (l l₁ : InvertedList t i) : Prop where
  slot : x.slots[st.portion.label]? = some old
  list : s.list? old = some l
  takes : Takes s₁ st l₁
  wellFormed : l₁.WellFormed
  spec_eq : l₁.spec = x.spec
  size_eq : l₁.size = l.size
  published_eq : l₁.published = l.published
  room : (st.list = old ∧ l₁ = l ∧ l.size + st.portion.ids.size ≤ l.capacity) ∨
    (s.list? st.list = none ∧ l.capacity < l.size + st.portion.ids.size ∧
      x.spec.growth.capacity? (l.size + st.portion.ids.size) = some l₁.capacity)

/-- A list that is ready takes its portion. -/
theorem Ready.awaits {st : Staged t i} (h : Ready x s s₁ st) (hx : x.Sound s)
    (hslots : ∀ id ∈ x.slots.toList, id ∈ refs) {pending : Nat} (hacc : s.Accounts refs pending)
    (hleaves : Store.Leaves refs s s₁) (hvalid : st.portion.Valid x.dim x.slots.size) :
    ∃ old l l₁, Awaits x s s₁ st old l l₁ := by
  obtain ⟨old, l, hold, hl, hcases⟩ := h
  have hmem : old ∈ refs := hslots old (mem_of_slot hold)
  have hwell := hacc.wellFormed_list hl
  obtain ⟨hspec, -⟩ := hx.spec_tight hold hl
  rcases hcases with ⟨hstay, hroom⟩ |
    ⟨hnew, hgrow, capacity, after, hcapacity, hafter, hcopied⟩
  · refine ⟨old, l, l, hold, hl, ⟨?_, ?_, hroom⟩, hwell, hspec, rfl, rfl,
      Or.inl ⟨hstay, rfl, hroom⟩⟩
    · rw [hstay, hleaves old hmem, hl]
    · rw [hspec]
      exact hvalid.size_codes
  · have hblank := InvertedList.wellFormed_blank (t := t) (i := i) hcapacity
    have hfits : l.size + st.portion.ids.size ≤ capacity := Growth.le_capacity hcapacity
    have hkeep : l.size ≤ capacity := Nat.le_trans (Nat.le_add_right _ _) hfits
    have hdim : l.spec.dim = x.spec.dim := congrArg ListSpec.dim hspec
    have hspecAfter : after.spec = x.spec := hcopied.spec_eq
    have hcapacityAfter : after.capacity = capacity := hcopied.capacity_eq
    refine ⟨old, l, after, hold, hl, ⟨hafter, ?_, ?_⟩,
      InvertedList.wellFormed_copied hcopied hblank hkeep, hspecAfter, hcopied.size_eq, ?_,
      Or.inr ⟨hnew, hgrow, hcapacityAfter.symm ▸ hcapacity⟩⟩
    · rw [hspecAfter]
      exact hvalid.size_codes
    · rwa [hcopied.size_eq, hcapacityAfter]
    · rw [InvertedList.published_copied hcopied hwell hblank hdim (Nat.le_refl _) hkeep,
        List.take_of_length_le (Nat.le_of_eq (InvertedList.length_published hwell))]

/-- What comes of staging all portions, when it succeeds. -/
theorem stagedAll_of_ok {ps : List (Portion t i)} {staged : List (Staged t i)} (hx : x.Sound s)
    (hacc : s.Accounts (x.slots.toList ++ refs) 0)
    (hvalid : ∀ p ∈ ps, p.Valid x.dim x.slots.size) (hnodup : (ps.map Portion.label).Nodup)
    (hstage : stageAll x ps s = .ok staged s₁) :
    StagedAll x s (x.slots.toList ++ refs) 0 ps staged s₁ := by
  rcases stageAll_cases hx hacc (fun id hid => List.mem_append_left refs hid)
    (fun p hp => (hvalid p hp).label_lt) hnodup with
    ⟨e, s', herror, -⟩ | ⟨staged', s', hok, hstaged⟩
  · rw [hstage] at herror
    cases herror
  · rw [hstage] at hok
    cases hok
    exact hstaged

/-- The portions that are staged go to different labels. -/
theorem StagedAll.nodup_labels {ps : List (Portion t i)} {staged : List (Staged t i)}
    {pending : Nat} (hstaged : StagedAll x s refs pending ps staged s₁)
    (hnodup : (ps.map Portion.label).Nodup) : (staged.map (·.portion.label)).Nodup := by
  rw [← hstaged.portions_eq, List.map_map] at hnodup
  exact hnodup

/-- The lists that are staged can take their portions. -/
theorem StagedAll.takes {ps : List (Portion t i)} {staged : List (Staged t i)} (hx : x.Sound s)
    (hacc : s.Accounts (x.slots.toList ++ refs) 0)
    (hstaged : StagedAll x s (x.slots.toList ++ refs) 0 ps staged s₁)
    (hvalid : ∀ p ∈ ps, p.Valid x.dim x.slots.size) :
    ∀ st ∈ staged, st.portion.label < x.slots.size ∧ ∃ l, Takes s₁ st l := by
  intro st hst
  have hportion : st.portion ∈ ps :=
    hstaged.portions_eq ▸ List.mem_map.mpr ⟨st, hst, rfl⟩
  obtain ⟨old, l, l₁, hawaits⟩ := (hstaged.ready st hst).awaits hx
    (fun id hid => List.mem_append_left refs hid) hacc hstaged.leaves (hvalid _ hportion)
  exact ⟨(hvalid _ hportion).label_lt, l₁, hawaits.takes⟩

/-- Once room has been found for all portions, the rest cannot fail. -/
theorem placeAll_of_stageAll {ps : List (Portion t i)} {staged : List (Staged t i)}
    (hx : x.Sound s) (hacc : s.Accounts (x.slots.toList ++ refs) 0)
    (hstaged : StagedAll x s (x.slots.toList ++ refs) 0 ps staged s₁)
    (hvalid : ∀ p ∈ ps, p.Valid x.dim x.slots.size) (hnodup : (ps.map Portion.label).Nodup) :
    ∃ x' s', placeAll staged { index := x, store := s₁ } =
        .ok () { index := x', store := s' } ∧
      s'.Accounts (x'.slots.toList ++ refs) 0 ∧ Placed x s₁ refs staged x' s' :=
  placeAll_ok hstaged.accounts (hstaged.nodup_labels hnodup) hstaged.nodup
    (StagedAll.takes hx hacc hstaged hvalid)

/-- A list that has taken its portion has received what the label is to receive. -/
theorem Awaits.receives {st : Staged t i} {old : ListId} {l l₁ : InvertedList t i}
    {s' : Store t i} (h : Awaits x s s₁ st old l l₁) (hspec : l.spec = x.spec)
    (htaken : Taken s' st l₁) (hpos : 0 < st.portion.ids.size)
    {records : List (Id i × List (Word t))}
    (hbatch : InvertedList.batch x.dim st.portion.codes st.portion.ids = records) :
    ∃ l', s'.list? st.list = some l' ∧ Receives s old l records st.list l' := by
  obtain ⟨data, hdata, hpacked⟩ := htaken
  obtain ⟨-, hcodes, hroom⟩ := h.takes
  have hlength : records.length = st.portion.ids.size := by
    rw [← hbatch, InvertedList.length_batch]
  have hpublished := InvertedList.published_appended h.wellFormed hcodes hroom hpacked
  have hdim : l₁.spec.dim = x.dim := congrArg ListSpec.dim h.spec_eq
  rw [h.published_eq, hdim, hbatch] at hpublished
  refine ⟨l₁.appended data st.portion.ids, hdata, h.spec_eq.trans hspec.symm, hpublished, ?_, ?_,
    ?_, ?_⟩
  · rw [hlength, ← h.size_eq]
    rfl
  · intro hnone
    rw [hnone] at hlength
    exact absurd hlength (Nat.ne_of_lt hpos)
  · intro hfits
    rw [hlength] at hfits
    rcases h.room with ⟨hstay, hsame, -⟩ | ⟨-, hgrow, -⟩
    · refine ⟨hstay, ?_⟩
      show l₁.capacity = l.capacity
      rw [hsame]
    · exact absurd hfits (Nat.not_le.mpr hgrow)
  · intro hgrow
    rw [hlength] at hgrow ⊢
    rcases h.room with ⟨-, -, hfits⟩ | ⟨hnew, -, hcapacity⟩
    · exact absurd hfits (Nat.not_le.mpr hgrow)
    · rw [hspec]
      exact ⟨hnew, hcapacity⟩

theorem Receives.refl (s : Store t i) (id : ListId) {l : InvertedList t i}
    (hwell : l.WellFormed) : Receives s id l [] id l where
  spec_eq := rfl
  published_eq := (List.append_nil _).symm
  size_eq := rfl
  untouched := fun _ => ⟨rfl, rfl⟩
  in_place := fun _ => ⟨rfl, rfl⟩
  grown := fun hgrow => absurd hwell.size_le (Nat.not_le.mpr hgrow)

theorem received_eq_nil {dim : Nat} {vectors : Array (Word t)} {ids : Array (Id i)}
    {labels : Array Nat} {label : Nat} (h : rowsOf labels label = []) :
    received dim vectors ids labels label = [] := by
  rw [received, h]
  rfl

section Received

variable {vectors : Array (Word t)} {ids : Array (Id i)} {labels : Array Nat}
  {staged : List (Staged t i)} {x' : Index} {s' : Store t i} {label : Nat} {id : ListId}
  {l : InvertedList t i}

/-- A portion is staged for a label exactly when the batch has rows for it. -/
theorem mem_labels_staged
    (hstaged : StagedAll x s (x.slots.toList ++ refs) 0
      (portionsOf x.slots.size x.dim vectors ids labels) staged s₁)
    (hlabel : label < x.slots.size) :
    label ∈ staged.map (·.portion.label) ↔ rowsOf labels label ≠ [] := by
  have hlabels : staged.map (·.portion.label) =
      (List.range x.slots.size).filter fun label => rowsOf labels label ≠ [] := by
    rw [← labels_portionsOf x.slots.size x.dim vectors ids labels, ← hstaged.portions_eq,
      List.map_map]
    rfl
  rw [hlabels, List.mem_filter, decide_eq_true_iff]
  exact and_iff_right (List.mem_range.mpr hlabel)

/-- A list of a label without rows is nobody's staged list, and stays. -/
theorem receives_of_no_rows (hx : x.Sound s) (hacc : s.Accounts (x.slots.toList ++ refs) 0)
    (hstaged : StagedAll x s (x.slots.toList ++ refs) 0
      (portionsOf x.slots.size x.dim vectors ids labels) staged s₁)
    (hplaced : Placed x s₁ refs staged x' s') (hid : x.slots[label]? = some id)
    (hl : s.list? id = some l) (hrows : rowsOf labels label = []) :
    x'.slots[label]? = some id ∧ s'.list? id = some l ∧ Receives s id l [] id l := by
  have hlt : label < x.slots.size := (Array.getElem?_eq_some_iff.mp hid).1
  have hlabel : label ∉ staged.map (·.portion.label) := fun hmem =>
    (mem_labels_staged hstaged hlt).mp hmem hrows
  have hslot : x'.slots[label]? = some id := (hplaced.slot_other label hlabel).trans hid
  have hnot : id ∉ staged.map (·.list) := by
    intro hmem
    obtain ⟨st, hst, heq⟩ := List.mem_map.mp hmem
    obtain ⟨old, l₀, hold, -, ⟨hstay, -⟩ | ⟨hnew, -⟩⟩ := hstaged.ready st hst
    · have hsame := hx.slot_inj hid (by rw [hold, ← hstay, heq])
      exact hlabel (hsame ▸ List.mem_map.mpr ⟨st, hst, rfl⟩)
    · rw [heq, hl] at hnew
      cases hnew
  have hmem : id ∈ x.slots.toList := mem_of_slot hid
  have hmem' : id ∈ x'.slots.toList := mem_of_slot hslot
  refine ⟨hslot, ?_, Receives.refl s id (hacc.wellFormed_list hl)⟩
  rw [hplaced.list_other id (List.mem_append_left _ hmem') hnot,
    hstaged.leaves id (List.mem_append_left _ hmem), hl]

/-- A list of a label with rows has been staged and written. -/
theorem receives_of_rows (hx : x.Sound s) (hacc : s.Accounts (x.slots.toList ++ refs) 0)
    (hvectors : vectors.size = labels.size * x.dim) (hids : ids.size = labels.size)
    (hstaged : StagedAll x s (x.slots.toList ++ refs) 0
      (portionsOf x.slots.size x.dim vectors ids labels) staged s₁)
    (hplaced : Placed x s₁ refs staged x' s') (hid : x.slots[label]? = some id)
    (hl : s.list? id = some l) (hrows : rowsOf labels label ≠ []) :
    ∃ id' l', x'.slots[label]? = some id' ∧ s'.list? id' = some l' ∧
      Receives s id l (received x.dim vectors ids labels label) id' l' := by
  have hlt : label < x.slots.size := (Array.getElem?_eq_some_iff.mp hid).1
  obtain ⟨st, hst, rfl⟩ := List.mem_map.mp ((mem_labels_staged hstaged hlt).mpr hrows)
  have hportion : st.portion ∈ portionsOf x.slots.size x.dim vectors ids labels :=
    hstaged.portions_eq ▸ List.mem_map.mpr ⟨st, hst, rfl⟩
  have hvalid := valid_of_mem_portionsOf hvectors hids hportion
  obtain ⟨old, l₀, l₁, hawaits⟩ := (hstaged.ready st hst).awaits hx
    (fun id hid => List.mem_append_left refs hid) hacc hstaged.leaves hvalid
  have hold : old = id := Option.some.inj (hawaits.slot.symm.trans hid)
  subst hold
  have hsame : l₀ = l := Option.some.inj (hawaits.list.symm.trans hl)
  subst hsame
  have hbatch : InvertedList.batch x.dim st.portion.codes st.portion.ids =
      received x.dim vectors ids labels st.portion.label := by
    obtain ⟨label', -, heq⟩ := List.mem_map.mp hportion
    rw [← heq]
    exact batch_portion hvectors hids label'
  obtain ⟨l', hl', hreceives⟩ := hawaits.receives (hx.spec_tight hid hl).1
    (hplaced.taken st hst l₁ hawaits.takes) hvalid.size_pos hbatch
  exact ⟨st.list, l', hplaced.slot st hst, hl', hreceives⟩

/-- When the portions of a batch have been written every list has received its rows. -/
theorem extended_of_placed (hx : x.Sound s) (hacc : s.Accounts (x.slots.toList ++ refs) 0)
    (hvectors : vectors.size = labels.size * x.dim) (hids : ids.size = labels.size)
    (hstaged : StagedAll x s (x.slots.toList ++ refs) 0
      (portionsOf x.slots.size x.dim vectors ids labels) staged s₁)
    (hplaced : Placed x s₁ refs staged x' s') : Extended x s vectors ids labels x' s' where
  params_eq := hplaced.params_eq
  spec_eq := hplaced.spec_eq
  size_slots := hplaced.size_slots
  limit_eq := hplaced.limit_eq.trans hstaged.limit_eq
  list := by
    intro label id l hid hl
    by_cases hrows : rowsOf labels label = []
    · rw [received_eq_nil hrows]
      exact ⟨id, l, receives_of_no_rows hx hacc hstaged hplaced hid hl hrows⟩
    · exact receives_of_rows hx hacc hvectors hids hstaged hplaced hid hl hrows

end Received

/-- The lists of an index have no more room than they need after they have received their rows. -/
theorem Receives.tight {id id' : ListId} {l l' : InvertedList t i}
    {records : List (Id i × List (Word t))} (h : Receives s id l records id' l')
    (htight : l.Tight) : l'.Tight := by
  unfold InvertedList.Tight at htight ⊢
  rw [h.spec_eq, h.size_eq]
  by_cases hfits : l.size + records.length ≤ l.capacity
  · rw [(h.in_place hfits).2]
    exact Growth.room?_of_le htight (Nat.le_add_right _ _) hfits
  · have hgrow := Nat.not_le.mp hfits
    by_cases hnone : records = []
    · obtain ⟨-, rfl⟩ := h.untouched hnone
      rw [hnone] at hgrow ⊢
      exact htight
    · have hpos : 0 < records.length := List.length_pos_iff.mpr hnone
      rw [Growth.room?_of_pos (by omega)]
      exact (h.grown hgrow).2

/-- No two labels have one list after the portions have been written. -/
theorem nodup_of_placed {ps : List (Portion t i)} {staged : List (Staged t i)} {x' : Index}
    {s' : Store t i} (hx : x.Sound s)
    (hstaged : StagedAll x s (x.slots.toList ++ refs) 0 ps staged s₁)
    (hplaced : Placed x s₁ refs staged x' s') : x'.slots.toList.Nodup := by
  -- where the list of a label comes from
  have horigin : ∀ (label : Nat) (id : ListId), x'.slots[label]? = some id →
      (∃ st ∈ staged, st.portion.label = label ∧ st.list = id) ∨
        label ∉ staged.map (·.portion.label) ∧ x.slots[label]? = some id := by
    intro label id hid
    by_cases hmem : label ∈ staged.map (·.portion.label)
    · obtain ⟨st, hst, rfl⟩ := List.mem_map.mp hmem
      rw [hplaced.slot st hst, Option.some.injEq] at hid
      exact Or.inl ⟨st, hst, rfl, hid⟩
    · exact Or.inr ⟨hmem, (hplaced.slot_other label hmem).symm.trans hid⟩
  -- a staged list is the list of no other label
  have hother : ∀ st ∈ staged, ∀ label : Nat, label ∉ staged.map (·.portion.label) →
      x.slots[label]? ≠ some st.list := by
    intro st hst label hlabel hid
    obtain ⟨old, l, hold, -, ⟨hstay, -⟩ | ⟨hnew, -⟩⟩ := hstaged.ready st hst
    · have hsame := hx.slot_inj hid (hstay ▸ hold)
      exact hlabel (hsame ▸ List.mem_map.mpr ⟨st, hst, rfl⟩)
    · obtain ⟨l', hl', -⟩ := hx.list label _ hid
      rw [hnew] at hl'
      cases hl'
  rw [List.Nodup, List.pairwise_iff_getElem]
  intro a b ha hb hab heq
  have hgetA : x'.slots[a]? = some x'.slots.toList[a] := by
    rw [← Array.getElem?_toList, List.getElem?_eq_getElem ha]
  have hgetB : x'.slots[b]? = some x'.slots.toList[a] := by
    rw [← Array.getElem?_toList, List.getElem?_eq_getElem hb, heq]
  apply Nat.ne_of_lt hab
  rcases horigin a _ hgetA with ⟨st, hst, rfl, hlist⟩ | ⟨hnotA, hslotA⟩
  · rcases horigin b _ hgetB with ⟨st', hst', rfl, hlist'⟩ | ⟨hnotB, hslotB⟩
    · have hinj := List.inj_on_of_nodup_map hstaged.nodup hst hst' (hlist.trans hlist'.symm)
      rw [hinj]
    · exact absurd (hlist ▸ hslotB) (hother st hst b hnotB)
  · rcases horigin b _ hgetB with ⟨st', hst', rfl, hlist'⟩ | ⟨hnotB, hslotB⟩
    · exact absurd (hlist' ▸ hslotA) (hother st' hst' a hnotA)
    · exact hx.slot_inj hslotA hslotB

/-- What the holders of lists see of the writing of a batch. -/
theorem keeps_of_placed {ps : List (Portion t i)} {staged : List (Staged t i)} {x' : Index}
    {s' : Store t i} (hx : x.Sound s) (hacc : s.Accounts (x.slots.toList ++ refs) 0)
    (hstaged : StagedAll x s (x.slots.toList ++ refs) 0 ps staged s₁)
    (hvalid : ∀ p ∈ ps, p.Valid x.dim x.slots.size)
    (hplaced : Placed x s₁ refs staged x' s') : Store.Keeps refs s s' := by
  have hleaves := hstaged.leaves.mono fun id hid => List.mem_append_right x.slots.toList hid
  have hkeeps := hplaced.keeps fun st hst => (StagedAll.takes hx hacc hstaged hvalid st hst).2
  exact hleaves.keeps.trans
    (hkeeps.mono fun id hid => List.mem_append_right x'.slots.toList hid)

/-- An extension changes nothing, or every list receives the rows of its label. -/
theorem extend_cases (hx : x.Sound s) (hacc : s.Accounts (x.slots.toList ++ refs) 0)
    (assigner : Assigner t) (vectors : Array (Word t)) (given : Option (Array (Id i))) :
    (∃ e s', extend assigner vectors given { index := x, store := s } =
        .error e { index := x, store := s' } ∧ Store.Same s s' ∧
        (plan x.dim (x.sizes s) x.slots.size assigner vectors given = .error e ∨
          e.IsAllocation)) ∨
      ∃ ids labels x' s', extend assigner vectors given { index := x, store := s } =
          .ok () { index := x', store := s' } ∧
        Accepted x.dim (x.sizes s) x.slots.size assigner vectors given ids labels ∧
        Extended x s vectors ids labels x' s' ∧ x'.Sound s' ∧
        s'.Accounts (x'.slots.toList ++ refs) 0 ∧ Store.Keeps refs s s' := by
  rw [extend_eq]
  cases hplan : plan x.dim (x.sizes s) x.slots.size assigner vectors given with
  | error e =>
      left
      exact ⟨e, s, Action.bind_error (Action.ofExcept_error rfl _), .refl s, Or.inl rfl⟩
  | ok ps =>
      obtain ⟨ids, labels, haccepted, rfl⟩ := (plan_sizes_eq_ok_iff hx hacc).mp hplan
      obtain ⟨hvalid, hnodup⟩ := valid_of_plan hx hacc hplan
      rw [Action.bind_ok (Action.ofExcept_ok rfl _)]
      rcases stageAll_cases hx hacc (fun id hid => List.mem_append_left refs hid)
        (fun p hp => (hvalid p hp).label_lt) hnodup with
        ⟨e, s', hstage, hsame, he⟩ | ⟨staged, s₁, hstage, hstaged⟩
      · exact Or.inl ⟨e, s', Action.bind_error (stored_error hstage), hsame, Or.inr he⟩
      · right
        obtain ⟨x', s', hplace, hacc', hplaced⟩ :=
          placeAll_of_stageAll hx hacc hstaged hvalid hnodup
        have hextended := extended_of_placed hx hacc haccepted.size_vectors haccepted.size_ids
          hstaged hplaced
        refine ⟨ids, labels, x', s', ?_, haccepted, hextended, ?_, hacc',
          keeps_of_placed hx hacc hstaged hvalid hplaced⟩
        · rw [Action.bind_ok (stored_ok hstage)]
          exact hplace
        · constructor
          · rw [hplaced.size_slots, hx.size_slots, lists, lists, hplaced.params_eq]
          · rw [hplaced.spec_eq, hplaced.params_eq]
            exact hx.growth_eq
          · exact nodup_of_placed hx hstaged hplaced
          · intro label id' hid'
            have hlt : label < x.slots.size :=
              hplaced.size_slots ▸ (Array.getElem?_eq_some_iff.mp hid').1
            have hslot := Array.getElem?_eq_getElem hlt
            obtain ⟨l, hl, hspec, htight⟩ := hx.list label _ hslot
            obtain ⟨new, l', hnew, hl', hreceives⟩ := hextended.list label _ l hslot hl
            have hsame : new = id' := Option.some.inj (hnew.symm.trans hid')
            subst hsame
            refine ⟨l', hl', ?_, hreceives.tight htight⟩
            rw [hreceives.spec_eq, hspec, hplaced.spec_eq]

end

end InvertedFile.Index
