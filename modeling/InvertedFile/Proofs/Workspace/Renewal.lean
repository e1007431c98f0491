import InvertedFile.Proofs.Index.Freed
import InvertedFile.Proofs.Workspace.Chronicle
import InvertedFile.Proofs.Workspace.Uses

/-!
# A reset makes an index new

A reset takes the lists of an index away from it and gives it empty ones. The
parameters stay, and so does the layout. Nothing else is left of what the index
went through: its lists look like those of an index that has just been made of
the same parameters for the same width. So the two cannot be told apart by
anything they are used for, wherever the other one was made.

The lists that were taken away are gone, unless somebody else holds them. These
keep them as they are.

## Main results

* `reset_renewed` — what a reset comes to.
* `reset_as_new` — a reset index replies as a new one does.
-/

namespace InvertedFile.Workspace

open InvertedFile.Action

variable {t : ElementType} {i : IdType} {w w' : Workspace t i} {held : List ListId}
  {name : String} {x y : Index}

/-- The index of a name has been reset. It has empty lists in the place of those it had, which are
gone where nobody else holds them, and nothing else has changed. -/
structure Renewed (w : Workspace t i) (name : String) (x : Index) (w' : Workspace t i)
    (y : Index) : Prop where
  find?_eq : w'.indexes.find? name = some y
  params_eq : y.params = x.params
  spec_eq : y.spec = x.spec
  size_slots : y.slots.size = x.slots.size
  vacant : OpenIndex.Vacant { index := y, store := w'.store }
  gone : ∀ id ∈ x.slots.toList, ∀ h, w.store.find? id = some h → h.holders ≤ 1 →
    w'.store.find? id = none
  stays : ∀ id h, w.store.find? id = some h → id ∉ x.slots.toList ∨ 1 < h.holders →
    w'.store.list? id = some h.list
  inUse_eq : w'.store.budget.inUse + w.store.soleBytes x.slots.toList = w.store.budget.inUse
  limit_eq : w'.store.budget.limit = w.store.budget.limit
  lists_eq : w'.lists = w.lists
  blobs_eq : w'.blobs = w.blobs
  others_eq : ∀ other ≠ name, w'.indexes.find? other = w.indexes.find? other

/-- The index of a name is reset. -/
theorem reset_renewed (h : w.Sound held 0) (hname : w.indexes.find? name = some x) :
    ∃ y w', performStep (.reset name) w = .ok (.indexInfo (w'.indexInfo y)) w' ∧
      Renewed w name x w' y := by
  have hx := h.opened hname
  obtain ⟨y, s, hrun, -, hreset⟩ := Index.reset_ok hx.index hx.accounts
  have hclosed := Index.reset_close hx.index hrun
  have hplace : ∀ id holding, w.store.find? id = some holding →
      s.find? id = if id ∈ x.slots.toList then Store.letGo holding else some holding :=
    fun id holding hfind => (hclosed.find?_eq id (Store.lt_size_of_find? hfind)).trans
      (Store.find?_releaseAll hx.index.nodup hfind)
  refine ⟨y, w.withOpen name ⟨y, s⟩, reset_ok hname hrun, find?_withOpen .., hreset.params_eq,
    hreset.spec_eq, hreset.size_slots, OpenIndex.vacant_of_reset hx.index hreset, ?_, ?_, ?_,
    hreset.limit_eq, rfl, rfl, fun other hne => Names.find?_put_ne hne ..⟩
  · intro id hid holding hfind hsole
    change s.find? id = none
    rw [hplace id holding hfind, if_pos hid, Store.letGo, if_pos hsole]
  · intro id holding hfind hheld
    change s.list? id = some holding.list
    have hleft := hplace id holding hfind
    by_cases hid : id ∈ x.slots.toList
    · have hshared : ¬ holding.holders ≤ 1 :=
        Nat.not_le.mpr (hheld.resolve_left fun hnot => hnot hid)
      rw [if_pos hid, Store.letGo, if_neg hshared] at hleft
      rw [Store.list?_of_find? hleft]
    · rw [if_neg hid] at hleft
      exact Store.list?_of_find? hleft
  · change s.budget.inUse + _ = _
    rw [hclosed.budget_eq]
    exact Store.inUse_releaseAll hx.accounts hx.index.nodup

/-- Lists without slots take no bytes. -/
theorem soleBytes_of_vacant {s : Store t i} (hy : y.Sound s)
    (hvacant : OpenIndex.Vacant { index := y, store := s }) : s.soleBytes y.slots.toList = 0 := by
  unfold Store.soleBytes
  apply List.sum_eq_zero
  intro bytes hbytes
  obtain ⟨holding, hheld, rfl⟩ := List.mem_map.mp hbytes
  obtain ⟨id, hid, hfind⟩ := List.mem_filterMap.mp (List.mem_filter.mp hheld).1
  obtain ⟨label, hslot⟩ := Index.mem_slots_iff.mp hid
  have hlt : label < y.lists := hy.lt_size.mp (Array.getElem?_eq_some_iff.mp hslot).1
  have hl : y.slots[label]?.bind s.list? = some (.empty t i y.spec) := hvacant label hlt
  rw [hslot, Option.bind_some, Store.list?_of_find? hfind, Option.some.injEq] at hl
  rw [hl, InvertedList.memoryBytes_empty]

namespace Renewed

/-- The lists of a reset index have no records and no slots. -/
theorem list (h : Renewed w name x w' y) (label : Nat) (hlt : label < y.lists) :
    ∃ id l, y.slots[label]? = some id ∧ w'.store.list? id = some l ∧ l.size = 0 ∧
      l.capacity = 0 := by
  obtain ⟨id, hid, hl⟩ := Option.bind_eq_some_iff.mp (h.vacant label hlt)
  exact ⟨id, _, hid, hl, rfl, rfl⟩

/-- A reset of empty lists gives no bytes back. -/
theorem budget_eq (h : Renewed w name x w' y) (hx : x.Sound w.store)
    (hvacant : OpenIndex.Vacant { index := x, store := w.store }) :
    w'.store.budget = w.store.budget := by
  have hinUse := h.inUse_eq
  have hlimit := h.limit_eq
  rw [soleBytes_of_vacant hx hvacant, Nat.add_zero] at hinUse
  cases hbudget : w'.store.budget
  cases hbefore : w.store.budget
  simp_all

end Renewed

/-! ## What cannot be told -/

/-- Nothing that is asked or saved of the index of a name tells that something has happened, and no
bytes are in use for it. -/
structure Unnoticed (w : Workspace t i) (name : String) (w' : Workspace t i) : Prop where
  budget_eq : w'.store.budget = w.store.budget
  query : ∀ q, reply (performStep (.queryIndex name q)) w' =
    reply (performStep (.queryIndex name q)) w
  save : ∀ room blob, reply (performStep (.saveIndex name room blob)) w' =
    reply (performStep (.saveIndex name room blob)) w
  serve : ∀ us, Alongside us (serve name us w) (serve name us w')

/-- Indexes that look alike, over the same budget, cannot be told apart. -/
theorem Matched.unnoticed (h : Matched w name w' name)
    (hbudget : w'.store.budget = w.store.budget) : Unnoticed w name w' where
  budget_eq := hbudget
  query := by
    intro q
    obtain ⟨x, x', refs, refs', hname, hname', hx, hx', halike⟩ := h.opened
    rw [(answered_eq (queryIndex_eq hname q)).1, (answered_eq (queryIndex_eq hname' q)).1,
      halike.answer_eq hx hx']
  save := by
    intro room blob
    obtain ⟨held, hw⟩ := h.left
    obtain ⟨held', hw'⟩ := h.right
    obtain ⟨x, x', hname, hname', halike⟩ := h.alike
    rw [reply, reply, saveIndex_step_eq hw hname, saveIndex_step_eq hw' hname', hbudget,
      halike.write_eq (hw.opened hname) (hw'.opened hname')]
    cases x.write w.store { budget := w.store.budget, stream := .empty room } <;> rfl
  serve := h.serve

/-- A second reset is not noticed. -/
theorem Renewed.again (h : Renewed w name x w' y) (hw' : ∃ held, w'.Sound held 0) :
    ∃ z w'', performStep (.reset name) w' = .ok (.indexInfo (w'.indexInfo y)) w'' ∧
      Renewed w' name y w'' z ∧ Unnoticed w' name w'' := by
  obtain ⟨held, hsound⟩ := hw'
  obtain ⟨z, w'', hstep, hagain⟩ := reset_renewed hsound h.find?_eq
  have hsound' := (leads_performStep hsound (.reset name)).final.sound
  rw [final_ok hstep] at hsound'
  have halike := h.vacant.alike hagain.vacant hagain.params_eq hagain.spec_eq
  have hmatched : Matched w' name w'' name :=
    ⟨⟨held, hsound⟩, ⟨held, hsound'⟩, y, z, h.find?_eq, hagain.find?_eq, halike⟩
  refine ⟨z, w'', ?_, hagain,
    hmatched.unnoticed (hagain.budget_eq (hsound.index name y h.find?_eq) h.vacant)⟩
  rw [hstep, halike.indexInfo_eq (hsound.opened h.find?_eq) (hsound'.opened hagain.find?_eq)]

/-! ## As good as new -/

/-- A reset index and one that has just been made of its parameters look alike. -/
theorem Renewed.matched {params : IndexParams} {dim : UInt32} {made : LoadedIndex t i}
    (h : Renewed w name x w' y) (hw' : ∃ held, w'.Sound held 0) (hparams : x.params = params)
    (hnew : LoadedIndex.new t i params dim = .ok made) (hspec : x.spec = made.spec)
    {v : Workspace t i} {other : String} {z : Index} (hv : ∃ held, v.Sound held 0)
    (htakes : Takes made v other z) : Matched w' name v other := by
  obtain ⟨-, hmade, -⟩ := LoadedIndex.creatable_new hnew
  refine ⟨hw', hv, y, z, h.find?_eq, htakes.find?_eq, ?_⟩
  apply h.vacant.alike (htakes.vacant hnew)
  · exact htakes.params_eq.trans (hmade.trans (hparams.symm.trans h.params_eq.symm))
  · exact htakes.spec_eq.trans (hspec.symm.trans h.spec_eq.symm)

/-- **A reset index is as good as new.** Whatever an index has gone through since it was made, a
reset leaves it its parameters, its width, its chunk width and its number of lists, and every list
without records and without slots. The lists it had are gone where nobody else holds them, and
their bytes are free. A second reset is not noticed. And wherever a new index is made of the same
parameters for the same width, all later uses of the two are replied to in the same way, except
where a budget refuses. -/
theorem reset_as_new {params : IndexParams} {dim : UInt32} {rows : Option (List (Row t i))}
    (h : Chronicle params dim w name rows) :
    ∃ x y w₁, w.indexes.find? name = some x ∧
      performStep (.reset name) w = .ok (.indexInfo (w₁.indexInfo y)) w₁ ∧
      Renewed w name x w₁ y ∧
      y.params = params ∧ y.dim = dim.toNat ∧ y.veclen = x.veclen ∧ y.slots.size = x.slots.size ∧
      (∀ label < y.lists, ∃ id l, y.slots[label]? = some id ∧ w₁.store.list? id = some l ∧
        l.size = 0 ∧ l.capacity = 0) ∧
      (∃ z w₂, performStep (.reset name) w₁ = .ok (.indexInfo (w₁.indexInfo y)) w₂ ∧
        Renewed w₁ name y w₂ z ∧ Unnoticed w₁ name w₂) ∧
      ∀ limit (v : Workspace t i), Reached limit v → ∀ other, ∃ a v₁,
        performStep (.createIndex other dim params) v = .ok a v₁ ∧
        ∀ us, Alongside us (serve name us w₁) (serve other us v₁) ∧
          ((∀ r ∈ serve name us w₁, ¬ r.OverBudget) →
            (∀ r ∈ serve other us v₁, ¬ r.OverBudget) →
            serve other us v₁ = serve name us w₁) := by
  obtain ⟨x, hx⟩ := h.follows
  obtain ⟨limit, hw⟩ := hx.reached
  obtain ⟨held, hsound⟩ := hw.sound
  obtain ⟨y, w₁, hstep, hrenewed⟩ := reset_renewed hsound hx.find?_eq
  have hsound₁ := (leads_performStep hsound (.reset name)).final.sound
  rw [final_ok hstep] at hsound₁
  obtain ⟨made, hnew, hspec⟩ := hx.spec_eq
  refine ⟨x, y, w₁, hx.find?_eq, hstep, hrenewed, hrenewed.params_eq.trans hx.params_eq,
    (congrArg ListSpec.dim hrenewed.spec_eq).trans hx.dim_eq,
    congrArg ListSpec.veclen hrenewed.spec_eq, hrenewed.size_slots, hrenewed.list,
    hrenewed.again ⟨held, hsound₁⟩, ?_⟩
  intro limit' v hv other
  obtain ⟨held', hsound'⟩ := hv.sound
  obtain ⟨a, v₁, z, hcreate, htakes⟩ := createIndex_ok hsound' hnew other
  have hsound₂ := (leads_performStep hsound' (.createIndex other dim params)).final.sound
  rw [final_ok hcreate] at hsound₂
  have hmatched := hrenewed.matched ⟨held, hsound₁⟩ hx.params_eq hnew hspec ⟨held', hsound₂⟩ htakes
  exact ⟨a, v₁, hcreate, fun us =>
    ⟨hmatched.serve us, fun hrs hrs' => (hmatched.serve us).eq hrs hrs'⟩⟩

/-- A reply that is not a failure does not come from a budget that refused. -/
theorem Reply.not_overBudget_of_isOk {r : Reply t i} (h : r.isOk) : ¬ r.OverBudget := by
  rintro ⟨e, remains, rfl, -⟩
  cases h

/-- Two rows are added, the lists are looked at and the index is saved. -/
def someUses : List (Use .u8 .i32) :=
  [ .extend #[5, 6] none (Assigner.precomputed #[1, 0]), .query .contents, .save none none ]

/-- An index of three records that is reset replies to them as a new one does. -/
theorem reset_takenThree : ∃ w₁ v₁ a b,
    performStep (.reset "x") takenThree = .ok a w₁ ∧
      performStep (.createIndex "y" 1 (.new 2)) (new .u8 .i32 none) = .ok b v₁ ∧
      serve "y" someUses v₁ = serve "x" someUses w₁ := by
  obtain ⟨x, y, w₁, -, hreset, -, -, -, -, -, -, -, hnew⟩ := reset_as_new chronicle_takenThree
  obtain ⟨b, v₁, hcreate, hserve⟩ := hnew none (new .u8 .i32 none) Reached.new "y"
  refine ⟨w₁, v₁, _, b, hreset, hcreate, (hserve someUses).2 ?_ ?_⟩
  · have hgoes : (serve "x" someUses
        (final (performStep (.reset "x")) takenThree)).all (·.isOk) := by
      decide +kernel
    have hend : final (performStep (.reset "x")) takenThree = w₁ := final_ok hreset
    rw [hend, List.all_eq_true] at hgoes
    exact fun r hr => Reply.not_overBudget_of_isOk (hgoes r hr)
  · have hgoes : (serve "y" someUses
        (final (performStep (.createIndex "y" 1 (.new 2))) (new .u8 .i32 none))).all (·.isOk) := by
      decide +kernel
    rw [final_ok hcreate, List.all_eq_true] at hgoes
    exact fun r hr => Reply.not_overBudget_of_isOk (hgoes r hr)

end InvertedFile.Workspace
