import InvertedFile.Proofs.Workspace.Reached

/-!
# Extending an index that was reached

An index that was reached by any commands is in order, whatever else holds its
lists. So what is known of extensions holds for it without a condition: a
batch that is refused has changed nothing, and one that is taken has been
dealt out to the lists by label, behind what they held.

## Main results

* `extend_all_or_nothing` — a refused batch leaves everything as it was, and
  after room has been found for a batch it is not refused.
* `extend_deals_out` — every list receives the rows of its label.
-/

namespace InvertedFile.Workspace

open InvertedFile.Action

variable {t : ElementType} {i : IdType}

/-- An extension that fails leaves the index and every list of the store as they were, and the
budget. Once there is room for all portions of a batch, it does not fail. -/
theorem extend_all_or_nothing {limit : Option Nat} {w : Workspace t i} (hw : Reached limit w)
    {name : String} {x : Index} (hname : w.indexes.find? name = some x) (assigner : Assigner t)
    (vectors : Array (Word t)) (ids : Option (Array (Id i))) :
    (∀ e y, Index.extend assigner vectors ids { index := x, store := w.store } = .error e y →
      y.index = x ∧ y.store.budget = w.store.budget ∧
        ∀ id, y.store.find? id = w.store.find? id) ∧
    ∀ portions staged s,
      Index.plan x.dim (x.sizes w.store) x.slots.size assigner vectors ids = .ok portions →
      Index.stageAll x portions w.store = .ok staged s →
      ∃ y, Index.placeAll staged { index := x, store := s } = .ok () y ∧
        Index.extend assigner vectors ids { index := x, store := w.store } = .ok () y := by
  obtain ⟨held, hsound⟩ := hw.sound
  have hx := hsound.index name x hname
  have hacc := hsound.accounts_index hname
  constructor
  · intro e y hextend
    rcases Index.extend_cases hx hacc assigner vectors ids with
      ⟨e', s', hrun, hsame, -⟩ | ⟨_, _, x', s', hrun, -⟩
    · rw [hrun] at hextend
      cases hextend
      exact ⟨rfl, hsame.budget_eq, hsame.find?_eq⟩
    · rw [hrun] at hextend
      cases hextend
  · intro portions staged s hplan hstage
    obtain ⟨hvalid, hnodup⟩ := Index.valid_of_plan hx hacc hplan
    rcases Index.stageAll_cases hx hacc (fun id hid => List.mem_append_left _ hid)
      (fun p hp => (hvalid p hp).label_lt) hnodup with
      ⟨e, s', herror, -⟩ | ⟨staged', s', hok, hstaged⟩
    · rw [hstage] at herror
      cases herror
    · rw [hstage] at hok
      cases hok
      obtain ⟨x', s', hplace, -⟩ := Index.placeAll_of_stageAll hx hacc hstaged hvalid hnodup
      refine ⟨{ index := x', store := s' }, hplace, ?_⟩
      rw [Index.extend_eq, bind_ok (ofExcept_ok hplan _), bind_ok (Index.stored_ok hstage)]
      exact hplace

/-- Records of one column. -/
def oneColumn : ListSpec where
  layout :=
    { dim := 1
      veclen := 1
      dim_pos := by decide
      dim_lt := by decide
      veclen_isPowerOfTwo := ⟨0, rfl⟩
      veclen_dvd_dim := by decide }
  growth := .doubling

/-- An index of two lists that are kept at these places. -/
def twoLists (first second : Nat) : Index where
  params := .new 2
  spec := oneColumn
  slots := #[⟨first⟩, ⟨second⟩]

/-- A new index of two lists over a budget for one and a half. -/
def narrowBudget : Workspace .u8 .i32 :=
  final (perform (.step (.createIndex "x" 1 (.new 2)))) (new .u8 .i32 (some 200))

/-- A batch for both lists, of which only the first finds room, leaves no trace. -/
theorem extend_narrowBudget : ∃ x e y, narrowBudget.indexes.find? "x" = some x ∧
    Index.extend (Assigner.precomputed #[0, 1]) #[1, 2] none
        { index := x, store := narrowBudget.store } = .error e y ∧
      e = .allocation 128 (.exhausted 192 200) ∧ y.index = x ∧
        y.store.budget = narrowBudget.store.budget ∧
        ∀ id, y.store.find? id = narrowBudget.store.find? id := by
  have hextend : Index.extend (Assigner.precomputed #[0, 1]) #[1, 2] none
      { index := twoLists 0 1, store := narrowBudget.store } =
        .error (.allocation 128 (.exhausted 192 200))
          (final (Index.extend (Assigner.precomputed #[0, 1]) #[1, 2] none)
            { index := twoLists 0 1, store := narrowBudget.store }) := by
    apply eq_error_of_failure?
    decide +kernel
  have hname : narrowBudget.indexes.find? "x" = some (twoLists 0 1) := by
    decide +kernel
  have hreached : Reached (some 200) narrowBudget := Reached.new.perform _
  have hwhole := extend_all_or_nothing hreached hname (Assigner.precomputed #[0, 1]) #[1, 2] none
  exact ⟨twoLists 0 1, _, _, hname, hextend, rfl, hwhole.1 _ _ hextend⟩

/-- A batch that is taken is dealt out: there are ids and labels for its rows as the checks
establish them, every list holds what it held with the rows of its label behind, in their order,
and the index has grown by the rows. -/
theorem extend_deals_out {limit : Option Nat} {w : Workspace t i} (hw : Reached limit w)
    {name : String} {x : Index} (hname : w.indexes.find? name = some x) {assigner : Assigner t}
    {vectors : Array (Word t)} {given : Option (Array (Id i))} {y : OpenIndex t i}
    (hextend : Index.extend assigner vectors given { index := x, store := w.store } = .ok () y) :
    ∃ ids labels,
      Index.Accepted x.dim (x.sizes w.store) x.lists assigner vectors given ids labels ∧
      y.index.size y.store = x.size w.store + labels.size ∧
      ∀ label < x.lists, ∃ id l id' l',
        x.slots[label]? = some id ∧ w.store.list? id = some l ∧
        y.index.slots[label]? = some id' ∧ y.store.list? id' = some l' ∧
        Index.Receives w.store id l (Index.received x.dim vectors ids labels label) id' l' := by
  obtain ⟨held, hsound⟩ := hw.sound
  have hx := hsound.index name x hname
  rcases Index.extend_cases hx (hsound.accounts_index hname) assigner vectors given with
    ⟨e, s', hrun, -⟩ | ⟨ids, labels, x', s', hrun, haccepted, hextended, -⟩
  · rw [hrun] at hextend
    cases hextend
  · rw [hrun] at hextend
    cases hextend
    rw [hx.size_slots] at haccepted
    refine ⟨ids, labels, haccepted, ?_, ?_⟩
    · exact hextended.size_eq hx haccepted.size_vectors haccepted.size_ids
        fun label hlabel => hx.lt_size.mpr (haccepted.label_lt label hlabel)
    · intro label hlt
      have hid := Array.getElem?_eq_getElem (hx.lt_size.mpr hlt)
      obtain ⟨l, hl, -⟩ := hx.list label _ hid
      obtain ⟨id', l', hid', hl', hreceives⟩ := hextended.list label _ l hid hl
      exact ⟨_, l, id', l', hid, hl, hid', hl', hreceives⟩

/-- An index of two lists, of which the second holds a record. -/
def oneRecord : Workspace .u8 .i32 :=
  final (perform (.step (.extend "x" #[7] none (Assigner.precomputed #[1]))))
    (final (perform (.step (.createIndex "x" 1 (.new 2)))) (new .u8 .i32 none))

/-- The second list takes the first and the last row of a batch behind the record it holds. -/
theorem extend_oneRecord : ∃ x y id l, oneRecord.indexes.find? "x" = some x ∧
    Index.extend (Assigner.precomputed #[1, 0, 1]) #[8, 9, 10] (some #[50, 60, 70])
        { index := x, store := oneRecord.store } = .ok () y ∧
      y.index.size y.store = 4 ∧ y.index.slots[1]? = some id ∧ y.store.list? id = some l ∧
      l.published = [(0, [7]), (50, [8]), (70, [10])] := by
  have hextend : Index.extend (Assigner.precomputed #[1, 0, 1]) #[8, 9, 10] (some #[50, 60, 70])
      { index := twoLists 0 2, store := oneRecord.store } = .ok ()
        (final (Index.extend (Assigner.precomputed #[1, 0, 1]) #[8, 9, 10] (some #[50, 60, 70]))
          { index := twoLists 0 2, store := oneRecord.store }) := by
    apply eq_ok_of_failure?
    decide +kernel
  have hname : oneRecord.indexes.find? "x" = some (twoLists 0 2) := by
    decide +kernel
  have hreached : Reached none oneRecord := (Reached.new.perform _).perform _
  obtain ⟨ids, labels, haccepted, hgrown, hlists⟩ := extend_deals_out hreached hname hextend
  have hsize : 3 = labels.size * 1 := haccepted.size_vectors
  obtain ⟨-, rfl⟩ := haccepted.ids_eq (by omega)
  obtain ⟨assigned, hassigned, rfl⟩ := haccepted.labels_eq (by omega)
  cases hassigned
  obtain ⟨id, l, id', l', hid, hl, hid', hl', hreceives⟩ := hlists 1 (by decide)
  cases hid
  have hpublished : (oneRecord.store.list? ⟨2⟩).map (·.published) = some [(0, [7])] := by
    decide +kernel
  have hheld : oneRecord.store.list? ⟨2⟩ = some l := hl
  rw [hheld, Option.map_some, Option.some.injEq] at hpublished
  refine ⟨twoLists 0 2, _, id', l', hname, hextend, ?_, hid', hl', ?_⟩
  · rw [hgrown]
    decide +kernel
  · rw [hreceives.published_eq, hpublished]
    decide +kernel

end InvertedFile.Workspace
