import InvertedFile.Proofs.Index.Alike
import InvertedFile.Proofs.InvertedList.View
import InvertedFile.Workspace.Perform

/-!
# What indexes that look alike answer

A list that looks like another one might as well have evolved from it, with
nothing published. So all that a view shows of the one is shown of the other,
although their buffers differ where nobody looks, and indexes that look alike
answer every question in the same way.

## Main results

* `Alike.view_agrees` — lists that look alike show the same.
* `Alike.answer_eq` — indexes that look alike give the same answers.
-/

namespace InvertedFile

variable {t : ElementType} {i : IdType}

namespace InvertedList

variable {l l' : InvertedList t i}

/-- A list that looks like another one has evolved from it as far as anybody can see. -/
theorem Alike.evolves (h : l.Alike l') (hl : l.WellFormed) (hl' : l'.WellFormed) :
    l.Evolves l' where
  spec_eq := h.spec_eq
  capacity_eq := h.capacity_eq
  reserved_eq := hl'.reserved_eq.trans (h.memoryBytes_eq.trans hl.reserved_eq.symm)
  size_data := by
    rw [hl'.size_data, hl.size_data, extents, extents, h.spec_eq, h.capacity_eq]
  size_ids := by rw [hl'.size_ids, hl.size_ids, h.capacity_eq]
  size_le := Nat.le_of_eq h.size_eq.symm
  fits := fun _ => hl'.size_le
  id := fun p hp => (slot_congr hl hl' h.published_eq hp).1
  word := by
    intro p hp d hd
    have hroom : p < l.capacity := Nat.lt_of_lt_of_le hp hl.size_le
    have hcolumn := hl'.getElem?_record (h.capacity_eq.symm ▸ hroom) (h.spec_eq.symm ▸ hd)
    rw [(slot_congr hl hl' h.published_eq hp).2, hl.getElem?_record hroom hd, h.spec_eq] at hcolumn
    exact hcolumn.symm

/-- Everything that can be read of the one list is read of the other. -/
theorem Alike.view_agrees (h : l.Alike l') (hl : l.WellFormed) (hl' : l'.WellFormed) :
    View.Agrees l.view l'.view := by
  have hview : l'.view = { list := l', size := l.size } := by rw [view, h.size_eq]
  rw [hview]
  exact (h.evolves hl hl').view_agrees (Nat.le_refl l.size)

end InvertedList

namespace OpenIndex.Alike

open Index Workspace

variable {y y' : OpenIndex t i} {refs refs' : List ListId}

/-- A label is one of the one index or out of the bounds of both. -/
theorem slot_cases (h : y.Alike y') (hy : y.Sound refs) (hy' : y'.Sound refs') (label : Nat) :
    (∃ id l id' l', y.index.slot label = .ok id ∧ y.store.list? id = some l ∧
      y'.index.slot label = .ok id' ∧ y'.store.list? id' = some l' ∧ l.Alike l' ∧
      View.Agrees l.view l'.view) ∨
      ∃ e, y.index.slot label = .error e ∧ y'.index.slot label = .error e := by
  by_cases hlt : label < y.index.lists
  · obtain ⟨id, l, id', l', hid, hl, hid', hl', halike⟩ := h.list label hlt
    exact Or.inl ⟨id, l, id', l', slot_ok hid, hl, slot_ok hid', hl', halike,
      halike.view_agrees (hy.wellFormed hl) (hy'.wellFormed hl')⟩
  · right
    have hnone : y.index.slots[label]? = none := by
      rw [Array.getElem?_eq_none_iff, hy.index.size_slots]
      omega
    have hnone' : y'.index.slots[label]? = none := by
      rw [Array.getElem?_eq_none_iff, h.size_slots hy hy', hy.index.size_slots]
      omega
    refine ⟨.outOfBounds .clusterLabel (label + 1) y.index.slots.size, ?_, ?_⟩
    · rw [slot, hnone]
    · rw [slot, hnone', h.size_slots hy hy']

/-- What is told of the list of a label is the same where it is the same for lists that look alike.
-/
theorem onSlot_eq {α : Type} (h : y.Alike y') (hy : y.Sound refs) (hy' : y'.Sound refs')
    (label : Nat) {f : InvertedList t i → Except Error α}
    (hf : ∀ l l' : InvertedList t i, l.Alike l' → View.Agrees l.view l'.view → f l' = f l) :
    (do
      let id ← y'.index.slot label
      match y'.store.list? id with
      | none => throw (.fault .unknownList)
      | some l => f l : Except Error α) =
      (do
        let id ← y.index.slot label
        match y.store.list? id with
        | none => throw (.fault .unknownList)
        | some l => f l : Except Error α) := by
  rcases h.slot_cases hy hy' label with
    ⟨id, l, id', l', hid, hl, hid', hl', halike, hview⟩ | ⟨e, herror, herror'⟩
  · simp only [hid, hid', bind, Except.bind, hl, hl']
    exact hf l l' halike hview
  · rw [herror, herror']
    rfl

/-- The records of a label are copied out alike. -/
theorem unpack_eq (h : y.Alike y') (hy : y.Sound refs) (hy' : y'.Sound refs')
    (label start : Nat) :
    y'.index.unpack y'.store label start = y.index.unpack y.store label start := by
  rcases h.slot_cases hy hy' label with
    ⟨id, l, id', l', hid, hl, hid', hl', -, hview⟩ | ⟨e, herror, herror'⟩
  · rw [unpack_of_list hid hl, unpack_of_list hid' hl', hview.unpack_eq]
  · funext out
    rw [unpack_of_error herror, unpack_of_error herror']

theorem elements_eq (h : y.Alike y') (hy : y.Sound refs) (hy' : y'.Sound refs')
    (label start length : Nat) :
    y'.index.elements y'.store label start length =
      y.index.elements y.store label start length := by
  rw [Index.elements, Index.elements, h.unpack_eq hy hy']

theorem listContents_eq (h : y.Alike y') (hy : y.Sound refs) (hy' : y'.Sound refs') :
    listContents y'.index y'.store = listContents y.index y.store := by
  unfold listContents
  rw [h.lists_eq]
  congr 1
  funext label
  refine h.onSlot_eq hy hy' label (f := fun l => do return (l.capacity, ← l.view.contents)) ?_
  intro l l' halike hview
  rw [halike.capacity_eq, hview.contents_eq]

theorem describe_eq (h : y.Alike y') (hy : y.Sound refs) (hy' : y'.Sound refs') :
    y'.index.describe y'.store = y.index.describe y.store := by
  have hveclen : y'.index.veclen = y.index.veclen := congrArg ListSpec.veclen h.spec_eq
  have hsize : y'.index.size y'.store = y.index.size y.store := by
    rw [Index.size, Index.size, h.sizes_eq hy hy']
  unfold describe
  rw [h.params_eq, h.dim_eq, hveclen, hsize]

theorem indexInfo_eq {w w' : Workspace t i} {x x' : Index}
    (h : Alike { index := x, store := w.store } { index := x', store := w'.store })
    (hy : Sound { index := x, store := w.store } refs)
    (hy' : Sound { index := x', store := w'.store } refs') :
    w'.indexInfo x' = w.indexInfo x := by
  rw [indexInfo, indexInfo, h.params_eq, h.spec_eq, h.sizes_eq hy hy']

/-- Indexes that look alike answer a question in the same way. -/
theorem answer_eq {w w' : Workspace t i} {x x' : Index}
    (h : Alike { index := x, store := w.store } { index := x', store := w'.store })
    (hy : Sound { index := x, store := w.store } refs)
    (hy' : Sound { index := x', store := w'.store } refs') (q : IndexQuery) :
    answerIndexQuery w' x' q = answerIndexQuery w x q := by
  cases q with
  | info => rw [answerIndexQuery, answerIndexQuery, h.indexInfo_eq hy hy']
  | describe => rw [answerIndexQuery, answerIndexQuery, h.describe_eq hy hy']
  | elements label start length =>
      rw [answerIndexQuery, answerIndexQuery, h.elements_eq hy hy']
  | contents => rw [answerIndexQuery, answerIndexQuery, h.listContents_eq hy hy']

end OpenIndex.Alike

end InvertedFile
