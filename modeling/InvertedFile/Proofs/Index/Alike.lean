import InvertedFile.Proofs.Index.Extend
import InvertedFile.Proofs.Index.Loading
import InvertedFile.Proofs.Index.Saving
import InvertedFile.Proofs.InvertedList.Alike

/-!
# Indexes that look alike

Two indexes, each in a store of its own or both in one, look alike when they
have the same parameters and the same spec and when for every label their
lists look alike. The names of the lists differ, and so does all that the
stores hold besides.

They are stored alike, and an extension that both of them take leaves them
alike, and so does a reset.

## Main results

* `Vacant.alike` — indexes of empty lists look alike.
* `Alike.write_eq` — indexes that look alike are stored alike.
* `Alike.extended`, `Alike.reset` — what keeps them alike.
-/

namespace InvertedFile.OpenIndex

open Index

variable {t : ElementType} {i : IdType}

/-- An open index is in order, and so are the accounts of its store, in which others hold what they
hold. -/
structure Sound (y : OpenIndex t i) (refs : List ListId) : Prop where
  index : y.index.Sound y.store
  accounts : y.store.Accounts (y.index.slots.toList ++ refs) 0

/-- The two indexes have the same parameters, the same spec and, for each label, lists that look
alike. -/
structure Alike (y y' : OpenIndex t i) : Prop where
  params_eq : y'.index.params = y.index.params
  spec_eq : y'.index.spec = y.index.spec
  list : ∀ label < y.index.lists, ∃ id l id' l',
    y.index.slots[label]? = some id ∧ y.store.list? id = some l ∧
    y'.index.slots[label]? = some id' ∧ y'.store.list? id' = some l' ∧ l.Alike l'

/-- The lists of an index are empty and have no slots. -/
def Vacant (y : OpenIndex t i) : Prop :=
  ∀ label < y.index.lists,
    y.index.slots[label]?.bind y.store.list? = some (.empty t i y.index.spec)

/-- The lists of a store whose accounts are in order are well formed. -/
theorem Sound.wellFormed {y : OpenIndex t i} {refs : List ListId} (h : y.Sound refs)
    {id : ListId} {l : InvertedList t i} (hl : y.store.list? id = some l) : l.WellFormed :=
  h.accounts.wellFormed_list hl

/-- A store that is the same to everybody keeps an index in order. -/
theorem Sound.same {x : Index} {s s' : Store t i} {refs : List ListId}
    (h : Sound { index := x, store := s } refs) (hsame : Store.Same s s') :
    Sound { index := x, store := s' } refs where
  index := h.index.keeps h.accounts (hsame.leaves _).keeps
  accounts := h.accounts.same hsame

/-- An index looks like itself. -/
theorem Sound.alike_self {y : OpenIndex t i} {refs : List ListId} (h : y.Sound refs) :
    y.Alike y where
  params_eq := rfl
  spec_eq := rfl
  list := by
    intro label hlt
    obtain ⟨id, l, hid, hl, -⟩ := h.index.listed hlt
    exact ⟨id, l, id, l, hid, hl, hid, hl, rfl, rfl, rfl, rfl, rfl⟩

/-- After a reset the lists of an index are empty. -/
theorem vacant_of_reset {x : Index} {s : Store t i} {refs : List ListId} {z : OpenIndex t i}
    (hx : x.Sound s) (hreset : ResetTo x s refs x.slots.size z) : z.Vacant := by
  intro label hlt
  rw [Index.lists, hreset.params_eq, ← Index.lists, ← hx.lt_size] at hlt
  rw [hreset.list label hlt, hreset.spec_eq]

/-- Empty lists look alike where their specs do. -/
theorem Vacant.alike {y y' : OpenIndex t i} (h : y.Vacant) (h' : y'.Vacant)
    (hparams : y'.index.params = y.index.params) (hspec : y'.index.spec = y.index.spec) :
    y.Alike y' where
  params_eq := hparams
  spec_eq := hspec
  list := by
    intro label hlt
    obtain ⟨id, hid, hl⟩ := Option.bind_eq_some_iff.mp (h label hlt)
    rw [Index.lists, ← hparams] at hlt
    obtain ⟨id', hid', hl'⟩ := Option.bind_eq_some_iff.mp (h' label hlt)
    rw [hspec] at hl'
    exact ⟨id, _, id', _, hid, hl, hid', hl', rfl, rfl, rfl, rfl, rfl⟩

namespace Alike

variable {y y' : OpenIndex t i} {refs refs' : List ListId}

theorem lists_eq (h : y.Alike y') : y'.index.lists = y.index.lists := by
  rw [Index.lists, Index.lists, h.params_eq]

theorem dim_eq (h : y.Alike y') : y'.index.dim = y.index.dim := by
  rw [Index.dim, Index.dim, h.spec_eq]

theorem size_slots (h : y.Alike y') (hy : y.Sound refs) (hy' : y'.Sound refs') :
    y'.index.slots.size = y.index.slots.size := by
  rw [hy'.index.size_slots, hy.index.size_slots, h.lists_eq]

theorem sizes_eq (h : y.Alike y') (hy : y.Sound refs) (hy' : y'.Sound refs') :
    y'.index.sizes y'.store = y.index.sizes y.store := by
  apply List.ext_getElem?
  intro label
  by_cases hlt : label < y.index.lists
  · obtain ⟨id, l, id', l', hid, hl, hid', hl', halike⟩ := h.list label hlt
    rw [getElem?_sizes hid hl, getElem?_sizes hid' hl', halike.size_eq]
  · rw [List.getElem?_eq_none, List.getElem?_eq_none]
    · rw [length_sizes, hy.index.size_slots]
      omega
    · rw [length_sizes, hy'.index.size_slots, h.lists_eq]
      omega

/-- What is written of the one index is written of the other. -/
theorem write_eq (h : y.Alike y') (hy : y.Sound refs) (hy' : y'.Sound refs') :
    y'.index.write y'.store = y.index.write y.store := by
  have hheader : headerFields t i y'.index = headerFields t i y.index := by
    rw [headerFields, headerFields, Index.dim, Index.dim, Index.veclen, Index.veclen, h.lists_eq,
      h.params_eq, h.spec_eq]
  have hslot : ∀ label ∈ List.range y.index.lists,
      writeSlot y'.index y'.store label = writeSlot y.index y.store label := by
    intro label hlabel
    obtain ⟨id, l, id', l', hid, hl, hid', hl', halike⟩ := h.list label (List.mem_range.mp hlabel)
    funext tr
    rw [writeSlot_eq hid hl, writeSlot_eq hid' hl', h.spec_eq,
      halike.writeRecord_eq (hy.wellFormed hl) (hy'.wellFormed hl')]
  rw [Index.write, Index.write, hheader, h.lists_eq, Action.forM_congr hslot]

/-- Lists that look alike and receive the same records look alike. -/
theorem receives {s s' : Store t i} {id id' new new' : ListId} {l l' m m' : InvertedList t i}
    {records : List (Id i × List (Word t))} (h : l.Alike l') (hm : Receives s id l records new m)
    (hm' : Receives s' id' l' records new' m') (hwell : m.WellFormed) (hwell' : m'.WellFormed) :
    m.Alike m' := by
  have hspec : m'.spec = m.spec := by rw [hm'.spec_eq, hm.spec_eq, h.spec_eq]
  have hcapacity : m'.capacity = m.capacity := by
    by_cases hroom : l.size + records.length ≤ l.capacity
    · have hroom' : l'.size + records.length ≤ l'.capacity := by
        rwa [h.size_eq, h.capacity_eq]
      rw [(hm.in_place hroom).2, (hm'.in_place hroom').2, h.capacity_eq]
    · have hgrow : l.capacity < l.size + records.length := Nat.not_le.mp hroom
      have hgrow' : l'.capacity < l'.size + records.length := by
        rwa [h.size_eq, h.capacity_eq]
      have hnew := (hm.grown hgrow).2
      have hnew' := (hm'.grown hgrow').2
      rw [h.spec_eq, h.size_eq, hnew, Option.some.injEq] at hnew'
      exact hnew'.symm
  refine ⟨hspec, ?_, hcapacity, ?_, InvertedList.memoryBytes_congr hwell hwell' hspec hcapacity⟩
  · rw [hm'.size_eq, hm.size_eq, h.size_eq]
  · rw [hm'.published_eq, hm.published_eq, h.published_eq]

/-- An extension that both indexes take leaves them alike. -/
theorem extended {z z' : OpenIndex t i} (h : y.Alike y') (hz : z.Sound refs)
    (hz' : z'.Sound refs') {vectors : Array (Word t)} {ids : Array (Id i)} {labels : Array Nat}
    (hextended : Extended y.index y.store vectors ids labels z.index z.store)
    (hextended' : Extended y'.index y'.store vectors ids labels z'.index z'.store) :
    z.Alike z' where
  params_eq := by rw [hextended'.params_eq, hextended.params_eq, h.params_eq]
  spec_eq := by rw [hextended'.spec_eq, hextended.spec_eq, h.spec_eq]
  list := by
    intro label hlt
    rw [Index.lists, hextended.params_eq] at hlt
    obtain ⟨id, l, id', l', hid, hl, hid', hl', halike⟩ := h.list label hlt
    obtain ⟨new, m, hnew, hm, hreceives⟩ := hextended.list label id l hid hl
    obtain ⟨new', m', hnew', hm', hreceives'⟩ := hextended'.list label id' l' hid' hl'
    rw [h.dim_eq] at hreceives'
    exact ⟨new, m, new', m', hnew, hm, hnew', hm',
      receives halike hreceives hreceives' (hz.wellFormed hm) (hz'.wellFormed hm')⟩

/-- The lists of indexes that look alike are empty and alike after a reset. -/
theorem reset {z z' : OpenIndex t i} (h : y.Alike y') (hy : y.Sound refs) (hy' : y'.Sound refs')
    (hreset : ResetTo y.index y.store refs y.index.slots.size z)
    (hreset' : ResetTo y'.index y'.store refs' y'.index.slots.size z') : z.Alike z' :=
  (vacant_of_reset hy.index hreset).alike (vacant_of_reset hy'.index hreset')
    (by rw [hreset'.params_eq, hreset.params_eq, h.params_eq])
    (by rw [hreset'.spec_eq, hreset.spec_eq, h.spec_eq])

/-- Indexes whose lists are left as they are look as they did. -/
theorem leaves {x x' : Index} {s s₁ s' s₁' : Store t i}
    (h : Alike { index := x, store := s } { index := x', store := s' })
    (hleaves : Store.Leaves x.slots.toList s s₁)
    (hleaves' : Store.Leaves x'.slots.toList s' s₁') :
    Alike { index := x, store := s₁ } { index := x', store := s₁' } where
  params_eq := h.params_eq
  spec_eq := h.spec_eq
  list := by
    intro label hlt
    obtain ⟨id, l, id', l', hid, hl, hid', hl', halike⟩ := h.list label hlt
    exact ⟨id, l, id', l', hid, (hleaves id (mem_of_slot hid)).trans hl, hid',
      (hleaves' id' (mem_of_slot hid')).trans hl', halike⟩

end Alike

end InvertedFile.OpenIndex
