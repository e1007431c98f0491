import InvertedFile.Interleave
import InvertedFile.InvertedList.Basic

/-!
# What a list holds

The columns of a record lie apart from each other in the buffer of a list.
`recordOf` gathers the columns of one record, and `published` the published
records of a list together with their ids, in order. What a list is worth to
its readers is `published`; layout, capacity and all that stands behind the
published size are how it is kept.

A list is **well formed** when its buffers are as long as its capacity asks
for, the capacity is one that lists of its growth have, no more records are
published than there are slots, and what the budget was charged is what the
buffers take.

## Main results

* `wellFormed_empty`, `published_empty` — a list without slots is well formed
  and has no records.
-/

namespace InvertedFile

/-- The columns of record `p` of a buffer. -/
def Extents.recordOf {α : Type} (e : Extents) (data : Array α) (p : Nat) : List α :=
  (List.range e.dim).filterMap fun d => data[Interleave.position e.dim e.veclen p d]?

namespace InvertedList

variable {t : ElementType} {i : IdType}

/-- The published records and their ids. -/
def published (l : InvertedList t i) : List (Id i × List (Word t)) :=
  (List.range l.size).filterMap fun p => l.ids[p]?.map fun id => (id, l.extents.recordOf l.data p)

/-- The buffers of a list are what its capacity asks for, and its size is within it. -/
structure WellFormed (l : InvertedList t i) : Prop where
  capacity_eq : l.capacity = 0 ∨ ∃ records, l.spec.growth.capacity? records = some l.capacity
  size_data : l.data.size = l.extents.length
  size_ids : l.ids.size = l.capacity
  size_le : l.size ≤ l.capacity
  reserved_eq : l.reserved = l.memoryBytes

theorem published_of_size_eq_zero {l : InvertedList t i} (h : l.size = 0) : l.published = [] := by
  simp [published, h]

theorem wellFormed_empty (spec : ListSpec) : (empty t i spec).WellFormed where
  capacity_eq := Or.inl rfl
  size_data := by simp [empty, extents, Layout.extents, Extents.length, groupSize]
  size_ids := rfl
  size_le := Nat.le_refl 0
  reserved_eq := by rw [reserved_empty, memoryBytes_empty]

theorem published_empty (spec : ListSpec) : (empty t i spec).published = [] :=
  published_of_size_eq_zero rfl

end InvertedList

end InvertedFile
