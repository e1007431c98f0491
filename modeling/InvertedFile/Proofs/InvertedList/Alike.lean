import InvertedFile.Proofs.InvertedList.Canonical

/-!
# Lists that look alike

Two lists look alike when they have the same spec, the same room and the same
published records. What stands in their unused slots may differ, and nobody
can tell: such lists take the same bytes, and whatever is written of the one,
into whatever sink and out of whatever budget, is written of the other.

## Main results

* `alike_of_tight` — the records of a list tell everything of it, if it has the
  room they ask for.
* `ReadsBack.alike` — a list that was stored and read looks like the original.
* `Alike.writeRecord_eq` — lists that look alike are stored alike.
-/

namespace InvertedFile.InvertedList

variable {t : ElementType} {i : IdType}

/-- Two lists differ in nothing but the contents of their unused slots. -/
structure Alike (l l' : InvertedList t i) : Prop where
  spec_eq : l'.spec = l.spec
  size_eq : l'.size = l.size
  capacity_eq : l'.capacity = l.capacity
  published_eq : l'.published = l.published
  memoryBytes_eq : l'.memoryBytes = l.memoryBytes

/-- Lists with one spec and the same room take the same bytes. -/
theorem memoryBytes_congr {l l' : InvertedList t i} (hl : l.WellFormed) (hl' : l'.WellFormed)
    (hspec : l'.spec = l.spec) (hcapacity : l'.capacity = l.capacity) :
    l'.memoryBytes = l.memoryBytes := by
  rw [memoryBytes, memoryBytes, hl'.size_data, hl'.size_ids, hl.size_data, hl.size_ids, extents,
    extents, hspec, hcapacity]

/-- Lists that have the room their sizes ask for look alike when they have the same records,
however they came to them. -/
theorem alike_of_tight {l l' : InvertedList t i} (hl : l.WellFormed) (hl' : l'.WellFormed)
    (htight : l.Tight) (htight' : l'.Tight) (hspec : l'.spec = l.spec)
    (hpublished : l'.published = l.published) : l.Alike l' := by
  have hsize : l'.size = l.size := size_congr hl hl' hpublished
  have hcapacity : l'.capacity = l.capacity := by
    rw [Tight, hspec, hsize, htight, Option.some.injEq] at htight'
    exact htight'.symm
  exact ⟨hspec, hsize, hcapacity, hpublished, memoryBytes_congr hl hl' hspec hcapacity⟩

/-- A list that was stored as it is looks the same when it has been read. -/
theorem ReadsBack.alike {l after : InvertedList t i} (hl : l.WellFormed) (htight : l.Tight)
    (h : l.ReadsBack l.spec l.size after) : l.Alike after := by
  apply alike_of_tight hl h.wellFormed htight h.tight h.spec_eq
  rw [h.published_eq, padded_size hl]

/-- What is written of the one list is written of the other. -/
theorem Alike.writeRecord_eq {l l' : InvertedList t i} (h : l.Alike l') (hl : l.WellFormed)
    (hl' : l'.WellFormed) (store : ListSpec) (length : Option UInt32) :
    l'.writeRecord store length = l.writeRecord store length :=
  writeRecord_congr hl hl' (congrArg ListSpec.dim h.spec_eq) h.published_eq store length

end InvertedFile.InvertedList
