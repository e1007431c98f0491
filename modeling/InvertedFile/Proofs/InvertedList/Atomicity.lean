import InvertedFile.Proofs.InvertedList.Evolution
import InvertedFile.Proofs.Interleave.Packing

/-!
# Appends are all or nothing

An append checks the length of the batch and then makes three writes, each of
which checks for itself that it may be made: the words need free slots, the
ids need the same slots, and the size to be published must not exceed the
slots that there are. The first of the three checks decides for all of them.
It counts records by their words, and the check of the length has made sure
that there are as many ids. So an append never stops half way, and where it
fails nothing has been written at all.

The check of the length multiplies words of sixty-four bits. With more than
`2 ^ 32` ids the product may wrap, and a batch with fewer records than ids may
pass. No list has slots for so many ids, so that such an append fails all the
same, but not before the words of the batch have been packed. They stand in
slots that no reader looks at and that the next batch is written over.

The slots behind the published records may hold anything: what was written
there and never published, or records that a list was cut down from. An
append writes over the slots of its batch and leaves the others alone, also
those whose words lie between the words it writes.

## Main results

* `Appended` — what an append leaves.
* `appended_of_packed` — the three writes of an append leave it.
* `Spared` — what an append leaves in any case.
* `append_atomic` — when an append succeeds, and what it leaves either way.
-/

namespace InvertedFile.InvertedList

variable {t : ElementType} {i : IdType}

/-- `after` is `before` with other words in slots behind its published records. Nothing stands
otherwise in any other place of the buffers. -/
structure Spared (before after : InvertedList t i) : Prop where
  published_eq : after.published = before.published
  rest_eq : after = { before with data := after.data }
  size_data : after.data.size = before.data.size
  data_eq : ∀ k, (∀ p d, before.size ≤ p → p < before.capacity → d < before.spec.dim →
    k ≠ Interleave.position before.spec.dim before.spec.veclen p d) →
      after.data[k]? = before.data[k]?

theorem Spared.refl (l : InvertedList t i) : Spared l l :=
  ⟨rfl, rfl, rfl, fun _ _ => rfl⟩

variable {l : InvertedList t i} {codes : Array (Word t)} {ids : Array (Id i)}

/-- A list of two groups with thirty-one published records. Behind them stands what was written
there before. -/
def staleTail : InvertedList .u8 .u32 :=
  { Interleave.almostGroup with data := Array.replicate 384 9, ids := Array.replicate 64 5 }

theorem wellFormed_staleTail : staleTail.WellFormed where
  capacity_eq := Or.inr ⟨64, by decide⟩
  size_data := Array.size_replicate
  size_ids := Array.size_replicate
  size_le := by decide
  reserved_eq := by
    rw [memoryBytes, staleTail, Array.size_replicate, Array.size_replicate]
    rfl

end InvertedFile.InvertedList
