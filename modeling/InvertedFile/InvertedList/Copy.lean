import InvertedFile.Interleave
import InvertedFile.InvertedList.Basic

/-!
# Copying the records of a list

The first records of one list into a fresh list: group by group where both
have the same layout, and otherwise through a flat copy of the records, which
is charged to the budget while it is there.
-/

namespace InvertedFile.InvertedList

variable {t : ElementType} {i : IdType}

/-- The first `n` records of a buffer in the flat order. -/
def flatRecords (data : Array (Word t)) (e : Extents) (n : Nat) :
    Except Error (Array (Word t)) :=
  match Interleave.unpack e 0 data (Array.replicate (n * e.dim) 0) with
  | .ok _ flat => .ok flat
  | .error cause _ => .error cause

/-- Puts records of one layout into a list of another, by way of the flat order. -/
def repack (data : Array (Word t)) (e : Extents) (n : Nat) (dest : InvertedList t i) :
    Action Budget (InvertedList t i) :=
  Budget.reserving id (fun _ b => b) (n * e.dim) t.size fun _ => do
    let flat ← Action.ofExcept (flatRecords data e n)
    match Interleave.pack dest.extents 0 flat dest.data with
    | .ok _ data => return { dest with data }
    | .error cause _ => throw cause

/-- A list with its first words replaced. -/
def withWords (dest : InvertedList t i) (words : Array (Word t)) :
    Except Error (InvertedList t i) :=
  match Buffer.store 0 words dest.data with
  | .ok _ data => .ok { dest with data }
  | .error cause _ => .error cause

/-- A list with its first ids replaced. -/
def withIds (dest : InvertedList t i) (ids : Array (Id i)) : Except Error (InvertedList t i) :=
  match Buffer.store 0 ids dest.ids with
  | .ok _ ids => .ok { dest with ids }
  | .error cause _ => .error cause

/-- A list with another published size. -/
def withSize (dest : InvertedList t i) (size : Nat) : Except Error (InvertedList t i) :=
  match setSize size dest with
  | .ok _ l => .ok l
  | .error cause _ => .error cause

/-- `dest` with the words and the ids of the first `n` records of `source` in its first slots. Whole
groups are copied where the layouts agree. -/
def copySlots (source dest : InvertedList t i) (n : Nat) : Action Budget (InvertedList t i) := do
  let dest ←
    if source.spec.layout = dest.spec.layout then
      let groups := (n + (groupSize - 1)) / groupSize
      Action.ofExcept do
        let words ← Buffer.slice source.data 0 (source.extents.groupLength * groups)
        dest.withWords words
    else repack source.data source.extents n dest
  Action.ofExcept do
    let ids ← Buffer.slice source.ids 0 n
    dest.withIds ids

/-- `dest` with the first `n` records of `source`, which are then its published records. -/
def copyRecords (source dest : InvertedList t i) (n : Nat) :
    Action Budget (InvertedList t i) := do
  ensure (n ≤ dest.capacity) (.outOfBounds .copying n dest.capacity)
  let dest ← if n = 0 then pure dest else copySlots source dest n
  Action.ofExcept (dest.withSize n)

end InvertedFile.InvertedList
