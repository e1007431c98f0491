import InvertedFile.Interleave
import InvertedFile.InvertedList.Basic

/-!
# Views of a list

A view is a list together with the published size at the time the view was
taken. Everything read through it is bounded by that size, so that records
published later do not show and slots that were never published cannot.

## Main results

* `View.checkPublished_eq_ok_iff` — the ranges of records a view shows.
-/

namespace InvertedFile

/-- A list, read up to a size. -/
structure View (t : ElementType) (i : IdType) where
  list : InvertedList t i
  size : Nat

/-- All published records of a list. -/
def InvertedList.view {t : ElementType} {i : IdType} (l : InvertedList t i) : View t i where
  list := l
  size := l.size

/-- Everything a view shows: its ids, the words of the groups it covers whole and its records. -/
structure Contents (t : ElementType) (i : IdType) where
  size : Nat
  ids : Array (Id i)
  groups : Array (Word t)
  records : Array (Word t)
  deriving DecidableEq

namespace View

variable {t : ElementType} {i : IdType}

/-- Columns of a record. -/
def dim (v : View t i) : Nat :=
  v.list.spec.dim

/-- Columns of a chunk. -/
def veclen (v : View t i) : Nat :=
  v.list.spec.veclen

/-- The ids of the published records. -/
def ids (v : View t i) : Except Error (Array (Id i)) :=
  Buffer.slice v.list.ids 0 v.size

/-- The words of the groups that are published to their last record. -/
def completeGroups (v : View t i) : Except Error (Array (Word t)) :=
  let e := v.list.spec.layout.extents v.size
  Buffer.slice v.list.data 0 (e.groupLength * (v.size / groupSize))

/-- The `n` records from `start` on are published. -/
def checkPublished (v : View t i) (start n : Nat) : Except Error Unit :=
  Interleave.checkRange .publishedRecords start n v.size

theorem checkPublished_eq_ok_iff (v : View t i) (start n : Nat) :
    v.checkPublished start n = .ok () ↔ start + n ≤ v.size := by
  unfold checkPublished Interleave.checkRange
  split <;> simp_all

/-- The columns of chunk `c` of record `p`. -/
def chunk (v : View t i) (p c : Nat) : Except Error (Array (Word t)) := do
  v.checkPublished p 1
  let chunks := v.dim / v.veclen
  ensure (c < chunks) (.outOfBounds .chunks (c + 1) chunks)
  Buffer.slice v.list.data (Interleave.position v.dim v.veclen p (c * v.veclen)) v.veclen

/-- Copies the records from `start` on over a batch of flat records, as many as it holds. -/
def unpack (v : View t i) (start : Nat) : Action (Array (Word t)) Unit := do
  let elements := (← get).size
  ensure (elements % v.dim = 0) (.invalid (.partialOutput elements v.dim))
  let n := elements / v.dim
  Action.ofExcept (v.checkPublished start n)
  (List.range n).forM (Interleave.unpackSlot v.dim v.veclen start v.list.data)

/-- As many elements as asked for, from record `start` on. -/
def elements (v : View t i) (start length : Nat) : Except Error (Array (Word t)) :=
  match v.unpack start (Array.replicate length 0) with
  | .ok _ out => .ok out
  | .error e _ => .error e

/-- Record `p`. -/
def record (v : View t i) (p : Nat) : Except Error (Array (Word t)) := do
  v.checkPublished p 1
  match Interleave.unpackRecord v.dim v.veclen p v.list.data (Array.replicate v.dim 0) with
  | .ok _ flat => return flat
  | .error e _ => throw e

/-- All that the view shows. -/
def contents (v : View t i) : Except Error (Contents t i) := do
  let ids ← v.ids
  let groups ← v.completeGroups
  let records ← v.elements 0 (v.size * v.dim)
  return { size := v.size, ids, groups, records }

end View

end InvertedFile
