import InvertedFile.Interleave
import InvertedFile.InvertedList.Basic

/-!
# Writing to a list

What a writer may do to a list that others read: fill slots behind the
published records and then publish them. No write reaches a published slot
and the published size never falls, so what a view shows stays as it is.

How many elements a batch should have is a product of two words of sixty-four
bits, which wraps. No list has slots for a batch for which it does.

## Main results

* `checkTail_eq_ok_iff` — the slots a writer may fill.
* `elementCount_of_lt` — a product that is a word does not wrap.
-/

namespace InvertedFile.InvertedList

variable {t : ElementType} {i : IdType}

/-- The `n` slots from `start` on exist and lie behind the published records. -/
def checkTail (l : InvertedList t i) (start n : Nat) : Except Error Unit :=
  if l.capacity < start + n then .error (.outOfBounds .listCapacity (start + n) l.capacity)
  else if 0 < n ∧ start < l.size then .error (.invalid (.overlap start l.size))
  else .ok ()

theorem checkTail_eq_ok_iff (l : InvertedList t i) (start n : Nat) :
    l.checkTail start n = .ok () ↔ start + n ≤ l.capacity ∧ (n = 0 ∨ l.size ≤ start) := by
  unfold checkTail
  split
  · simp only [reduceCtorEq, false_iff]
    omega
  · split
    · simp only [reduceCtorEq, false_iff]
      omega
    · simp only [true_iff]
      omega

/-- Fills the words of one slot with record `k` of a batch for the slots from `start` on. -/
def packSlot (dim veclen start : Nat) (codes : Array (Word t)) (k : Nat) :
    Action (Array (Word t)) Unit := do
  let flat ← Action.ofExcept (Buffer.slice codes (k * dim) dim)
  Interleave.packRecord dim veclen (start + k) flat

/-- Fills the words of the slots from `start` on with a batch of flat records. -/
def pack (codes : Array (Word t)) (start : Nat) : Action (InvertedList t i) Unit := do
  let l ← get
  let dim := l.spec.dim
  let veclen := l.spec.veclen
  ensure (codes.size % dim = 0) (.invalid (.partialRecords codes.size dim))
  let n := codes.size / dim
  Action.ofExcept (l.checkTail start n)
  onData ((List.range n).forM (packSlot dim veclen start codes))

/-- Fills the ids of the slots from `start` on. -/
def writeIds (ids : Array (Id i)) (start : Nat) : Action (InvertedList t i) Unit := do
  let l ← get
  Action.ofExcept (l.checkTail start ids.size)
  onIds (Buffer.store start ids)

/-- Publishes the first `size` records. -/
def publish (size : Nat) : Action (InvertedList t i) Unit := do
  let l ← get
  ensure (size ≤ l.capacity) (.outOfBounds .listSize size l.capacity)
  ensure (l.size ≤ size) (.invalid (.shrinkingPublish size l.size))
  set { l with size }

/-- The elements of `n` records of `dim` columns, as a word. -/
def elementCount (dim n : Nat) : Nat :=
  (UInt64.ofNat n * UInt64.ofNat dim).toNat

theorem elementCount_of_lt {dim n : Nat} (h : n * dim < UInt64.size) :
    elementCount dim n = n * dim := by
  rw [elementCount, ← UInt64.ofNat_mul, UInt64.toNat_ofNat_of_lt' h]

/-- Fills the slots behind the published records, publishes them and tells the new size. -/
def append (codes : Array (Word t)) (ids : Array (Id i)) : Action (InvertedList t i) Nat := do
  let l ← get
  ensure (codes.size = elementCount l.spec.dim ids.size)
    (.invalid (.idsForElements ids.size codes.size l.spec.dim))
  let start := l.size
  pack codes start
  writeIds ids start
  publish (start + ids.size)
  return start + ids.size

end InvertedFile.InvertedList
