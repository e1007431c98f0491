import InvertedFile.Layout.Basic

/-!
# Growth of lists

How much room a list is given for the records it must hold. A short list gets
a power of two of slots, at least one group; from a threshold on, the number
of slots is a multiple of the threshold. Steady growth puts the threshold at
one group, so that lists grow one group at a time.

A record count is stored in thirty-two bits, and a capacity that needs more
does not exist.

## Main results

* `Growth.capacity?_lt` — a capacity is a record count.
-/

namespace InvertedFile

/-- One more than the greatest record count. -/
def countLimit : Nat :=
  UInt32.size

/-- The two ways in which lists grow. -/
inductive Growth where
  /-- By powers of two up to 1024 slots, then by 1024 slots. -/
  | doubling
  /-- By one group. -/
  | steady
  deriving DecidableEq, Repr

namespace Growth

/-- The least number of slots a list is given. -/
def leastSlots : Nat :=
  groupSize

/-- The number of slots from which on a list grows by multiples of it. -/
def threshold : Growth → Nat
  | doubling => 1024
  | steady => groupSize

/-- The least power of two that is not below a number. -/
def nextPower (n : Nat) : Nat :=
  if n ≤ 1 then 1 else 1 <<< ((n - 1).log2 + 1)

/-- The capacity of a list that must hold a number of records. -/
def capacity? (g : Growth) (records : Nat) : Option Nat :=
  if records < g.threshold then
    some (min (nextPower (max records leastSlots)) g.threshold)
  else
    let slots := (records + (g.threshold - 1)) / g.threshold * g.threshold
    if slots < countLimit then some slots else none

theorem capacity?_lt {g : Growth} {records slots : Nat} (h : g.capacity? records = some slots) :
    slots < countLimit := by
  unfold capacity? at h
  split at h
  · simp only [Option.some.injEq] at h
    have hle : slots ≤ g.threshold := by omega
    cases g <;> simp only [threshold, groupSize, countLimit, UInt32.size] at hle ⊢ <;> omega
  · simp only at h
    split at h
    · simp only [Option.some.injEq] at h
      omega
    · simp at h

end Growth

/-- What fixes the buffers of a list: the layout of its records and the way it grows. -/
structure ListSpec where
  layout : Layout
  growth : Growth
  deriving DecidableEq

namespace ListSpec

/-- Columns of a record. -/
def dim (spec : ListSpec) : Nat :=
  spec.layout.dim

/-- Columns of a chunk. -/
def veclen (spec : ListSpec) : Nat :=
  spec.layout.veclen

/-- The spec of a pair of widths and a way to grow, if the widths lay out a list. -/
def ofWidths (dim veclen : UInt32) (growth : Growth) : Except LayoutFault ListSpec := do
  let layout ← Layout.ofWidths dim veclen
  return { layout, growth }

/-- The same spec with another chunk width. -/
def withVeclen (spec : ListSpec) (veclen : UInt32) : Except LayoutFault ListSpec :=
  ofWidths (UInt32.ofNat spec.dim) veclen spec.growth

end ListSpec

end InvertedFile
