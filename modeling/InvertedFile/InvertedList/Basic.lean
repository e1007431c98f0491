import InvertedFile.Buffer
import InvertedFile.Budget.Basic
import InvertedFile.Layout.Growth

/-!
# Inverted lists

The records of one cluster: a buffer of words in the interleaved order, a
buffer of ids beside it, and the number of records that are **published**.
Slots from the published size on hold whatever was last written there; no
reader looks at them.

Both buffers are fixed when the list is made. Their bytes are charged to the
budget, the words before the ids, and `reserved` remembers the sum, which is
what goes back when the list goes. A list that never held a record has no
buffers and costs nothing.

## Main results

* `memoryBytes_empty`, `reserved_empty` — an empty list costs nothing.
-/

namespace InvertedFile

/-- A list of records of type `t` under ids of type `i`. -/
structure InvertedList (t : ElementType) (i : IdType) where
  spec : ListSpec
  /-- Record slots. -/
  capacity : Nat
  /-- The words of all slots, in the interleaved order. -/
  data : Array (Word t)
  /-- The ids of all slots. -/
  ids : Array (Id i)
  /-- Published records. -/
  size : Nat
  /-- Bytes charged to the budget for the two buffers. -/
  reserved : Nat
  deriving DecidableEq

namespace InvertedList

variable {t : ElementType} {i : IdType}

/-- A list without slots. -/
def empty (t : ElementType) (i : IdType) (spec : ListSpec) : InvertedList t i where
  spec := spec
  capacity := 0
  data := #[]
  ids := #[]
  size := 0
  reserved := 0

/-- The extents of the buffer of words. -/
def extents (l : InvertedList t i) : Extents :=
  l.spec.layout.extents l.capacity

/-- Bytes of the two buffers. -/
def memoryBytes (l : InvertedList t i) : Nat :=
  l.data.size * t.size + l.ids.size * i.size

/-- No record is published. -/
def isEmpty (l : InvertedList t i) : Bool :=
  l.size == 0

theorem memoryBytes_empty (spec : ListSpec) : (empty t i spec).memoryBytes = 0 := by
  simp [empty, memoryBytes]

theorem reserved_empty (spec : ListSpec) : (empty t i spec).reserved = 0 := rfl

/-- A list with room for a number of records. Its words are zero, its ids are those of unused slots
and no record is published. -/
def create (t : ElementType) (i : IdType) (spec : ListSpec) (records : Nat) :
    Action Budget (InvertedList t i) := do
  match spec.growth.capacity? records with
  | none => throw (.allocation (byteLimit - 1) (.noCapacity records))
  | some capacity =>
      let length := (spec.layout.extents capacity).length
      let dataBytes ← Budget.allocate length t.size
      let idBytes ← Action.undoing (Budget.release dataBytes) (Budget.allocate capacity i.size)
      return {
        spec, capacity
        data := Array.replicate length 0
        ids := Array.replicate capacity (Id.invalid i)
        size := 0
        reserved := dataBytes + idBytes }

/-- Sets the published size, in either direction. Only the one holder of a list may do this. -/
def setSize (size : Nat) : Action (InvertedList t i) Unit := do
  let capacity := (← get).capacity
  ensure (size ≤ capacity) (.outOfBounds .listSize size capacity)
  modify fun l => { l with size }

/-- An action on the words of a list. -/
def onData {α : Type} (act : Action (Array (Word t)) α) : Action (InvertedList t i) α :=
  Action.focus InvertedList.data (fun l data => { l with data }) act

/-- An action on the ids of a list. -/
def onIds {α : Type} (act : Action (Array (Id i)) α) : Action (InvertedList t i) α :=
  Action.focus InvertedList.ids (fun l ids => { l with ids }) act

/-- Writes words and ids over any slots, published or not. Only the one holder of a list may do
this. -/
def poke (start : Nat) (data : Array (Word t)) (ids : Array (Id i)) :
    Action (InvertedList t i) Unit := do
  onData (Buffer.store start data)
  onIds (Buffer.store start ids)

end InvertedList

end InvertedFile
