import InvertedFile.InvertedList.Basic

/-!
# Lists in words

What a list is, without its records: as numbers for whoever asks, and as a
line of text.
-/

namespace InvertedFile

/-- A list without its records. -/
structure ListInfo where
  spec : ListSpec
  capacity : Nat
  size : Nat
  /-- Bytes of the buffers. -/
  bytes : Nat
  deriving DecidableEq

/-- The extents of a list's buffer of words. -/
def ListInfo.extents (l : ListInfo) : Extents :=
  l.spec.layout.extents l.capacity

namespace InvertedList

variable {t : ElementType} {i : IdType}

/-- A list without its records. -/
def info (l : InvertedList t i) : ListInfo where
  spec := l.spec
  capacity := l.capacity
  size := l.size
  bytes := l.memoryBytes

/-- A list in words. -/
def describe (l : InvertedList t i) : String :=
  "List \x7b spec: FlatListSpec \x7b " ++
    s!"dim: {l.spec.dim}, veclen: {l.spec.veclen}, align_min: {Growth.leastSlots}, " ++
    s!"align_max: {l.spec.growth.threshold}, " ++
    s!"_marker: PhantomData<fn() -> ({t.name}, {i.element.name})> \x7d, " ++
    s!"capacity: {l.capacity}, size: {l.size} \x7d"

end InvertedList

end InvertedFile
