import InvertedFile.Index.Basic
import InvertedFile.Store.Saving

/-!
# Stored indexes

The image of an index, in which all numbers are little-endian:

* the magic number and the version of the format, in four bytes each;
* the tags of the types of the words and of the ids;
* the columns of a vector and of a chunk, in four bytes each;
* the length of the parameters' text, in four bytes, and the text;
* the number of lists, in four bytes, and the record of each list.

The image says its own extent: what follows the last record is not read. A
reader takes it apart from front to back, and the first thing that is not as
it should be decides the error. Lists that were read before are given up then.

An index is saved list by list, each with its writer held while it is read.
What is written is `Index.write`, an action that sees a store and leaves it
alone.
-/

namespace InvertedFile

namespace Index

variable {t : ElementType} {i : IdType}

/-- The first four bytes of an image: the letters I, V, F and L. -/
def magic : Nat :=
  0x4C465649

/-- The version of the format. -/
def version : Nat :=
  1

/-- The greatest length of the parameters' text. -/
def paramsLimit : Nat :=
  1024 * 1024

/-- The fields of an image before the records. -/
def headerFields (t : ElementType) (i : IdType) (x : Index) : List Bytes :=
  let params := x.params.toJson
  [ LittleEndian.encode 4 magic,
    LittleEndian.encode 4 version,
    [t.tag],
    [i.element.tag],
    LittleEndian.encode 4 x.dim,
    LittleEndian.encode 4 x.veclen,
    LittleEndian.encode 4 params.length,
    params,
    LittleEndian.encode 4 x.lists ]

/-- Writes the record of the list of a label. -/
def writeSlot (x : Index) (s : Store t i) (label : Nat) : Action (Transfer Sink) Unit := do
  let id ← Action.ofExcept (x.slot label)
  match s.list? id with
  | none => throw (.fault .unknownList)
  | some l => l.writeRecord x.spec none

/-- Writes an index. -/
def write (x : Index) (s : Store t i) : Action (Transfer Sink) Unit := do
  Transfer.streamed (Sink.putAll (headerFields t i x))
  (List.range x.lists).forM (writeSlot x s)

/-- Saves the list of a label. -/
def saveSlot (x : Index) (label : Nat) : Action (Saving t i) Unit := do
  let id ← Action.ofExcept (x.slot label)
  Saving.writeList id x.spec none

/-- Saves an index. -/
def save (x : Index) : Action (Saving t i) Unit := do
  Saving.transferring (Transfer.streamed (Sink.putAll (headerFields t i x)))
  (List.range x.lists).forM (saveSlot x)

end Index

namespace LoadedIndex

variable {t : ElementType} {i : IdType}

/-- What an image says before its records. -/
structure Header where
  params : IndexParams
  spec : ListSpec

/-- Reads the tag of an element type, which must be the expected one. -/
def readTag (role : TypeRole) (expected : ElementType) : Action Source Unit := do
  let tag := UInt8.ofNat (← Source.number 1)
  ensure (tag = expected.tag) (.incompatible (.elementType role expected tag))

/-- Reads all of an image before its records. -/
def readHeader (t : ElementType) (i : IdType) : Action Source Header := do
  let magic ← Source.number 4
  ensure (magic = Index.magic) (.incompatible (.magic Index.magic magic))
  let version ← Source.number 4
  ensure (version = Index.version) (.incompatible (.version Index.version version))
  readTag .value t
  readTag .id i.element
  let dim ← Source.number 4
  let veclen ← Source.number 4
  let length ← Source.number 4
  ensure (length ≤ Index.paramsLimit) (.malformed (.paramsLength length))
  let text ← Source.take length
  match IndexParams.ofJson? text with
  | none => throw (.malformed .params)
  | some params =>
      let lists ← Source.number 4
      ensure (lists = params.lists.toNat)
        (.malformed (.listCount lists params.lists.toNat))
      match ListSpec.ofWidths (UInt32.ofNat dim) (UInt32.ofNat veclen) params.growth with
      | .error cause => throw (.malformed (.layout cause))
      | .ok spec => return { params, spec }

/-- Reads the records of a number of lists. When one cannot be read, those before are given up. -/
def readRecords (t : ElementType) (i : IdType) (spec : ListSpec) :
    Nat → Action (Transfer Source) (List (InvertedList t i))
  | 0 => pure []
  | n + 1 => do
      let l ← InvertedList.readRecord t i spec spec
      let more ← Action.undoing (Transfer.release l.reserved) (readRecords t i spec n)
      return l :: more

/-- Reads an index. -/
def read (t : ElementType) (i : IdType) : Action (Transfer Source) (LoadedIndex t i) := do
  let header ← Transfer.streamed (readHeader t i)
  let lists ← readRecords t i header.spec header.params.lists.toNat
  return { params := header.params, spec := header.spec, lists }

end LoadedIndex

end InvertedFile
