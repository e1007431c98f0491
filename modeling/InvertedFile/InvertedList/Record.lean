import InvertedFile.InvertedList.Copy
import InvertedFile.Stream

/-!
# Stored lists

The image of one list, a **record** of a stored index:

* the number of records, in four bytes; a list without records ends here;
* the descriptor of the ids, then the ids;
* the descriptor of the words, then the words, in the interleaved order of the
  layout the record is stored in, with zeros behind the last record.

The descriptor of an array is the tag of its element type, its rank and one
extent for each dimension. All numbers are little-endian.

A list is stored with as many records as are published, or with another
number: then what is missing is stored as zero records under the id of an
unused slot. What is stored is copied out of the list first, and then written.
Every buffer this takes is charged to the budget before the first byte is
written, so a refusal writes nothing.

A list is read into a layout of the reader's choice. What it reads it checks
in the order in which it reads it, and a failure leaves nothing charged.
-/

namespace InvertedFile.InvertedList

variable {t : ElementType} {i : IdType}

/-- The greatest rank of an array that is read. -/
def greatestRank : Nat :=
  8

/-- The descriptor of an array. -/
def descriptor (t : ElementType) (extents : List Nat) : Bytes :=
  t.tag :: UInt8.ofNat extents.length :: extents.flatMap (LittleEndian.encode 4)

/-- The fields of a record that is not empty, in the order they are written. -/
def recordFields (ids : Array (Id i)) (e : Extents) (words : Array (Word t)) : List Bytes :=
  [ LittleEndian.encode 4 ids.size,
    descriptor i.element [ids.size],
    Word.encodeAll ids,
    descriptor t e.toList,
    Word.encodeAll words ]

/-- The ids a record of `length` records stores: the published ones, then those of unused slots. -/
def storedIds (l : InvertedList t i) (length : Nat) : Except Error (Array (Id i)) := do
  let live ← Buffer.slice l.ids 0 (min length l.size)
  return live ++ Array.replicate (length - live.size) (Id.invalid i)

/-- The words a record of `e` stores: the given records, then zeros. -/
def storedWords (e : Extents) (flat : Array (Word t)) : Except Error (Array (Word t)) :=
  match Interleave.pack e 0 flat (Array.replicate e.length 0) with
  | .ok _ words => .ok words
  | .error cause _ => .error cause

/-- What has been copied out of a list for a record of it. -/
structure Draft (t : ElementType) (i : IdType) where
  length : Nat
  /-- As many ids as the record has, those of unused slots behind the published ones. -/
  ids : Array (Id i)
  /-- The published records of the record, in the flat order. -/
  flat : Array (Word t)
  /-- The bytes that the two arrays are charged with. -/
  bytes : Nat

/-- Copies out of a list what a record of `length` records stores. This is all that a record takes
from the list. -/
def gather (l : InvertedList t i) (length : Nat) : Action Budget (Draft t i) :=
  if length = 0 then return { length, ids := #[], flat := #[], bytes := 0 }
  else do
    let live := min length l.size
    let idBytes ← Budget.allocate length i.size
    Action.undoing (Budget.release idBytes) do
      let ids ← Action.ofExcept (l.storedIds length)
      let flatBytes ← Budget.allocate (live * l.extents.dim) t.size
      Action.undoing (Budget.release flatBytes) do
        let flat ← Action.ofExcept (flatRecords l.data l.extents live)
        return { length, ids, flat, bytes := idBytes + flatBytes }

/-- Writes what has been copied out of a list as one record, and gives its buffers back. -/
def Draft.write (d : Draft t i) (store : Layout) : Action (Transfer Sink) Unit :=
  Action.closing (Transfer.release d.bytes) do
    if d.length = 0 then
      Transfer.streamed (Sink.put (LittleEndian.encode 4 0))
    else
      let e := store.extents d.length
      Transfer.reserving e.length t.size fun _ => do
        let words ← Action.ofExcept (storedWords e d.flat)
        Transfer.streamed (Sink.putAll (recordFields d.ids e words))

/-- The number of records that are stored: those asked for, or those that are published. -/
def imageLength (l : InvertedList t i) (length : Option UInt32) : Nat :=
  (length.map UInt32.toNat).getD l.size

/-- Writes a list as one record in the layout of `store`, with `length` records if that is given
and with the published ones if not. This is what saving a list does to the budget and the sink;
a list that others may write to is saved by `Saving.writeList`. -/
def writeRecord (l : InvertedList t i) (store : ListSpec) (length : Option UInt32) :
    Action (Transfer Sink) Unit := do
  ensure (store.dim = l.spec.dim) (.invalid (.storeDim l.spec.dim store.dim))
  let draft ← Transfer.budgeted (l.gather (l.imageLength length))
  draft.write store.layout

/-- Reads the extents of an array of a given rank. -/
def readExtents : Nat → Action Source (List Nat)
  | 0 => pure []
  | rank + 1 => do
      let extent ← Source.number 4
      let more ← readExtents rank
      return extent :: more

/-- Reads the descriptor of an array and compares it with the one expected. The type is compared
when the whole descriptor has been read. -/
def readDescriptor (role : ArrayRole) (expected : ElementType) (extents : List Nat) :
    Action Source Unit := do
  let tag := UInt8.ofNat (← Source.number 1)
  match ElementType.ofTag? tag with
  | none => throw (.malformed (.unknownTag tag role))
  | some found =>
      let rank ← Source.number 1
      ensure (rank ≤ greatestRank) (.malformed (.rank role rank))
      let foundExtents ← readExtents rank
      ensure (found = expected) (.incompatible (.arrayType role expected found))
      ensure (foundExtents = extents)
        (.incompatible (.arrayExtents role extents foundExtents))

/-- A list of the given ids and words, which are stored as `e` says, in a layout of its own. -/
def ofStored (device : ListSpec) (store : Layout) (ids : Array (Id i)) (words : Array (Word t)) :
    Action Budget (InvertedList t i) := do
  let dest ← create t i device ids.size
  Action.undoing (Budget.release dest.reserved) do
    let dest ←
      if store = device.layout then Action.ofExcept (dest.withWords words)
      else repack words (store.extents ids.size) ids.size dest
    let dest ← Action.ofExcept (dest.withIds ids)
    Action.ofExcept (dest.withSize ids.size)

/-- Reads the ids and the words of a record of `length` records in the layout of `store`. -/
def readArrays (t : ElementType) (i : IdType) (store : Layout) (length : Nat) :
    Action Source (Array (Id i) × Array (Word t)) := do
  let e := store.extents length
  readDescriptor .indices i.element [length]
  let ids ← Source.words i.element length
  readDescriptor .data t e.toList
  let words ← Source.words t e.length
  return (ids, words)

/-- Reads one record in the layout of `store` into a list laid out as `device` says. -/
def readRecord (t : ElementType) (i : IdType) (store device : ListSpec) :
    Action (Transfer Source) (InvertedList t i) := do
  ensure (store.dim = device.dim) (.invalid (.deviceDim store.dim device.dim))
  let length ← Transfer.streamed (Source.number 4)
  if length = 0 then return empty t i device
  else
    let (ids, words) ← Transfer.streamed (readArrays t i store.layout length)
    Transfer.budgeted (ofStored device store.layout ids words)

end InvertedFile.InvertedList
