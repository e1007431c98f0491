import InvertedFile.Bytes.Hex
import InvertedFile.Element

/-!
# Errors

Everything that can go wrong with a list, an index or an image of one, as
causes. A cause carries the numbers that its message shows; the wording of
all messages is `Error.message` and nothing else in the library spells one.

The causes come in kinds. An operation that is asked for more than there is
fails with `outOfBounds`; a refused buffer with `allocation`; bytes that are
no image with `malformed`; an image of another format, type or shape with
`incompatible`; an argument that makes no sense with `invalid`; and a stream
that breaks off with `io`. A `fault` is a broken promise between two parts of
the library: an access outside a buffer, a division by zero or a list that is
nowhere in the store.
-/

namespace InvertedFile

/-- The causes for which a pair of widths lays out no list. -/
inductive LayoutFault where
  | zeroDim
  | unevenVeclen (veclen : Nat)
  | unevenDim (dim veclen : Nat)
  deriving DecidableEq, Repr

/-- What a range check was about. -/
inductive Bound where
  | packing
  | unpacking
  | publishedRecords
  | chunks
  | listCapacity
  | listSize
  | usedRecords
  | copying
  | clusterLabel
  deriving DecidableEq, Repr

/-- Why a buffer was refused. -/
inductive Refusal where
  /-- No capacity for this many records fits the width of a record count. -/
  | noCapacity (records : Nat)
  /-- The byte count of the buffer overflows. -/
  | bufferTooLarge
  /-- The byte count of all buffers together overflows. -/
  | countOverflow
  /-- The budget is spent. -/
  | exhausted (inUse limit : Nat)
  /-- The budget would allow the buffer and the host does not. -/
  | hostLimit
  deriving DecidableEq, Repr

/-- The two arrays of a stored list. -/
inductive ArrayRole where
  | indices
  | data
  deriving DecidableEq, Repr

/-- The two element types an image declares. -/
inductive TypeRole where
  | value
  | id
  deriving DecidableEq, Repr

/-- Why bytes are no image. -/
inductive Defect where
  | truncated
  | unknownTag (tag : UInt8) (role : ArrayRole)
  | rank (role : ArrayRole) (found : Nat)
  | paramsLength (length : Nat)
  | params
  | listCount (stored declared : Nat)
  | layout (cause : LayoutFault)
  deriving DecidableEq, Repr

/-- What an image was expected to declare and what it declares instead. -/
inductive Mismatch where
  | magic (expected found : Nat)
  | version (expected found : Nat)
  | elementType (role : TypeRole) (expected : ElementType) (found : UInt8)
  | arrayType (role : ArrayRole) (expected found : ElementType)
  | arrayExtents (role : ArrayRole) (expected found : List Nat)
  deriving DecidableEq, Repr

/-- Arguments that make no sense. -/
inductive BadArgument where
  | layout (cause : LayoutFault)
  | noLists
  | bufferLength (length : Nat) (extents : List Nat) (required : Nat)
  | partialRecords (elements dim : Nat)
  | partialOutput (elements dim : Nat)
  | partialVectors (elements dim : Nat)
  | overlap (start size : Nat)
  | shrinkingPublish (size published : Nat)
  | idsForElements (ids elements dim : Nat)
  | idsForVectors (ids vectors : Nat)
  | idTooLarge (id : Nat)
  | labelsForVectors (labels vectors : Nat)
  | assignedLabels (labels vectors : Nat)
  | resizeDim (listDim specDim : Nat)
  | storeDim (listDim specDim : Nat)
  | deviceDim (stored device : Nat)
  /-- An assigner from outside the library gave this reason. -/
  | assigner (reason : String)
  deriving DecidableEq, Repr

/-- Why a stream broke off. -/
inductive StreamFault where
  | sinkFull
  | readFailed
  | noSuchFile
  deriving DecidableEq, Repr

/-- A broken promise between two parts of the library. -/
inductive Fault where
  | outsideBuffer
  | divisionByZero
  | unknownList
  deriving DecidableEq, Repr

/-- The causes of failure. -/
inductive Error where
  | io (cause : StreamFault)
  | outOfBounds (bound : Bound) (requested limit : Nat)
  | allocation (bytes : Nat) (cause : Refusal)
  | malformed (defect : Defect)
  | incompatible (mismatch : Mismatch)
  | invalid (argument : BadArgument)
  | fault (cause : Fault)
  deriving DecidableEq, Repr

/-- The text of a list of extents: numbers between brackets. -/
def extentsText (extents : List Nat) : String :=
  "[" ++ ", ".intercalate (extents.map toString) ++ "]"

/-- What is wrong with a pair of widths. -/
def LayoutFault.message : LayoutFault → String
  | zeroDim => "dim must be positive"
  | unevenVeclen veclen => s!"veclen must be a power of two, got {veclen}"
  | unevenDim dim veclen => s!"dim {dim} is not a multiple of veclen {veclen}"

/-- What was counted, in words. -/
def Bound.name : Bound → String
  | packing => "pack"
  | unpacking => "unpack"
  | publishedRecords => "published records"
  | chunks => "chunk"
  | listCapacity => "list capacity"
  | listSize => "list size"
  | usedRecords => "used records"
  | copying => "copy"
  | clusterLabel => "cluster label"

/-- The reason for a refusal. -/
def Refusal.message : Refusal → String
  | noCapacity records => s!"capacity for {records} records overflows"
  | bufferTooLarge => "buffer size overflow"
  | countOverflow => "byte count overflow"
  | exhausted inUse limit => s!"memory budget exhausted ({inUse} of {limit} bytes in use)"
  | hostLimit =>
      "memory allocation failed because the computed capacity exceeded the collection's maximum"

/-- The array, in a word. -/
def ArrayRole.name : ArrayRole → String
  | indices => "indices"
  | data => "data"

/-- What the type is of, in a word. -/
def TypeRole.name : TypeRole → String
  | value => "value"
  | id => "id"

/-- What is wrong with an argument. -/
def BadArgument.message : BadArgument → String
  | layout cause => cause.message
  | noLists => "n_lists must be positive"
  | bufferLength length extents required =>
      s!"list buffer holds {length} elements, extents {extentsText extents} require {required}"
  | partialRecords elements dim =>
      s!"batch of {elements} elements is not a whole number of {dim}-dim records"
  | partialOutput elements dim =>
      s!"output of {elements} elements is not a whole number of {dim}-dim records"
  | partialVectors elements dim =>
      s!"batch of {elements} elements is not a whole number of {dim}-dim vectors"
  | overlap start size => s!"write at offset {start} overlaps {size} published records"
  | shrinkingPublish size published =>
      s!"cannot publish {size} records over {published} already published"
  | idsForElements ids elements dim => s!"{ids} ids for {elements} elements of dim {dim}"
  | idsForVectors ids vectors => s!"{ids} ids for {vectors} vectors"
  | idTooLarge id => s!"record id {id} does not fit the id type"
  | labelsForVectors labels vectors => s!"{labels} labels for {vectors} vectors"
  | assignedLabels labels vectors =>
      s!"assigner returned {labels} labels for {vectors} vectors"
  | resizeDim listDim specDim => s!"cannot resize a {listDim}-dim list with a {specDim}-dim spec"
  | storeDim listDim specDim => s!"cannot store a {listDim}-dim list with a {specDim}-dim spec"
  | deviceDim stored device => s!"stored dim {stored} does not match device dim {device}"
  | assigner reason => reason

/-- The text behind "Invalid parameter: ", which is also how a stored layout's fault is told. -/
def BadArgument.report (argument : BadArgument) : String :=
  s!"Invalid parameter: {argument.message}"

/-- What is wrong with an image. -/
def Defect.message : Defect → String
  | truncated => "truncated record: failed to fill whole buffer"
  | unknownTag tag role => s!"unknown element type tag {tag.toNat} for {role.name}"
  | rank role found => s!"{role.name} array has rank {found}"
  | paramsLength length => s!"params blob of {length} bytes"
  | params => "invalid params"
  | listCount stored declared => s!"{stored} lists stored, params declare {declared}"
  | layout cause => s!"invalid list layout: {(BadArgument.layout cause).report}"

namespace Mismatch

/-- A feature in words, of what was expected. -/
def expected : Mismatch → String
  | magic expected _ => s!"magic 0x{Hex.ofNat 8 expected}"
  | version expected _ => s!"format version {expected}"
  | elementType role expected _ => s!"{role.name} type {expected.name}"
  | arrayType role expected _ => s!"{role.name} of {expected.name}"
  | arrayExtents role expected _ => s!"{role.name} extents {extentsText expected}"

/-- A feature in words, of what was found. A tag of no type is told by its number. -/
def found : Mismatch → String
  | magic _ found => s!"magic 0x{Hex.ofNat 8 found}"
  | version _ found => s!"format version {found}"
  | elementType role _ found =>
      match ElementType.ofTag? found with
      | some t => s!"{role.name} type {t.name}"
      | none => s!"{role.name} type tag {found.toNat}"
  | arrayType role _ found => s!"{role.name} of {found.name}"
  | arrayExtents role _ found => s!"{role.name} extents {extentsText found}"

end Mismatch

/-- How a stream broke off. -/
def StreamFault.message : StreamFault → String
  | sinkFull => "sink full"
  | readFailed => "read failed"
  | noSuchFile => "no such file"

/-- Which promise was broken. -/
def Fault.message : Fault → String
  | outsideBuffer => "access outside a buffer"
  | divisionByZero => "division by zero"
  | unknownList => "list not in the store"

/-- The text of an error. -/
def Error.message : Error → String
  | io cause => s!"IO error: {cause.message}"
  | outOfBounds bound requested limit =>
      s!"Out of bounds: {bound.name} requires {requested}, limit is {limit}"
  | allocation bytes cause => s!"Allocation of {bytes} bytes failed: {cause.message}"
  | malformed defect => s!"Malformed list data: {defect.message}"
  | incompatible mismatch =>
      s!"Incompatible format: expected {mismatch.expected}, found {mismatch.found}"
  | invalid argument => argument.report
  | fault cause => s!"Fault: {cause.message}"

end InvertedFile
