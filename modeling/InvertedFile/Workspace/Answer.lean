import InvertedFile.Index.Params
import InvertedFile.InvertedList.Describe
import InvertedFile.InvertedList.View

/-!
# Answers of a workspace

What a step tells, and what it tells when it fails: that a name stands for
nothing, or an error together with what the failed operation left to see.
-/

namespace InvertedFile

/-- An index without its records. -/
structure IndexInfo where
  params : IndexParams
  spec : ListSpec
  /-- The published size of each list. -/
  sizes : List Nat

/-- What a step with the writer of a list tells. -/
inductive WriterAnswer (t : ElementType) (i : IdType) where
  /-- The published size after a write. -/
  | written (size : Nat)
  /-- The new size after an append. -/
  | appended (size : Nat)
  | flag (value : Bool)
  | contents (c : Contents t i)

/-- What a failed step left to see. -/
inductive Remains where
  | nothing
  /-- The list that is held after a resize, and whether it is another one. -/
  | list (swapped : Bool) (info : ListInfo)
  /-- The bytes that reached the sink. -/
  | written (bytes : Bytes)
  /-- The sizes of the lists of an index. -/
  | sizes (sizes : List Nat)

/-- Why a step failed. -/
inductive Failure where
  /-- A name stands for nothing. -/
  | missing
  | error (cause : Error) (remains : Remains)

/-- The failure of an operation that was refused and left something to see. A fault breaks off what
it happens in, and leaves nothing to see. -/
def Failure.leaving (cause : Error) (remains : Remains) : Failure :=
  match cause with
  | .fault _ => .error cause .nothing
  | _ => .error cause remains

mutual

/-- What a step tells. -/
inductive Answer (t : ElementType) (i : IdType) where
  | flag (value : Bool)
  | memory (inUse : Nat) (limit : Option Nat)
  | info (info : ListInfo)
  | contents (c : Contents t i)
  | text (s : String)
  | words (ws : Array (Word t))
  | written (steps : List (Except Error (WriterAnswer t i))) (size : Nat) (free : Bool)
  | held (steps : List (Outcome t i)) (c : Contents t i)
  /-- The list has other holders. -/
  | shared
  | raw (data : Array (Word t)) (ids : Array (Id i))
  | resized (swapped : Bool) (info : ListInfo)
  | bytes (bytes : Bytes)
  | loaded (info : ListInfo) (read : Nat)
  | indexInfo (info : IndexInfo)
  | sizes (sizes : List Nat)
  /-- The capacity and the contents of each list. -/
  | lists (lists : List (Nat × Contents t i))
  | indexLoaded (info : IndexInfo) (read : Nat)
  | throughFile (file : Bytes) (info : IndexInfo)

/-- What came of a step, and the bytes in use after it. -/
inductive Outcome (t : ElementType) (i : IdType) where
  | done (answer : Answer t i) (inUse : Nat)
  | failed (cause : Failure) (inUse : Nat)

end

end InvertedFile
