import InvertedFile.Budget.Basic
import InvertedFile.Json.Literal

/-!
# Settings of a computation

How many threads a computation may use and how many bytes its buffers may
take. Settings are stored as JSON text, like the parameters of an index: as an
object in which the limit may be missing, or as an array of both.
-/

namespace InvertedFile

/-- The number of threads and the limit of the budget. No answer depends on the threads. -/
structure Settings where
  threads : Nat
  limit : Option Nat
  deriving DecidableEq, Repr

namespace Settings

/-- The budget of a computation that starts. -/
def budget (s : Settings) : Budget :=
  .new s.limit

/-- Settings as JSON text. -/
def toJson (s : Settings) : Bytes :=
  Json.objectText
    [ ("num_threads", Json.numberText s.threads),
      ("memory_limit_bytes", match s.limit with
        | none => Json.nullText
        | some limit => Json.numberText limit) ]

/-- Settings as JSON text, in any spelling. -/
def ofJson? (s : Bytes) : Option Settings :=
  match Json.object? s with
  | some members => do
      let threads ← Json.field? "num_threads" (Json.numberBelow? byteLimit) none members
      let limit ←
        Json.field? "memory_limit_bytes" (Json.optional? (Json.numberBelow? byteLimit))
          (some none) members
      return { threads, limit }
  | none => do
      let elements ← (Json.array? s).filter fun elements => elements.length ≤ 2
      let threads ← Json.element? 0 (Json.numberBelow? byteLimit) none elements
      let limit ←
        Json.element? 1 (Json.optional? (Json.numberBelow? byteLimit)) none elements
      return { threads, limit }

end Settings

end InvertedFile
