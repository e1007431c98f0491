import InvertedFile.Action
import InvertedFile.Budget.Basic
import InvertedFile.Bytes.LittleEndian

/-!
# Streams of bytes

An image is read from a **source** and written to a **sink**. A source holds
the bytes that are left and what comes behind them: the end of the input, or
a failure. A sink keeps what has reached it and may have room for a number of
bytes only; a write that does not fit fills the room and fails.

Words are read in runs of at most `runLength`, so that a corrupt length is
found out by the end of the input and not by an allocation.

## Main results

* `Source.take_eq_ok`, `Source.take_eq_error` — a read succeeds exactly when
  the bytes are there, and takes all that is left when they are not.
* `Sink.written_add` — what reaches a sink stands behind what had reached it.
* `Sink.put_eq_ok`, `Sink.put_eq_error` — a write succeeds exactly when there is
  room for it, and fills the room when there is not.
-/

namespace InvertedFile

/-- What comes behind the last byte of a source. -/
inductive Ending where
  | endOfInput
  | failure
  deriving DecidableEq, Repr

/-- The error of a read that runs into the ending. -/
def Ending.error : Ending → Error
  | endOfInput => .malformed .truncated
  | failure => .io .readFailed

/-- The bytes that are left to read. -/
structure Source where
  bytes : Bytes
  ending : Ending
  deriving DecidableEq, Repr

/-- What has been written and, where it is limited, the room for more. -/
structure Sink where
  /-- The bytes of each write, the latest first. -/
  chunks : List Bytes
  room : Option Nat
  deriving DecidableEq, Repr

namespace Source

/-- Reads exactly `n` bytes. -/
def take (n : Nat) : Action Source Bytes := fun s =>
  let bytes := s.bytes.take n
  if bytes.length = n then .ok bytes { s with bytes := s.bytes.drop n }
  else .error s.ending.error { s with bytes := [] }

theorem take_eq_ok {n : Nat} {s : Source} (h : n ≤ s.bytes.length) :
    take n s = .ok (s.bytes.take n) { s with bytes := s.bytes.drop n } := by
  simp [take, Nat.min_eq_left h]

theorem take_eq_error {n : Nat} {s : Source} (h : s.bytes.length < n) :
    take n s = .error s.ending.error { s with bytes := [] } := by
  simp [take, Nat.min_eq_right (Nat.le_of_lt h), Nat.ne_of_lt h]

/-- Reads a number of `width` bytes. -/
def number (width : Nat) : Action Source Nat := do
  return LittleEndian.decode (← take width)

end Source

namespace Sink

/-- A sink that nothing has reached. -/
def empty (room : Option Nat) : Sink where
  chunks := []
  room := room

/-- The bytes that have reached a sink. -/
def written (s : Sink) : Bytes :=
  s.chunks.reverse.flatten

/-- A sink that more bytes have reached, with other room. -/
def add (bytes : Bytes) (room : Option Nat) (s : Sink) : Sink where
  chunks := bytes :: s.chunks
  room := room

@[simp]
theorem written_empty (room : Option Nat) : (empty room).written = [] := rfl

@[simp]
theorem written_add (bytes : Bytes) (room : Option Nat) (s : Sink) :
    (s.add bytes room).written = s.written ++ bytes := by
  simp [add, written]

/-- Writes bytes, as many of them as there is room for. -/
def put (bytes : Bytes) : Action Sink Unit := fun s =>
  match s.room with
  | none => .ok () (s.add bytes none)
  | some room =>
      if bytes.length ≤ room then .ok () (s.add bytes (some (room - bytes.length)))
      else .error (.io .sinkFull) (s.add (bytes.take room) (some 0))

/-- Writes fields one after the other. -/
def putAll (fields : List Bytes) : Action Sink Unit :=
  fields.forM put

theorem put_eq_ok {bytes : Bytes} {s : Sink} (h : ∀ room ∈ s.room, bytes.length ≤ room) :
    put bytes s = .ok () (s.add bytes (s.room.map (· - bytes.length))) := by
  obtain ⟨chunks, room⟩ := s
  cases room with
  | none => rfl
  | some room => simp [put, h room rfl]

theorem put_eq_error {bytes : Bytes} {s : Sink} {room : Nat} (hroom : s.room = some room)
    (h : room < bytes.length) :
    put bytes s = .error (.io .sinkFull) (s.add (bytes.take room) (some 0)) := by
  simp [put, hroom, Nat.not_le.mpr h]

end Sink

/-! ## Words -/

namespace Word

/-- The bytes of a word, lowest first. -/
def encode {t : ElementType} (w : Word t) : Bytes :=
  LittleEndian.encode t.size w.toNat

/-- The word of the given bytes. -/
def decode (t : ElementType) (bytes : Bytes) : Word t :=
  BitVec.ofNat (8 * t.size) (LittleEndian.decode bytes)

/-- The bytes of an array of words. -/
def encodeAll {t : ElementType} (ws : Array (Word t)) : Bytes :=
  ws.toList.flatMap encode

/-- Splits bytes into `n` words, behind those decoded before. -/
def decodeOnto (t : ElementType) : Nat → Bytes → Array (Word t) → Array (Word t)
  | 0, _, acc => acc
  | n + 1, bytes, acc =>
      decodeOnto t n (bytes.drop t.size) (acc.push (decode t (bytes.take t.size)))

theorem length_encode {t : ElementType} (w : Word t) : w.encode.length = t.size := by
  simp [encode]

end Word

namespace Source

/-- The greatest number of words read at once. -/
def runLength : Nat :=
  65536

/-- Reads `n` words at once, behind those read before. -/
def run (t : ElementType) (n : Nat) (acc : Array (Word t)) : Action Source (Array (Word t)) := do
  return Word.decodeOnto t n (← take (n * t.size)) acc

/-- Reads a number of full runs, behind the words read before. -/
def runs (t : ElementType) : Nat → Array (Word t) → Action Source (Array (Word t))
  | 0, acc => pure acc
  | k + 1, acc => do runs t k (← run t runLength acc)

/-- Reads an array of `n` words: full runs, then what is left. -/
def words (t : ElementType) (n : Nat) : Action Source (Array (Word t)) := do
  run t (n % runLength) (← runs t (n / runLength) #[])

end Source

/-! ## Transfers -/

/-- A stream together with the budget that the buffers of a transfer are charged to. -/
structure Transfer (σ : Type) where
  budget : Budget
  stream : σ

namespace Transfer

variable {σ α : Type}

/-- An action on the budget of a transfer. -/
def budgeted (act : Action Budget α) : Action (Transfer σ) α :=
  Action.focus Transfer.budget (fun s b => { s with budget := b }) act

/-- An action on the stream of a transfer. -/
def streamed (act : Action σ α) : Action (Transfer σ) α :=
  Action.focus Transfer.stream (fun s stream => { s with stream := stream }) act

/-- Runs an action while a buffer of `count` elements of `width` bytes is charged. -/
def reserving (count width : Nat) (act : Nat → Action (Transfer σ) α) : Action (Transfer σ) α :=
  Budget.reserving Transfer.budget (fun s b => { s with budget := b }) count width act

/-- Gives bytes back to the budget of a transfer. -/
def release (bytes : Nat) (s : Transfer σ) : Transfer σ :=
  { s with budget := s.budget.release bytes }

end Transfer

end InvertedFile
