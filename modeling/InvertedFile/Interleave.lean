import InvertedFile.Buffer
import InvertedFile.Layout.Basic

/-!
# The interleaved order

Moving records between the flat order, in which the columns of a record stand
side by side, and the interleaved order of a list's buffer, in which a chunk
of columns stands side by side for all records of a group.

`position` says where a column of a record is. The rest of the module moves
whole chunks: one record at a time (`packRecord`, `unpackRecord`), or a batch
of records group by group (`pack`, `unpack`). The batch operations check
first that the buffer has the length its extents ask for, that the batch is a
whole number of records and that the records are there; what fails these
checks touches nothing.

## Main results

* `position_groups` — a record of a later group is a whole number of groups
  further on, at the same place in its group.
* `chunkPosition_eq_position` — the first column of a chunk is where the chunk
  starts.
* `forChunks_eq_forM` — a record is moved chunk by chunk.
-/

namespace InvertedFile.Interleave

variable {α : Type}

/-- Where column `d` of record `p` is in a buffer of the given widths. -/
def position (dim veclen p d : Nat) : Nat :=
  p / groupSize * groupSize * dim + d / veclen * groupSize * veclen +
    p % groupSize * veclen + d % veclen

/-- Where column `d` of record `p` is, for any pair of widths. No chunk has width zero. -/
def position? (dim veclen p d : Nat) : Except Error Nat :=
  if veclen = 0 then .error (.fault .divisionByZero) else .ok (position dim veclen p d)

/-- The first columns of the chunks of a record. -/
def columns (dim veclen : Nat) : List Nat :=
  (List.range (dim / veclen)).map (· * veclen)

/-- Where the chunk of record `p` is that starts at column `col`. -/
def chunkPosition (dim veclen p col : Nat) : Nat :=
  p / groupSize * groupSize * dim + p % groupSize * veclen + col * groupSize

/-- The chunks of a record: the first column of each and where the chunk is. -/
def recordChunks (dim veclen p : Nat) : List (Nat × Nat) :=
  (columns dim veclen).map fun col => (col, chunkPosition dim veclen p col)

theorem position_groups (dim veclen p d k : Nat) :
    position dim veclen (p + k * groupSize) d =
      k * (groupSize * dim) + position dim veclen p d := by
  have hdiv : (p + k * groupSize) / groupSize = p / groupSize + k := by
    simp only [groupSize]
    omega
  have hmod : (p + k * groupSize) % groupSize = p % groupSize := by
    simp only [groupSize]
    omega
  simp only [position, hdiv, hmod, Nat.add_mul, Nat.mul_assoc]
  omega

theorem chunkPosition_eq_position {dim veclen : Nat} (p c : Nat) (h : 0 < veclen) :
    chunkPosition dim veclen p (c * veclen) = position dim veclen p (c * veclen) := by
  simp only [chunkPosition, position, Nat.mul_div_cancel c h, Nat.mul_mod_left]
  rw [Nat.mul_right_comm c veclen groupSize]
  omega

/-! ## One record -/

/-- Moves the chunks of a record one after the other until a move fails. A move is given the first
column of the chunk and where the chunk is. -/
def forChunks {σ : Type} (dim veclen p : Nat) (move : Nat → Nat → Action σ Unit) :
    Action σ Unit :=
  Action.forRange (fun c => move (c * veclen) (chunkPosition dim veclen p (c * veclen)))
    0 (dim / veclen)

theorem forChunks_eq_forM {σ : Type} (dim veclen p : Nat) (move : Nat → Nat → Action σ Unit) :
    forChunks dim veclen p move =
      (recordChunks dim veclen p).forM fun chunk => move chunk.1 chunk.2 := by
  rw [forChunks, Action.forRange_eq_forM, ← List.range_eq_range']
  simp [recordChunks, columns]

/-- Stores a flat record as record `p` of the buffer. -/
def packRecord (dim veclen p : Nat) (flat : Array α) : Action (Array α) Unit :=
  forChunks dim veclen p fun col place => do
    let columns ← Action.ofExcept (Buffer.slice flat col veclen)
    Buffer.store place columns

/-- Copies record `p` of a buffer over the first columns of a flat record. -/
def unpackRecord (dim veclen p : Nat) (data : Array α) : Action (Array α) Unit :=
  forChunks dim veclen p fun col place => do
    let columns ← Action.ofExcept (Buffer.slice data place veclen)
    Buffer.store col columns

/-! ## Batches -/

/-- The buffer has the length its extents ask for. -/
def checkBuffer (e : Extents) (length : Nat) : Except Error Unit :=
  if length = e.length then .ok ()
  else .error (.invalid (.bufferLength length e.toList e.length))

/-- The number of records in a batch, which holds whole records only. -/
def batchRecords (elements dim : Nat) : Except Error Nat :=
  if dim = 0 ∨ elements % dim ≠ 0 then .error (.invalid (.partialRecords elements dim))
  else .ok (elements / dim)

/-- The `n` records from `start` on lie below the limit. -/
def checkRange (bound : Bound) (start n limit : Nat) : Except Error Unit :=
  if start + n ≤ limit then .ok () else .error (.outOfBounds bound (start + n) limit)

/-- The part of one group that a batch for the records from `start` to `stop` fills. -/
def packGroup (e : Extents) (codes : Array α) (start stop group : Nat) :
    Action (Array α) Unit :=
  let first := max start (group * groupSize)
  let last := min stop ((group + 1) * groupSize)
  (List.range' first (last - first)).forM fun p => do
    let flat ← Action.ofExcept (Buffer.slice codes ((p - start) * e.dim) e.dim)
    (columns e.dim e.veclen).forM fun col => do
      let chunk ← Action.ofExcept (Buffer.slice flat col e.veclen)
      Buffer.store (group * e.groupLength + (col * groupSize + p % groupSize * e.veclen)) chunk

/-- The groups that the `n` records from `start` on reach into. -/
def touchedGroups (start n : Nat) : List Nat :=
  if n = 0 then []
  else List.range' (start / groupSize) ((start + n - 1) / groupSize - start / groupSize + 1)

/-- Stores a batch of flat records as the records from `start` on, group by group. -/
def pack (e : Extents) (start : Nat) (codes : Array α) : Action (Array α) Unit := do
  let length := (← get).size
  Action.ofExcept (checkBuffer e length)
  let n ← Action.ofExcept (batchRecords codes.size e.dim)
  Action.ofExcept (checkRange .packing start n e.rows)
  (touchedGroups start n).forM (packGroup e codes start (start + n))

/-- Copies one of the records from `start` on over record `k` of a batch. -/
def unpackSlot (dim veclen start : Nat) (data : Array α) (k : Nat) : Action (Array α) Unit :=
  Buffer.within (k * dim) dim (unpackRecord dim veclen (start + k) data)

/-- Copies the records from `start` on over a batch of flat records, as many as the batch holds. -/
def unpack (e : Extents) (start : Nat) (data : Array α) : Action (Array α) Unit := do
  Action.ofExcept (checkBuffer e data.size)
  let elements := (← get).size
  let n ← Action.ofExcept (batchRecords elements e.dim)
  Action.ofExcept (checkRange .unpacking start n e.rows)
  (List.range n).forM (unpackSlot e.dim e.veclen start data)

end InvertedFile.Interleave
